-- SUMMARY: Blocks that grow with their items: eel_calcresize, realloc and the functions that set the size.
import Eel.Core.Table
import Eel.Core.Vector
import Eel.Lib.Block
import Eel.Lib.CInt

/-!
# Growing blocks

Arrays, vectors and dynamic strings keep their items at the start of a block, and have it
resized to what `eel_calcresize` suggests. Here memory can run out, sums and products can
be too large for an `int`, and sizes can lose bits on their way to `realloc`.
-/

namespace Eel

def Xno.memory : Xno := 57

/-! ## Sizes -/

/-- `while(n < requested) n = (n * 3 >> 1) + base;`, with no result when it overflows. -/
def grow? (base : Nat) (hbase : 0 < base) (requested n : Nat) : Option Nat :=
  if n < requested then
    if n * 3 < 2 ^ 31 ∧ ((n * 3) >>> 1) + base < 2 ^ 31 then grow? base hbase requested (((n * 3) >>> 1) + base)
    else none
  else some n
termination_by requested - n
decreasing_by rw [Nat.shiftRight_eq_div_pow]; omega

/-- `eel_calcresize`. -/
def calcresize? (base : Nat) (hbase : 0 < base) (current : Nat) (requested : Int) : Option Nat :=
  if requested > current then grow? base hbase requested.toNat (if current ≠ 0 then current else base)
  else
    let n := current / 2
    if requested > n then some current
    else if n < base then some base
    else some n

/-- How a class sizes its blocks. -/
structure Sizing where
  base : Nat
  base_pos : 0 < base
  /-- The size of an item. -/
  unit : Nat
  unit_pos : 0 < unit
  /-- The size of so many items, as it gets to `realloc`. -/
  bytes : Nat → Option Int
  bytes_lt : ∀ n size, n < 2 ^ 31 → bytes n = some size → size < 2 ^ 31
  base_fits : unit * base < 2 ^ 31
  /-- What is smaller than a block that there is has its size. -/
  bytes_exact : ∀ n, unit * n < 2 ^ 31 → bytes n = some ((unit * n : Nat) : Int)

/-- `n * sizeof(EEL_value)` is a `size_t`, and `realloc` is called with an `int`. -/
def arraySizing : Sizing where
  base := 8
  base_pos := by decide
  unit := 16
  unit_pos := by decide
  bytes n := some (Int.bmod (16 * n) (2 ^ 32))
  bytes_lt n size _ h := by
    have := Option.some.inj h
    have := Int.bmod_lt (x := 16 * n) (m := 2 ^ 32) (by decide)
    omega
  base_fits := by decide
  bytes_exact n h := by
    rw [Int.bmod_eq_of_le (by omega) (by omega)]
    norm_cast

namespace VectorClass

/-- `item_size`. -/
def itemSize : VectorClass → Nat
  | u8 | s8 => 1
  | u16 | s16 => 2
  | u32 | s32 | f => 4
  | d => 8

theorem width_eq (cls : VectorClass) : cls.width = 8 * cls.itemSize := by
  cases cls <;> rfl

theorem vectorSizeBase_pos : 0 < vectorSizeBase := by
  decide

/-- `n * v->isize` is an `int`. -/
def sizing (cls : VectorClass) : Sizing where
  base := vectorSizeBase
  base_pos := vectorSizeBase_pos
  unit := cls.itemSize
  unit_pos := by cases cls <;> decide
  bytes n := CInt.check (cls.itemSize * n)
  bytes_lt n size _ h := by
    obtain ⟨hrange, rfl⟩ := CInt.check_eq_some.mp h
    exact hrange.2
  base_fits := by cases cls <;> decide
  bytes_exact n h := CInt.check_eq_some.mpr ⟨⟨by omega, by exact_mod_cast h⟩, rfl⟩

theorem sizing_bytes (cls : VectorClass) (n : Nat) :
    cls.sizing.bytes n = CInt.check ((cls.itemSize : Int) * (n : Int)) := by
  unfold sizing
  dsimp only

end VectorClass

/-- The size of a dynamic string's buffer is the number of its characters. -/
def dstringSizing : Sizing where
  base := 32
  base_pos := by decide
  unit := 1
  unit_pos := by decide
  bytes n := some n
  bytes_lt n size hn h := by
    have := Option.some.inj h
    omega
  base_fits := by decide
  bytes_exact n _ := by
    rw [Nat.one_mul]

/-! ## Memory -/

/-- The memory manager. -/
structure Memory where
  /-- Whether `realloc` has so many bytes. -/
  provides : Nat → Bool
  /-- Whether they are in another place then. -/
  moves : Nat → Bool

/-- A memory manager that has enough, and grows blocks where they are. -/
def Memory.ample : Memory where
  provides _ := true
  moves _ := false

/-- `realloc`, and whether there is a new block. As `size_t`, a negative size is more than
there can be; what a size of 0 does is not defined. -/
def Memory.realloc {α : Type} (M : Memory) (unit : Nat) (cells : Block α) (size : Int) : Option (Bool × Block α) :=
  if size < 0 then some (false, cells)
  else if size = 0 then none
  else if M.provides size.toNat then some (true, cells.resize (size.toNat / unit))
  else some (false, cells)

/-- What an array, a vector or a dynamic string is made of. -/
structure Buffer (α : Type) where
  length : Int
  maxlength : Nat
  cells : Block α

namespace Buffer

variable {α : Type} (M : Memory) (S : Sizing)

/-- `v_setsize` and `ds_setsize`, for how the class sizes its blocks. -/
def setsize (b : Buffer α) (newsize : Int) : Option (Int × Buffer α) :=
  (calcresize? S.base S.base_pos b.maxlength newsize).bind fun n =>
    if n = b.maxlength then some (0, b)
    else
      (S.bytes n).bind fun size =>
        (M.realloc S.unit b.cells size).map fun
          | (true, cells) => (0, ⟨b.length, n, cells⟩)
          | (false, cells) => (-1, { b with cells := cells })

/-- `a_setsize`: what an array without items has may be gone. -/
def aSetsize (b : Buffer Value) (newsize : Int) : Option (Int × Buffer Value) :=
  (b.setsize M arraySizing newsize).map fun r =>
    if r.1 ≠ 0 ∧ newsize = 0 then (0, { r.2 with maxlength := 0, cells := [] }) else r

/-- `v_setsize`. -/
def vSetsize (cls : VectorClass) (b : Buffer Item) (newsize : Int) : Option (Int × Buffer Item) :=
  b.setsize M cls.sizing newsize

/-- `ds_setsize`. -/
def dsSetsize (b : Buffer Byte) (newsize : Int) : Option (Int × Buffer Byte) :=
  b.setsize M dstringSizing newsize

/-- The first cells of the block have these values. -/
structure Keeps (stored : List α) (b : Buffer α) : Prop where
  maxlength_eq : b.cells.length = b.maxlength
  fits : S.unit * b.maxlength < 2 ^ 31
  stored : stored.map some <+: b.cells

/-- There is memory for the new size. -/
def Served (b : Buffer α) (newsize : Int) : Prop :=
  ∃ n, calcresize? S.base S.base_pos b.maxlength newsize = some n ∧
    (n = b.maxlength ∨ S.bytes n = some ((S.unit * n : Nat) : Int) ∧ M.provides (S.unit * n))

/-- There is none, and the block stays as it is. -/
def Refused (b : Buffer α) (newsize : Int) : Prop :=
  ∃ n size, calcresize? S.base S.base_pos b.maxlength newsize = some n ∧ n ≠ b.maxlength ∧
    S.bytes n = some size ∧ (size < 0 ∨ 0 < size ∧ M.provides size.toNat = false)

/-- The size is computed without overflow and gets to `realloc` as it is, or nothing comes of it. -/
def Answered (b : Buffer α) (newsize : Int) : Prop := b.Served M S newsize ∨ b.Refused M S newsize

end Buffer

/-! ## `eel_calcresize` -/

section Sizes

variable {base n current k : Nat} {hbase : 0 < base} {requested : Int}

theorem grow?_spec {r : Nat} (h : grow? base hbase r n = some k) (hn : n < 2 ^ 31) :
    r ≤ k ∧ n ≤ k ∧ k < 2 ^ 31 ∧ k = growTo base hbase r n := by
  fun_induction grow? base hbase r n with
  | case1 n hlt hfits ih =>
    obtain ⟨hr, hle, hk, heq⟩ := ih h hfits.2
    rw [growTo, if_pos hlt]
    rw [Nat.shiftRight_eq_div_pow] at hle
    exact ⟨hr, by omega, hk, heq⟩
  | case2 => cases h
  | case3 n hge =>
    obtain rfl := Option.some.inj h
    rw [growTo, if_neg hge]
    exact ⟨Nat.not_lt.mp hge, Nat.le_refl _, hn, rfl⟩

/-- Without an overflow there is room. -/
theorem calcresize?_spec (h : calcresize? base hbase current requested = some k) (hcur : current < 2 ^ 31)
    (hb : base < 2 ^ 31) : requested ≤ k ∧ 0 < k ∧ k < 2 ^ 31 := by
  unfold calcresize? at h
  split at h
  · rename_i hlt
    have hn : 0 < (if current ≠ 0 then current else base) ∧ (if current ≠ 0 then current else base) < 2 ^ 31 := by
      split <;> omega
    obtain ⟨hr, hle, hk, -⟩ := grow?_spec h hn.2
    omega
  · dsimp only at h
    split at h
    · obtain rfl := Option.some.inj h
      omega
    · split at h
      · obtain rfl := Option.some.inj h
        omega
      · obtain rfl := Option.some.inj h
        omega

/-- It is the size of the unbounded computation. -/
theorem calcresize?_eq (h : calcresize? base hbase current requested = some k) (hcur : current < 2 ^ 31)
    (hb : base < 2 ^ 31) (hreq : 0 ≤ requested) : k = calcResize base hbase current requested.toNat := by
  unfold calcresize? at h
  unfold calcResize
  split at h
  · have hn : (if current ≠ 0 then current else base) < 2 ^ 31 := by
      split <;> assumption
    rw [if_pos (by omega)]
    exact (grow?_spec h hn).2.2.2
  · rw [if_neg (by omega)]
    dsimp only at h ⊢
    split at h
    · rw [if_pos (by omega)]
      exact (Option.some.inj h).symm
    · rw [if_neg (by omega)]
      split at h
      · rw [if_pos ‹_›]
        exact (Option.some.inj h).symm
      · rw [if_neg ‹_›]
        exact (Option.some.inj h).symm

theorem grow?_le {r : Nat} (h : grow? base hbase r n = some k) : k ≤ n ∨ k ≤ (r - 1) * 3 / 2 + base := by
  fun_induction grow? base hbase r n with
  | case1 n hlt hfits ih =>
    rw [Nat.shiftRight_eq_div_pow] at ih
    rcases ih h with hle | hle
    · exact .inr (by omega)
    · exact .inr hle
  | case2 => cases h
  | case3 n hge => exact .inl (Option.some.inj h).ge

/-- A block is larger than what was asked for by half at most. -/
theorem calcresize?_le (h : calcresize? base hbase current requested = some k) :
    k ≤ current ∨ k ≤ (requested.toNat - 1) * 3 / 2 + base := by
  unfold calcresize? at h
  split at h
  · rcases grow?_le h with hle | hle
    · split at hle
      · exact .inl hle
      · exact .inr (by omega)
    · exact .inr hle
  · dsimp only at h
    split at h
    · exact .inl (Option.some.inj h).ge
    · split at h
      · exact .inr (by have := Option.some.inj h; omega)
      · exact .inl (by have := Option.some.inj h; omega)

theorem exists_grow? {r : Nat} (hr : r * 3 < 2 ^ 31) (hb : r * 3 / 2 + base < 2 ^ 31) :
    ∃ k, grow? base hbase r n = some k := by
  fun_induction grow? base hbase r n with
  | case1 n hlt hfits ih => exact ih
  | case2 n hlt hover =>
    rw [Nat.shiftRight_eq_div_pow] at hover
    omega
  | case3 n hge => exact ⟨n, rfl⟩

/-- Nothing overflows when a block gets smaller. -/
theorem calcresize?_of_le (h : requested ≤ current) :
    ∃ k, calcresize? base hbase current requested = some k ∧ (k ≤ current ∨ k = base) := by
  unfold calcresize?
  rw [if_neg (by omega)]
  dsimp only
  split
  · exact ⟨current, rfl, .inl (Nat.le_refl _)⟩
  · split
    · exact ⟨base, rfl, .inr rfl⟩
    · exact ⟨current / 2, rfl, .inl (by omega)⟩

/-- Nor when a block that is not too large gets larger by one item. -/
theorem calcresize?_succ (hcur : current * 3 < 2 ^ 31 - 2 * base) :
    ∃ k, calcresize? base hbase current (current + 1) = some k ∧ k ≤ current * 3 / 2 + base := by
  unfold calcresize?
  rw [if_pos (by omega)]
  have hreq : (current + 1 : Int).toNat = current + 1 := by
    omega
  rw [hreq]
  split
  · have hshift : (current * 3) >>> 1 = current * 3 / 2 := Nat.shiftRight_eq_div_pow _ 1
    rw [grow?, if_pos (Nat.lt_succ_self current), hshift, if_pos (by omega), grow?, if_neg (by omega)]
    exact ⟨_, rfl, Nat.le_refl _⟩
  · rename_i hzero
    rw [not_not.mp hzero, grow?, if_neg (by omega)]
    exact ⟨base, rfl, by omega⟩

end Sizes

/-! ## Setting the size -/

namespace Memory

variable {α : Type} {M : Memory} {unit : Nat} {cells : Block α} {size : Int}

theorem realloc_refused (h : size < 0 ∨ 0 < size ∧ M.provides size.toNat = false) :
    M.realloc unit cells size = some (false, cells) := by
  unfold realloc
  rcases h with h | ⟨h, hp⟩
  · rw [if_pos h]
  · rw [if_neg (by omega), if_neg (by omega), if_neg (by rw [hp]; exact Bool.false_ne_true)]

theorem realloc_provided {n : Nat} (hunit : 0 < unit) (hn : 0 < n) (h : M.provides (unit * n)) :
    M.realloc unit cells ((unit * n : Nat) : Int) = some (true, cells.resize n) := by
  have hpos : 0 < ((unit * n : Nat) : Int) := Int.natCast_pos.mpr (Nat.mul_pos hunit hn)
  have hne : ¬ ((unit * n : Nat) : Int) = 0 := hpos.ne'
  unfold realloc
  rw [if_neg (not_lt_of_gt hpos), if_neg hne, Int.toNat_natCast, if_pos h, Nat.mul_div_cancel_left n hunit]

end Memory

/-- Sizes get to `realloc` as they are, or overflow. -/
def Sizing.Exact (S : Sizing) : Prop := ∀ n size, S.bytes n = some size → size = ((S.unit * n : Nat) : Int)

theorem Sizing.base_lt (S : Sizing) : S.base < 2 ^ 31 :=
  Nat.lt_of_le_of_lt (Nat.le_mul_of_pos_left _ S.unit_pos) S.base_fits

theorem VectorClass.sizing_exact (cls : VectorClass) : cls.sizing.Exact := by
  intro n size h
  rw [VectorClass.sizing_bytes, CInt.check_eq_some] at h
  obtain ⟨-, rfl⟩ := h
  show (cls.itemSize : Int) * n = ((cls.itemSize * n : Nat) : Int)
  rw [Nat.cast_mul]

theorem dstringSizing_exact : dstringSizing.Exact := by
  intro n size h
  rw [← Option.some.inj h]
  exact congrArg Nat.cast (Nat.one_mul n).symm

namespace Buffer

variable {α : Type} {M : Memory} {S : Sizing} {b : Buffer α} {stored : List α} {newsize : Int}

theorem Keeps.maxlength_lt (h : b.Keeps S stored) : b.maxlength < 2 ^ 31 :=
  Nat.lt_of_le_of_lt (Nat.le_mul_of_pos_left _ S.unit_pos) h.fits

theorem Keeps.length_le (h : b.Keeps S stored) : stored.length ≤ b.maxlength := by
  have hle := h.stored.length_le
  rwa [List.length_map, h.maxlength_eq] at hle

/-- Other cells in the block. -/
theorem Keeps.replace (h : b.Keeps S stored) {stored' : List α} {cells : Block α} {length : Int}
    (hlen : cells.length = b.cells.length) (hpre : stored'.map some <+: cells) :
    Keeps S stored' ⟨length, b.maxlength, cells⟩ := ⟨hlen.trans h.maxlength_eq, h.fits, hpre⟩

/-- The first cells of a block are what they are. -/
theorem Keeps.unique {stored' : List α} (h : b.Keeps S stored) (h' : b.Keeps S stored')
    (hlen : stored.length = stored'.length) : stored = stored' := by
  have hmaps : stored.map some = stored'.map some := by
    refine List.IsPrefix.eq_of_length (List.prefix_of_prefix_length_le h.stored h'.stored ?_) ?_
    · rw [List.length_map, List.length_map, hlen]
    · rw [List.length_map, List.length_map, hlen]
  exact List.map_injective_iff.mpr (Option.some_injective α) hmaps

/-- The block gets the size, with what was in it. -/
theorem setsize_served (hb : b.Keeps S stored) (h : b.Served M S newsize) (hlen : stored.length ≤ newsize) :
    ∃ b', b.setsize M S newsize = some (0, b') ∧ b'.Keeps S stored ∧ newsize ≤ b'.maxlength ∧
      b'.length = b.length := by
  obtain ⟨n, hn, hcase⟩ := h
  obtain ⟨hle, hpos, hlt⟩ := calcresize?_spec hn hb.maxlength_lt S.base_lt
  unfold setsize
  rw [hn, Option.bind_some]
  by_cases heq : n = b.maxlength
  · rw [if_pos heq]
    exact ⟨b, rfl, hb, heq ▸ hle, rfl⟩
  · obtain ⟨hbytes, hprov⟩ := hcase.resolve_left heq
    rw [if_neg heq, hbytes, Option.bind_some, Memory.realloc_provided S.unit_pos hpos hprov, Option.map_some]
    refine ⟨_, rfl, ⟨Block.length_resize, ?_, ?_⟩, hle, rfl⟩
    · have := S.bytes_lt n _ hlt hbytes
      exact_mod_cast this
    · refine Block.prefix_resize hb.stored ?_
      rw [List.length_map]
      omega

theorem setsize_refused (h : b.Refused M S newsize) : b.setsize M S newsize = some (-1, b) := by
  obtain ⟨n, size, hn, hne, hbytes, hsize⟩ := h
  unfold setsize
  rw [hn, Option.bind_some, if_neg hne, hbytes, Option.bind_some, Memory.realloc_refused hsize, Option.map_some]

/-- Setting the size writes nothing. -/
theorem setsize_keepsBehind {b' : Buffer α} {r : Int} {k : Nat} (h : b.setsize M S newsize = some (r, b')) :
    Block.KeepsBehind k b.cells b'.cells := by
  unfold setsize at h
  obtain ⟨n, -, h⟩ := Option.bind_eq_some_iff.mp h
  split at h
  · obtain ⟨-, rfl⟩ := Prod.mk.inj (Option.some.inj h)
    exact .refl _
  · obtain ⟨size, -, hmap⟩ := Option.bind_eq_some_iff.mp h
    obtain ⟨⟨ok, cells⟩, hrealloc, hr⟩ := Option.map_eq_some_iff.mp hmap
    have hcells : Block.KeepsBehind k b.cells cells := by
      unfold Memory.realloc at hrealloc
      split at hrealloc
      · exact (Prod.mk.inj (Option.some.inj hrealloc)).2 ▸ .refl _
      · split at hrealloc
        · cases hrealloc
        · split at hrealloc
          · exact (Prod.mk.inj (Option.some.inj hrealloc)).2 ▸ .resize
          · exact (Prod.mk.inj (Option.some.inj hrealloc)).2 ▸ .refl _
    cases ok <;>
    · obtain ⟨-, rfl⟩ := Prod.mk.inj hr
      exact hcells

/-- The block has the size that was computed. -/
theorem setsize_maxlength {b' : Buffer α} (h : b.setsize M S newsize = some (0, b')) :
    calcresize? S.base S.base_pos b.maxlength newsize = some b'.maxlength := by
  unfold setsize at h
  cases hn : calcresize? S.base S.base_pos b.maxlength newsize with
  | none =>
    rw [hn] at h
    cases h
  | some n =>
    rw [hn, Option.bind_some] at h
    split at h
    · rename_i heq
      obtain ⟨-, rfl⟩ := Prod.mk.inj (Option.some.inj h)
      rw [heq]
    · obtain ⟨size, -, hmap⟩ := Option.bind_eq_some_iff.mp h
      obtain ⟨⟨ok, cells⟩, -, hr⟩ := Option.map_eq_some_iff.mp hmap
      cases ok with
      | true =>
        obtain ⟨-, rfl⟩ := Prod.mk.inj hr
        rfl
      | false => exact absurd (Prod.mk.inj hr).1 (by decide)

/-- What is not answered has overflowed. -/
theorem setsize_eq_none (hS : S.Exact) (hb : b.Keeps S stored) (h : ¬ b.Answered M S newsize) :
    b.setsize M S newsize = none := by
  unfold setsize
  cases hn : calcresize? S.base S.base_pos b.maxlength newsize with
  | none => rfl
  | some n =>
    obtain ⟨-, hpos, -⟩ := calcresize?_spec hn hb.maxlength_lt S.base_lt
    have hne : n ≠ b.maxlength := fun heq => h (.inl ⟨n, hn, .inl heq⟩)
    rw [Option.bind_some, if_neg hne]
    cases hbytes : S.bytes n with
    | none => rfl
    | some size =>
      obtain rfl := hS n size hbytes
      cases hprov : M.provides (S.unit * n) with
      | true => exact absurd (.inl ⟨n, hn, .inr ⟨hbytes, hprov⟩⟩) h
      | false =>
        refine absurd (.inr ⟨n, _, hn, hne, hbytes, .inr ⟨?_, ?_⟩⟩) h
        · exact Int.natCast_pos.mpr (Nat.mul_pos S.unit_pos hpos)
        · rw [Int.toNat_natCast]
          exact hprov

/-- A block that is not larger than what there is gets an answer. -/
theorem answered_of_fits {n : Nat} (hn : calcresize? S.base S.base_pos b.maxlength newsize = some n) (hpos : 0 < n)
    (hfits : S.unit * n < 2 ^ 31) : b.Answered M S newsize := by
  have hbytes := S.bytes_exact n hfits
  by_cases heq : n = b.maxlength
  · exact .inl ⟨n, hn, .inl heq⟩
  cases hprov : M.provides (S.unit * n) with
  | true => exact .inl ⟨n, hn, .inr ⟨hbytes, hprov⟩⟩
  | false =>
    refine .inr ⟨n, _, hn, heq, hbytes, .inr ⟨?_, ?_⟩⟩
    · exact Int.natCast_pos.mpr (Nat.mul_pos S.unit_pos hpos)
    · rw [Int.toNat_natCast]
      exact hprov

/-- Requests for up to two thirds of what an `int` can count are answered. -/
theorem answered_of_small (hb : b.Keeps S stored) (h : S.unit * (newsize.toNat * 3 / 2 + S.base) < 2 ^ 31)
    (hsmall : newsize.toNat * 3 < 2 ^ 31) : b.Answered M S newsize := by
  have hle : newsize.toNat * 3 / 2 + S.base < 2 ^ 31 := Nat.lt_of_le_of_lt (Nat.le_mul_of_pos_left _ S.unit_pos) h
  obtain ⟨n, hn⟩ : ∃ n, calcresize? S.base S.base_pos b.maxlength newsize = some n := by
    by_cases hreq : newsize ≤ b.maxlength
    · obtain ⟨n, hn, -⟩ : ∃ n, calcresize? S.base S.base_pos b.maxlength newsize = some n ∧ _ := calcresize?_of_le hreq
      exact ⟨n, hn⟩
    · unfold calcresize?
      rw [if_pos (by omega)]
      exact exists_grow? hsmall hle
  obtain ⟨-, hpos, -⟩ := calcresize?_spec hn hb.maxlength_lt S.base_lt
  refine answered_of_fits hn hpos ?_
  rcases calcresize?_le hn with hk | hk
  · exact Nat.lt_of_le_of_lt (Nat.mul_le_mul_left _ hk) hb.fits
  · exact Nat.lt_of_le_of_lt (Nat.mul_le_mul_left _ (hk.trans (by omega))) h

theorem answered_of_le (hb : b.Keeps S stored) (h : newsize ≤ b.maxlength) : b.Answered M S newsize := by
  obtain ⟨n, hn, hsize⟩ : ∃ n, calcresize? S.base S.base_pos b.maxlength newsize = some n ∧ _ := calcresize?_of_le h
  obtain ⟨-, hpos, -⟩ := calcresize?_spec hn hb.maxlength_lt S.base_lt
  refine answered_of_fits hn hpos ?_
  rcases hsize with hle | rfl
  · exact Nat.lt_of_le_of_lt (Nat.mul_le_mul_left _ hle) hb.fits
  · exact S.base_fits

/-- Making a block smaller keeps what it is for, whether or not there is memory. -/
theorem setsize_shrink (hb : b.Keeps S stored) (hlen : stored.length ≤ newsize) (h : newsize ≤ b.maxlength) :
    ∃ r b', b.setsize M S newsize = some (r, b') ∧ b'.Keeps S stored ∧ b'.length = b.length := by
  rcases answered_of_le hb h with hs | hr
  · obtain ⟨b', hset, hkeeps, -, hsame⟩ := setsize_served hb hs hlen
    exact ⟨0, b', hset, hkeeps, hsame⟩
  · exact ⟨-1, b, setsize_refused hr, hb, rfl⟩

theorem aSetsize_shrink {b : Buffer Value} {stored : List Value} (hb : b.Keeps arraySizing stored)
    (hlen : stored.length ≤ newsize) (h : newsize ≤ b.maxlength) :
    ∃ r b', b.aSetsize M newsize = some (r, b') ∧ b'.Keeps arraySizing stored ∧ b'.length = b.length := by
  obtain ⟨r, b', hset, hkeeps, hsame⟩ := setsize_shrink (M := M) hb hlen h
  unfold aSetsize
  rw [hset, Option.map_some]
  split
  · rename_i hzero
    have hnil : stored = [] := List.eq_nil_of_length_eq_zero (by omega)
    subst hnil
    exact ⟨_, _, rfl, ⟨rfl, Nat.two_pow_pos 31, List.nil_prefix⟩, hsame⟩
  · exact ⟨r, b', rfl, hkeeps, hsame⟩

/-! ### Arrays -/

section Arrays

variable {b : Buffer Value} {stored : List Value}

theorem aSetsize_served (hb : b.Keeps arraySizing stored) (h : b.Served M arraySizing newsize)
    (hlen : stored.length ≤ newsize) :
    ∃ b', b.aSetsize M newsize = some (0, b') ∧ b'.Keeps arraySizing stored ∧ newsize ≤ b'.maxlength ∧
      b'.length = b.length := by
  obtain ⟨b', hset, hrest⟩ := setsize_served hb h hlen
  refine ⟨b', ?_, hrest⟩
  unfold aSetsize
  rw [hset]
  rfl

theorem aSetsize_refused (h : b.Refused M arraySizing newsize) (hne : newsize ≠ 0) :
    b.aSetsize M newsize = some (-1, b) := by
  unfold aSetsize
  rw [setsize_refused h, Option.map_some, if_neg fun hz => hne hz.2]

theorem aSetsize_keepsBehind {b' : Buffer Value} {r : Int} {k : Nat} (h : b.aSetsize M newsize = some (r, b')) :
    Block.KeepsBehind k b.cells b'.cells := by
  obtain ⟨⟨r', b₁⟩, hset, hr⟩ := Option.map_eq_some_iff.mp h
  split at hr
  · obtain ⟨-, rfl⟩ := Prod.mk.inj hr
    exact fun j a _ hja => nomatch hja
  · obtain ⟨-, rfl⟩ := Prod.mk.inj hr
    exact setsize_keepsBehind hset

/-- When the size loses bits, there is either no result or a block that is too small. -/
theorem aSetsize_unanswered (hb : b.Keeps arraySizing stored) (h : ¬ b.Answered M arraySizing newsize)
    (hpos : 0 < newsize) :
    b.aSetsize M newsize = none ∨
      ∃ n cells, b.aSetsize M newsize = some (0, ⟨b.length, n, cells⟩) ∧ cells.length < newsize := by
  unfold aSetsize setsize
  cases hn : calcresize? arraySizing.base arraySizing.base_pos b.maxlength newsize with
  | none => exact .inl rfl
  | some n =>
    have hne : n ≠ b.maxlength := fun heq => h (.inl ⟨n, hn, .inl heq⟩)
    obtain ⟨size, hsize⟩ : ∃ size, Int.bmod (16 * n) (2 ^ 32) = size := ⟨_, rfl⟩
    have hbytes : arraySizing.bytes n = some size := congrArg some hsize
    have hlt := Int.bmod_lt (x := 16 * n) (m := 2 ^ 32) (by decide)
    rw [Option.bind_some, if_neg hne, hbytes, Option.bind_some]
    unfold Memory.realloc
    by_cases hneg : size < 0
    · exact absurd (.inr ⟨n, size, hn, hne, hbytes, .inl hneg⟩) h
    rw [if_neg hneg]
    by_cases hzero : size = 0
    · rw [if_pos hzero]
      exact .inl rfl
    rw [if_neg hzero]
    cases hprov : M.provides size.toNat with
    | false => exact absurd (.inr ⟨n, size, hn, hne, hbytes, .inr ⟨by omega, hprov⟩⟩) h
    | true =>
      rw [if_pos rfl]
      refine .inr ⟨n, _, rfl, ?_⟩
      -- at least 2^32 bytes, as the size is not that of the block
      have hexact : size ≠ ((16 * n : Nat) : Int) := by
        rintro rfl
        exact h (.inl ⟨n, hn, .inr ⟨hbytes, by rwa [Int.toNat_natCast] at hprov⟩⟩)
      have hquot := Int.bmod_eq_self_sub_mul_bdiv (16 * (n : Int)) (2 ^ 32)
      have hlarge : 2 ^ 32 ≤ 16 * (n : Int) := by
        omega
      have hfits : 16 * b.maxlength < 2 ^ 31 := hb.fits
      have hcells : (Block.resize b.cells (size.toNat / arraySizing.unit)).length = size.toNat / 16 :=
        Block.length_resize
      rw [hcells]
      rcases calcresize?_le hn with hle | hle
      · omega
      · have hle : n ≤ (newsize.toNat - 1) * 3 / 2 + 8 := hle
        omega

/-- An array that there is can get larger by one item, unless there is no memory. -/
theorem answered_succ (hb : b.Keeps arraySizing stored) (hle : newsize ≤ b.maxlength + 1) :
    b.Answered M arraySizing newsize := by
  by_cases h : newsize ≤ b.maxlength
  · exact answered_of_le hb h
  obtain rfl : newsize = b.maxlength + 1 := by
    omega
  have hfits : 16 * b.maxlength < 2 ^ 31 := hb.fits
  obtain ⟨n, hn, hle⟩ : ∃ n, calcresize? arraySizing.base arraySizing.base_pos b.maxlength (b.maxlength + 1) = some n ∧
      n ≤ b.maxlength * 3 / 2 + 8 := calcresize?_succ (by
    show b.maxlength * 3 < 2 ^ 31 - 2 * 8
    omega)
  obtain ⟨hge, hpos, -⟩ := calcresize?_spec hn hb.maxlength_lt arraySizing.base_lt
  by_cases hsmall : 16 * n < 2 ^ 31
  · exact answered_of_fits hn hpos hsmall
  · -- the size is negative as an `int`
    refine .inr ⟨n, 16 * n - 2 ^ 32, hn, by omega, congrArg some ?_, .inl (by omega)⟩
    have hquot := Int.bmod_eq_self_sub_mul_bdiv (16 * (n : Int)) (2 ^ 32)
    have hlow := Int.le_bmod (x := 16 * n) (m := 2 ^ 32) (by decide)
    have hlt := Int.bmod_lt (x := 16 * n) (m := 2 ^ 32) (by decide)
    omega

end Arrays

end Buffer

/-! ## Sequences -/

/-- The first cells of an array are its items. -/
structure Buffer.IsArray (items : List Value) (b : Buffer Value) : Prop where
  length_eq : b.length = items.length
  keeps : b.Keeps arraySizing items

/-- So are those of a vector. -/
structure Buffer.IsVector (cls : VectorClass) (items : List Item) (b : Buffer Item) : Prop where
  length_eq : b.length = items.length
  keeps : b.Keeps cls.sizing items

/-- The characters of a dynamic string have a terminator. -/
structure Buffer.IsDstring (items : List Byte) (b : Buffer Byte) : Prop where
  length_eq : b.length = items.length
  keeps : b.Keeps dstringSizing (items ++ [0])

/-- What is left of a value when objects die. -/
def Value.killAll (os : List ObjId) (v : Value) : Value := os.foldl (fun v o => v.kill o) v

/-- What doubles are as indexes. -/
structure Indexing where
  /-- `floor`, and then the conversion to an `int`. -/
  floor : BitVec 64 → BitVec 32
  /-- `*i0 + floor(v) - 1`, which is computed with doubles, as an `int`. -/
  last : BitVec 32 → BitVec 64 → BitVec 32
  /-- `floor`, and then the conversion to a `char`. -/
  byte : BitVec 64 → Byte

/-- The index that a value is, for an operation of a sequence. -/
def Value.index (X : Indexing) : Value → Except Xno (BitVec 32)
  | .boolean v | .integer v | .classid v => .ok v
  | .real bits => .ok (X.floor bits)
  | _ => .error Xno.wrongType

theorem Value.index_error {X : Indexing} {v : Value} {x : Xno} (h : v.index X = .error x) : x = Xno.wrongType := by
  cases v <;> cases h <;> rfl

section Indexes

variable {α : Type}

/-- What is no index is refused, and `P` is what is to be at one. -/
def AtIndex (b : Buffer α) (result : Option (Xno × Buffer α)) (P : Nat → Prop) : Except Xno (BitVec 32) → Prop
  | .error x => x ≠ Xno.ok ∧ result = some (x, b)
  | .ok i => if i.toInt < 0 then result = some (Xno.lowIndex, b) else P i.toInt.toNat

/-- What matters is what happens at the indexes that are not refused. -/
theorem atIndex_iff {b : Buffer α} {result : Option (Xno × Buffer α)} {P Q : Nat → Prop}
    {index : Except Xno (BitVec 32)} (herror : ∀ x, index = .error x → x ≠ Xno.ok ∧ result = some (x, b))
    (hlow : ∀ i, index = .ok i → i.toInt < 0 → result = some (Xno.lowIndex, b))
    (hat : ∀ (i : BitVec 32) (k : Nat), index = .ok i → i.toInt = k → (P k ↔ Q k)) :
    AtIndex b result P index ↔ ∀ i (k : Nat), index = .ok i → i.toInt = k → Q k := by
  cases index with
  | error x => exact iff_of_true (herror x rfl) nofun
  | ok i =>
    show (if i.toInt < 0 then _ else _) ↔ _
    by_cases hneg : i.toInt < 0
    · rw [if_pos hneg]
      refine iff_of_true (hlow i rfl hneg) fun j k hj hk => ?_
      obtain rfl := Except.ok.inj hj
      omega
    · have hk : i.toInt = i.toInt.toNat := by
        omega
      rw [if_neg hneg, hat i _ rfl hk]
      constructor
      · intro h j k hj hk'
        obtain rfl := Except.ok.inj hj
        have hkk : i.toInt.toNat = k := by
          omega
        exact hkk ▸ h
      · intro h
        exact h i _ rfl hk

end Indexes

/-- What is left of an item that is kept: only a weak reference may have changed. -/
theorem Value.killAll_eq (os : List ObjId) (v : Value) :
    v.killAll os = v ∨ (∃ o ∈ os, v = .weakref o true) ∧ v.killAll os = .nil := by
  induction os generalizing v with
  | nil => exact .inl rfl
  | cons o os ih =>
    show (v.kill o).killAll os = v ∨ _ ∧ (v.kill o).killAll os = .nil
    by_cases hv : v = .weakref o true
    · subst hv
      have hnil : (Value.weakref o true).kill o = .nil := if_pos rfl
      rw [hnil]
      refine .inr ⟨⟨o, List.mem_cons_self, rfl⟩, ?_⟩
      exact (ih .nil).elim id fun h => h.2
    · have hsame : v.kill o = v := by
        cases v with
        | weakref o' wired =>
          cases wired with
          | true =>
            refine if_neg fun heq => hv ?_
            rw [heq]
          | false => rfl
        | _ => rfl
      rw [hsame]
      refine (ih v).imp_right fun ⟨⟨o', ho', heq⟩, hk⟩ => ⟨⟨o', List.mem_cons_of_mem _ ho', heq⟩, hk⟩

theorem Value.killAll_weakref {os : List ObjId} {o : ObjId} (h : o ∈ os) :
    (Value.weakref o true).killAll os = .nil := by
  have hnil : ∀ os : List ObjId, Value.nil.killAll os = .nil := fun os =>
    (Value.killAll_eq os .nil).elim id fun h => h.2
  induction os with
  | nil => cases h
  | cons o' os ih =>
    show ((Value.weakref o true).kill o').killAll os = .nil
    by_cases heq : o = o'
    · have hkill : (Value.weakref o true).kill o' = .nil := if_pos heq
      rw [hkill]
      exact hnil os
    · have hkill : (Value.weakref o true).kill o' = .weakref o true := if_neg heq
      rw [hkill]
      exact ih ((List.mem_cons.mp h).resolve_left heq)

end Eel
