-- SUMMARY: Concatenation of dynamic strings, writes to them from native code, and when these are what they are of plain sequences of bytes.
import Eel.Core.Delete
import Eel.Core.Insert
import Eel.Core.StringCasts

/-!
# Operations of dynamic strings

Concatenation makes a new buffer or puts characters behind the others; what is appended may
be the string itself, and is then looked for where its buffer was.
-/

namespace Eel

/-- A memory manager that has enough, with blocks that move when they get some sizes. -/
def Memory.enough (moves : Nat → Bool) : Memory where
  provides _ := true
  moves := moves

/-- `s2buf`, for a dynamic string with these cells. -/
def Piece.cells (ds : Buffer Byte) : Piece → Option (List (Option Byte))
  | chars s => some (s.map some)
  | self => ds.cells.slice 0 ds.length

namespace Buffer

variable (M : Memory) (X : Indexing)

/-- `ds_add`. -/
def dsAdd (p : Piece) (ds1 : Buffer Byte) : Option (Buffer Byte) :=
  let s2len := p.s2len ds1.length
  (CInt.check (ds1.length + s2len + 1)).bind fun size =>
  (dstringSizing.malloc Byte size.toNat).bind fun buf =>
  (ds1.cells.slice 0 ds1.length).bind fun s1 =>
  (buf.write 0 s1).bind fun buf =>
  (p.cells ds1).bind fun s2 =>
  (buf.write ds1.length s2).bind fun buf =>
  (buf.store (ds1.length + s2len) 0).map fun buf => ⟨ds1.length + s2len, size.toNat, buf⟩

/-- What `ds_ipadd` does with characters. -/
def dsAppend (p : Piece) (ds1 : Buffer Byte) : Option (Xno × Buffer Byte) :=
  let s2len := p.s2len ds1.length
  (CInt.check (ds1.length + s2len + 1)).bind fun size =>
  (ds1.dsSetsize M size).bind fun r =>
  if r.1 < 0 then some (Xno.memory, r.2)
  else
    (writePiece ds1.length s2len p (moved M ds1 r.2) r.2.cells).bind fun cells =>
    (cells.store (ds1.length + s2len) 0).map fun cells => (Xno.ok, ⟨ds1.length + s2len, r.2.maxlength, cells⟩)

/-- `ds_ipadd`. -/
def dsIpadd (text : ObjId → Option Text) (eo : ObjId) (op1 : Value) (ds1 : Buffer Byte) : Option (Xno × Buffer Byte) :=
  match op1.obj?.bind text with
  | some _ => ds1.dsAppend M (Piece.ofValue X text eo op1)
  | none => ds1.dsSetIndex M X ds1.length op1

/-- `eel_ds_write`. -/
def dsWrite (pos : Int) (s : List Byte) (ds : Buffer Byte) : Option (Xno × Buffer Byte) :=
  (CInt.check (pos + s.length)).bind fun last =>
  if ds.length ≤ last then
    (CInt.check (last + 1)).bind fun size =>
    (ds.dsSetsize M size).bind fun r =>
    if r.1 < 0 then some (Xno.memory, r.2)
    else
      (r.2.cells.fill ds.length (r.2.maxlength - ds.length) 0).bind fun cells =>
      (cells.write pos (s.map some)).map fun cells => (Xno.ok, ⟨last, r.2.maxlength, cells⟩)
  else (ds.cells.write pos (s.map some)).map fun cells => (Xno.ok, { ds with cells := cells })

end Buffer

/-! ## Sequences of bytes -/

/-- The bytes with others in place of those from `pos` on, and zeros if `pos` is behind the last one. -/
def overwrite (items : List Byte) (pos : Nat) (s : List Byte) : List Byte :=
  items.take pos ++ List.replicate (pos - items.length) 0 ++ s ++ items.drop (pos + s.length)

/-- The bytes without those of a range that is inside. -/
def deleteItems (items : List Byte) (start n : Int) : Option (List Byte) :=
  if 0 ≤ start ∧ 0 < n ∧ start + n ≤ items.length then some (items.take start.toNat ++ items.drop (start + n).toNat)
  else none

/-- What the operands of `delete` say is to be left. -/
def deleted (items : List Byte) : Option (BitVec 32) → Option (BitVec 32) → Option (List Byte)
  | none, _ => some []
  | some start, none => deleteItems items start.toInt 1
  | some start, some n => deleteItems items start.toInt n.toInt

/-- The result for a dynamic string with `items`: it gets what it is to have, or an error leaves it as it is. -/
def Does (items : List Byte) (result : Option (Xno × Buffer Byte)) (new : Option (List Byte)) : Prop :=
  ∃ x b', result = some (x, b') ∧ b'.IsDstring (new.getD items) ∧ (x = Xno.ok ↔ new.isSome)

/-- The new size is computed without an overflow. -/
def Grows (b : Buffer Byte) (newsize : Int) : Prop :=
  newsize < 2 ^ 31 ∧ ∃ k, calcresize? dstringSizing.base dstringSizing.base_pos b.maxlength newsize = some k

/-- What is copied of the string itself is not somewhere else by then. -/
def Stays (moves : Nat → Bool) (b : Buffer Byte) (newsize : Int) : Prop :=
  ∀ k, calcresize? dstringSizing.base dstringSizing.base_pos b.maxlength newsize = some k → k ≠ b.maxlength →
    moves k = false

section Enough

variable {moves : Nat → Bool} {b : Buffer Byte} {items : List Byte} {newsize : Int} {result : Option (Xno × Buffer Byte)}

theorem Does.of_ok {new : List Byte} {b' : Buffer Byte} (hresult : result = some (Xno.ok, b')) (h : b'.IsDstring new) :
    Does items result (some new) := ⟨Xno.ok, b', hresult, h, iff_of_true rfl rfl⟩

theorem Does.of_error {x : Xno} (hb : b.IsDstring items) (hresult : result = some (x, b)) (hx : x ≠ Xno.ok) :
    Does items result none := ⟨x, b, hresult, hb, iff_of_false hx nofun⟩

theorem not_refused : ¬ b.Refused (.enough moves) dstringSizing newsize := by
  rintro ⟨n, size, -, -, hbytes, hsize⟩
  have hsize' : ((n : Nat) : Int) = size := Option.some.inj hbytes
  rcases hsize with hneg | ⟨-, hprov⟩
  · omega
  · cases hprov

theorem Grows.served (h : Grows b newsize) : b.Served (.enough moves) dstringSizing newsize := by
  obtain ⟨-, k, hk⟩ := h
  exact ⟨k, hk, .inr ⟨congrArg some (congrArg Nat.cast (Nat.one_mul k).symm), rfl⟩⟩

theorem setsize_enough {r : Int} {b' : Buffer Byte}
    (h : b.setsize (.enough moves) dstringSizing newsize = some (r, b')) : r = 0 := by
  unfold Buffer.setsize at h
  obtain ⟨n, -, h⟩ := Option.bind_eq_some_iff.mp h
  split at h
  · exact (Prod.mk.inj (Option.some.inj h)).1.symm
  · obtain ⟨size, hsize, hmap⟩ := Option.bind_eq_some_iff.mp h
    obtain ⟨⟨ok, cells⟩, hrealloc, hr⟩ := Option.map_eq_some_iff.mp hmap
    have hsize : (n : Int) = size := Option.some.inj hsize
    unfold Memory.realloc at hrealloc
    rw [if_neg (by omega)] at hrealloc
    split at hrealloc
    · cases hrealloc
    · have hprov : (Memory.enough moves).provides size.toNat = true := rfl
      rw [if_pos hprov] at hrealloc
      obtain ⟨rfl, rfl⟩ := Prod.mk.inj (Option.some.inj hrealloc)
      exact (Prod.mk.inj hr).1.symm

theorem Grows.inRange (h : Grows b newsize) (h0 : 0 ≤ newsize) : CInt.InRange newsize := ⟨by omega, h.1⟩

theorem Stays.not_moved {b' : Buffer Byte} (h : Stays moves b newsize)
    (hset : b.setsize (.enough moves) dstringSizing newsize = some (0, b')) :
    Buffer.moved (.enough moves) b b' = false := by
  have hmax := Buffer.setsize_maxlength hset
  unfold Buffer.moved
  rw [Bool.and_eq_false_iff, decide_eq_false_iff_not]
  by_cases hne : b'.maxlength ≠ b.maxlength
  · exact .inr (h _ hmax hne)
  · exact .inl hne

end Enough

/-! ## The operations -/

namespace Buffer.IsDstring

variable {moves : Nat → Bool} {X : Indexing} {b : Buffer Byte} {items : List Byte} {p : Piece}

theorem stored (hb : b.IsDstring items) : items.map some <+: b.cells :=
  ((List.prefix_append ..).map some).trans hb.keeps.stored

theorem slice_all (hb : b.IsDstring items) : b.cells.slice 0 b.length = some (items.map some) :=
  Block.slice_start (A := []) hb.stored rfl (by rw [List.length_map]; exact hb.length_eq)

theorem s2len_eq (hb : b.IsDstring items) : p.s2len b.length = (p.of items).length := by
  cases p with
  | chars s => rfl
  | self => exact hb.length_eq

theorem cells_eq (hb : b.IsDstring items) : p.cells b = some ((p.of items).map some) := by
  cases p with
  | chars s => rfl
  | self => exact hb.slice_all

/-- `ds_add`, of anything. -/
theorem dsAdd (hb : b.IsDstring items) (h : items.length + (p.of items).length + 1 < 2 ^ 31) :
    ∃ new, b.dsAdd p = some new ∧ new.IsDstring (items ++ p.of items) := by
  have hlen := hb.length_eq
  have hcheck : CInt.check (b.length + (p.of items).length + 1) = some (b.length + (p.of items).length + 1) :=
    CInt.check_eq_some.mpr ⟨⟨by omega, by omega⟩, rfl⟩
  have hsize : (b.length + (p.of items).length + 1).toNat = items.length + (p.of items).length + 1 := by
    omega
  have hfits : dstringSizing.unit * (items.length + (p.of items).length + 1) < 2 ^ 31 := by
    rw [show dstringSizing.unit = 1 from rfl, Nat.one_mul]
    exact h
  obtain ⟨buf, hwrite, hpre, hblen⟩ := write_malloc (n := items.length + (p.of items).length + 1) (items.map some)
    (by rw [List.length_map]; omega)
  obtain ⟨buf₁, buf₂, hwrite₁, hstore, hpre₂, hblen₂⟩ := Block.append_start (l := p.of items) hpre
    (by rw [hblen]; exact Nat.lt_succ_self _) hlen rfl 0
  unfold Buffer.dsAdd
  rw [hb.s2len_eq]
  dsimp only
  rw [hcheck, Option.bind_some, hsize, Sizing.malloc_eq hfits, Option.bind_some, hb.slice_all, Option.bind_some, hwrite,
    Option.bind_some, hb.cells_eq, Option.bind_some, hwrite₁, Option.bind_some, hstore, Option.map_some]
  refine ⟨_, rfl, ?_, hblen₂.trans hblen, hfits, hpre₂⟩
  show b.length + (p.of items).length = ((items ++ p.of items).length : Int)
  rw [List.length_append, hlen]
  rfl

/-- What `ds_ipadd` does with characters, that of the string itself only where it is or when there are none. -/
theorem dsAppend (hb : b.IsDstring items) (hgrows : Grows b (items.length + (p.of items).length + 1))
    (hself : p = .self → items = [] ∨ Stays moves b (items.length + (p.of items).length + 1)) :
    Does items (b.dsAppend (.enough moves) p) (some (items ++ p.of items)) := by
  have hlen := hb.length_eq
  obtain ⟨b₁, hset, hkeeps, hroom, -⟩ := setsize_served hb.keeps hgrows.served
    (by rw [List.length_append, List.length_singleton]; omega)
  have hitems : items.map some <+: b₁.cells := ((List.prefix_append ..).map some).trans hkeeps.stored
  obtain ⟨cells, cells', hwrite, hstore, hpre, hclen⟩ := Block.append_start (l := p.of items) hitems
    (by rw [hkeeps.maxlength_eq]; omega) (rfl : (items.length : Int) = items.length) rfl 0
  have hpiece := writePiece_end (p := p) (m := moved (.enough moves) b b₁) hitems
    fun heq => (hself heq).imp_right fun h => h.not_moved hset
  unfold Buffer.dsAppend
  rw [hb.s2len_eq, hlen]
  dsimp only
  rw [CInt.check_eq_some.mpr ⟨hgrows.inRange (by omega), rfl⟩, Option.bind_some, dsSetsize, hset, Option.bind_some,
    if_neg (lt_irrefl (0 : Int)), hpiece, hwrite,
    Option.bind_some, hstore, Option.map_some]
  refine .of_ok rfl ⟨?_, hkeeps.replace hclen hpre⟩
  show (items.length : Int) + (p.of items).length = ((items ++ p.of items).length : Int)
  rw [List.length_append]
  rfl

/-- Where there is memory, what is answered is done. -/
theorem dsSetIndex_ok {i : Int} {op2 : Value} {x : Xno} {b' : Buffer Byte}
    (h : b.dsSetIndex (.enough moves) X i op2 = some (x, b')) : x = Xno.ok := by
  unfold Buffer.dsSetIndex at h
  split at h
  · obtain ⟨size, -, h⟩ := Option.bind_eq_some_iff.mp h
    obtain ⟨r, hset, h⟩ := Option.bind_eq_some_iff.mp h
    have hzero : r.1 = 0 := setsize_enough hset
    rw [if_neg (by omega)] at h
    obtain ⟨cells, -, h⟩ := Option.bind_eq_some_iff.mp h
    obtain ⟨cells', -, h⟩ := Option.map_eq_some_iff.mp h
    exact (Prod.mk.inj h).1.symm
  · obtain ⟨cells, -, h⟩ := Option.map_eq_some_iff.mp h
    exact (Prod.mk.inj h).1.symm

theorem dsInsertAt_ok {i : Int} {x : Xno} {b' : Buffer Byte} (h : b.dsInsertAt (.enough moves) i p = some (x, b')) :
    x = Xno.ok := by
  obtain ⟨size, -, h⟩ := Option.bind_eq_some_iff.mp h
  obtain ⟨r, hset, h⟩ := Option.bind_eq_some_iff.mp h
  have hzero : r.1 = 0 := setsize_enough hset
  rw [if_neg (by omega)] at h
  obtain ⟨cells, -, h⟩ := Option.bind_eq_some_iff.mp h
  obtain ⟨cells', -, h⟩ := Option.map_eq_some_iff.mp h
  exact (Prod.mk.inj h).1.symm

/-- `ds_set_index`. -/
theorem dsSetIndex {i : Nat} {op2 : Value} (hb : b.IsDstring items) (h : i < items.length ∨ Grows b (i + 2)) :
    Does items (b.dsSetIndex (.enough moves) X i op2) (some (storeItem 0 items i (op2.byte X))) := by
  have hstores : StoresAt IsDstring 0 id items (.ok (op2.byte X)) (b.dsSetIndex (.enough moves) X i op2) i :=
    hb.storesAt_iff.mpr (h.imp_right fun hg => ⟨hg.inRange (by omega), .inl hg.served⟩)
  obtain ⟨x, b', hresult, hok, -⟩ := hstores
  obtain rfl := dsSetIndex_ok hresult
  obtain ⟨a, ha, hb'⟩ := hok rfl
  rw [List.map_id, ← Except.ok.inj ha] at hb'
  exact .of_ok hresult hb'

/-- `ds_insert`, at an index that is not behind the last character. -/
theorem dsInsertAt {i : Nat} (hb : b.IsDstring items) (hi : i ≤ items.length)
    (hgrows : Grows b (items.length + (p.of items).length + i + 1))
    (hself : p = .self → items = [] ∨ i = items.length ∧ Stays moves b (items.length + (p.of items).length + i + 1)) :
    Does items (b.dsInsertAt (.enough moves) i p) (some (insertItems 0 items i (p.of items))) := by
  have hinserts : Inserts (.enough moves) p i items b (items.length + (p.of items).length + i + 1) := by
    cases p with
    | chars s => trivial
    | self => exact hself rfl
  obtain ⟨x, b', hresult, -, hok, -⟩ := (hb.insertsAt_iff (M := .enough moves)).mpr
    ⟨hgrows.inRange (by omega), .inr ⟨hgrows.served, hi, hinserts⟩⟩
  obtain rfl := dsInsertAt_ok hresult
  obtain ⟨xs, hxs, hb'⟩ := hok rfl
  rw [← Except.ok.inj hxs] at hb'
  exact .of_ok hresult hb'

/-- `ds_ipadd`. -/
theorem dsIpadd {text : ObjId → Option Text} {eo : ObjId} {op1 : Value} (hb : b.IsDstring items)
    (hp : Piece.ofValue X text eo op1 = p) (hgrows : Grows b (items.length + (p.of items).length + 1))
    (hself : p = .self → items = [] ∨ Stays moves b (items.length + (p.of items).length + 1)) :
    Does items (b.dsIpadd (.enough moves) X text eo op1) (some (items ++ p.of items)) := by
  unfold Buffer.dsIpadd
  split
  · rw [hp]
    exact hb.dsAppend hgrows hself
  · rename_i hnone
    have hchars : p = .chars [op1.byte X] := by
      rw [← hp]
      unfold Piece.ofValue
      cases hobj : op1.obj? with
      | none => rfl
      | some o =>
        rw [hobj, Option.bind_some] at hnone
        rw [Option.bind_some, hnone]
        rfl
    subst hchars
    have hset : Does items (b.dsSetIndex (.enough moves) X items.length op1) _ := hb.dsSetIndex (.inr hgrows)
    rw [storeItem_of_le (Nat.le_refl _), Nat.sub_self, List.replicate_zero, List.append_nil] at hset
    rw [hb.length_eq]
    exact hset

/-- `eel_ds_write`. -/
theorem dsWrite {pos : Nat} {s : List Byte} (hb : b.IsDstring items) (hint : (pos : Int) + s.length < 2 ^ 31)
    (h : pos + s.length < items.length ∨ Grows b (pos + s.length + 1)) :
    Does items (b.dsWrite (.enough moves) pos s) (some (overwrite items pos s)) := by
  have hlen := hb.length_eq
  unfold Buffer.dsWrite
  rw [CInt.check_eq_some.mpr ⟨⟨by omega, hint⟩, rfl⟩, Option.bind_some]
  by_cases hlt : pos + s.length < items.length
  · rw [if_neg (by omega)]
    obtain ⟨cells, hwrite, hpre, hclen⟩ := Block.write_items (l := s) hb.keeps.stored (k := pos)
      (by rw [List.length_append]; omega) rfl
    rw [hwrite, Option.map_some]
    refine .of_ok rfl ⟨?_, hb.keeps.replace hclen ?_⟩
    · show b.length = ((overwrite items pos s).length : Int)
      unfold overwrite
      simp only [List.length_append, List.length_take, List.length_replicate, List.length_drop]
      omega
    · rw [List.take_append_of_le_length (by omega), List.drop_append_of_le_length (by omega), ← List.append_assoc] at hpre
      unfold overwrite
      rw [Nat.sub_eq_zero_of_le (by omega), List.replicate_zero, List.append_nil]
      exact hpre
  · have hgrows := h.resolve_left hlt
    have hserved : b.Served (.enough moves) dstringSizing (pos + s.length + 1) := hgrows.served
    obtain ⟨b₁, hset, hkeeps, hroom, -⟩ := setsize_served hb.keeps hserved
      (by rw [List.length_append, List.length_singleton]; omega)
    obtain ⟨k, hk⟩ : ∃ k : Nat, (b₁.maxlength : Int) - b.length = k := Int.eq_ofNat_of_zero_le (by omega)
    have hitems : items.map some <+: b₁.cells := ((List.prefix_append ..).map some).trans hkeeps.stored
    obtain ⟨cells, hfill, hpre, hclen⟩ := Block.fill_start hitems (k := k) (by rw [hkeeps.maxlength_eq]; omega) hlen hk
      (0 : Byte)
    -- zeros up to where the terminator is to be
    have hzeros : items ++ List.replicate (pos + s.length + 1 - items.length) 0 <+: items ++ List.replicate k (0 : Byte) := by
      rw [List.prefix_append_right_inj]
      obtain ⟨r, rfl⟩ : ∃ r, k = pos + s.length + 1 - items.length + r := Nat.exists_eq_add_of_le (by omega)
      exact ⟨List.replicate r 0, List.replicate_append_replicate ..⟩
    obtain ⟨cells', hwrite, hpre', hclen'⟩ := Block.write_items (l := s) ((hzeros.map some).trans hpre) (k := pos)
      (by rw [List.length_append, List.length_replicate]; omega) rfl
    rw [if_pos (by omega), CInt.check_eq_some.mpr ⟨hgrows.inRange (by omega), rfl⟩, Option.bind_some, dsSetsize, hset,
      Option.bind_some, if_neg (lt_irrefl (0 : Int)), hfill, Option.bind_some, hwrite, Option.map_some]
    refine .of_ok rfl ⟨?_, hkeeps.replace (hclen'.trans hclen) ?_⟩
    · show (pos : Int) + s.length = ((overwrite items pos s).length : Int)
      unfold overwrite
      simp only [List.length_append, List.length_take, List.length_replicate, List.length_drop]
      omega
    · have htake : (items ++ List.replicate (pos + s.length + 1 - items.length) 0).take pos =
          items.take pos ++ List.replicate (pos - items.length) (0 : Byte) := by
        rw [List.take_append, List.take_replicate, Nat.min_eq_left (by omega)]
      have hdrop : (items ++ List.replicate (pos + s.length + 1 - items.length) 0).drop (pos + s.length) =
          items.drop (pos + s.length) ++ [(0 : Byte)] := by
        have hone : pos + s.length + 1 - items.length - (pos + s.length - items.length) = 1 := by
          omega
        rw [List.drop_append, List.drop_replicate, hone]
        rfl
      rw [htake, hdrop, ← List.append_assoc] at hpre'
      exact hpre'

end Buffer.IsDstring

end Eel
