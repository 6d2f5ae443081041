-- SUMMARY: Copies of ranges of arrays, vectors, strings and dynamic strings, and the sums that are too large for their checks.
import Eel.Core.Buffer
import Eel.Core.StringPoolRun

/-!
# Copies of ranges

The operands of `copy` are a start and a length. All four classes check them in the same
way, with a sum of two `int`s. There is memory for what is copied.
-/

namespace Eel

/-- `eel_v2l`, as an `int`. -/
def Value.v2l (floor : BitVec 64 → BitVec 32) : Value → Int
  | .boolean v | .integer v | .classid v => v.toInt
  | .real bits => (floor bits).toInt
  | .nil | .objref _ | .weakref .. => 0

/-- The checks of a range of an object with `n` items. -/
def checkCopy (n start length : Int) : Option (Except Xno Unit) :=
  if start < 0 then some (.error Xno.lowIndex)
  else if n < start then some (.error Xno.highIndex)
  else if length < 0 then some (.error Xno.wrongIndex)
  else (CInt.check (start + length)).map fun last => if n < last then .error Xno.highIndex else .ok ()

/-- What the four functions have in common, for what the class makes of a range. -/
def copyRange {β : Type} (floor : BitVec 64 → BitVec 32) (n : Int) (op1 op2 : Value) (make : Int → Int → Option β) :
    Option (Except Xno β) :=
  let start := op1.v2l floor
  let length := op2.v2l floor
  (checkCopy n start length).bind fun
    | .error x => some (.error x)
    | .ok () => (make start length).map .ok

/-- `eel_malloc`, of so many items. -/
def Sizing.malloc (S : Sizing) (α : Type) (n : Nat) : Option (Block α) :=
  (S.bytes n).bind fun size => if size < 0 then none else some (List.replicate (size.toNat / S.unit) none)

namespace Buffer

variable (floor : BitVec 64 → BitVec 32)

/-- The loop of `a_copy`: `n` items from `start` on get to `i` and behind. -/
def cloneUp (src dst : Block Value) (start i : Int) : Nat → Option (Block Value)
  | 0 => some dst
  | n + 1 =>
    (src.load start).bind fun v => (dst.store i v.clone).bind fun dst => cloneUp src dst (start + 1) (i + 1) n

/-- What `a_copy` does with a range. -/
def aCopyRange (b : Buffer Value) (start length : Int) : Option (Buffer Value) :=
  (arraySizing.malloc Value length.toNat).bind fun values =>
    (cloneUp b.cells values start 0 length.toNat).map fun values => ⟨length, length.toNat, values⟩

/-- `a_copy`. -/
def aCopy (op1 op2 : Value) (b : Buffer Value) : Option (Except Xno (Buffer Value)) :=
  copyRange floor b.length op1 op2 b.aCopyRange

/-- What `v_copy` does with a range. -/
def vCopyRange (cls : VectorClass) (b : Buffer Item) (start length : Int) : Option (Buffer Item) :=
  (cls.sizing.malloc Item length.toNat).bind fun buffer =>
    (b.cells.slice start length).bind fun items =>
      (buffer.write 0 items).map fun buffer => ⟨length, length.toNat, buffer⟩

/-- `v_copy`. -/
def vCopy (cls : VectorClass) (op1 op2 : Value) (b : Buffer Item) : Option (Except Xno (Buffer Item)) :=
  copyRange floor b.length op1 op2 (b.vCopyRange cls)

/-- `ds_nnew`, of characters that there are. -/
def dsNnew (s : List (Option Byte)) : Option (Buffer Byte) :=
  (CInt.check (s.length + 1)).bind fun size =>
    (dstringSizing.malloc Byte size.toNat).bind fun buffer =>
      (buffer.write 0 s).bind fun buffer =>
        (buffer.store s.length 0).map fun buffer => ⟨s.length, size.toNat, buffer⟩

/-- What `ds_copy` does with a range. -/
def dsCopyRange (b : Buffer Byte) (start length : Int) : Option (Buffer Byte) :=
  (b.cells.slice start length).bind dsNnew

/-- `ds_copy`. -/
def dsCopy (op1 op2 : Value) (b : Buffer Byte) : Option (Except Xno (Buffer Byte)) :=
  copyRange floor b.length op1 op2 b.dsCopyRange

end Buffer

/-- The characters that `eel_ps_nnew` is called with. -/
def StringObj.chars (ps : StringObj) (start length : Int) : Option (List Byte) :=
  if 0 ≤ start ∧ 0 ≤ length ∧ start + length ≤ ps.buffer.length then
    some ((ps.buffer.drop start.toNat).take length.toNat)
  else none

/-- What `s_copy` does with a range. -/
def StringPool.sCopyRange (p : StringPool) (ps : StringObj) (start length : Int) : Option (ObjId × StringPool) :=
  (ps.chars start length).map p.nnew

/-- `s_copy`. -/
def StringPool.sCopy (floor : BitVec 64 → BitVec 32) (op1 op2 : Value) (p : StringPool) (ps : StringObj) :
    Option (Except Xno (ObjId × StringPool)) :=
  copyRange floor ps.length op1 op2 (p.sCopyRange ps)

/-! ## What copying is to do -/

/-- A range that is inside the object gives something new, and others an error. -/
def CopiesRange {β : Type} (n : Nat) (start length : Int) (result : Option (Except Xno β)) (P : β → Prop) : Prop :=
  if 0 ≤ start ∧ 0 ≤ length ∧ start + length ≤ n then ∃ new, result = some (.ok new) ∧ P new
  else ∃ x, x ≠ Xno.ok ∧ result = some (.error x)

/-- The items of a range. -/
def rangeOf {α : Type} (items : List α) (start length : Int) : List α := (items.drop start.toNat).take length.toNat

/-- The end of a range that starts inside the object is not an `int`. -/
def EndOverflows (n : Nat) (start length : Int) : Prop :=
  0 ≤ start ∧ start ≤ n ∧ 0 ≤ length ∧ 2 ^ 31 ≤ start + length

/-- A string is returned that has these characters, and `eo` has its own as before. -/
def StringPool.ReturnsBeside (p : StringPool) (eo : ObjId) (s : List Byte) (r : ObjId × StringPool) : Prop :=
  Returns r s ∧ ∃ ps ps', p.object eo = some ps ∧ r.2.object eo = some ps' ∧ ps'.bytes = ps.bytes ∧ ps'.length = ps.length

/-! ## The checks -/

section Checks

variable {β : Type} {floor : BitVec 64 → BitVec 32} {n : Nat} {v1 v2 : BitVec 32} {make : Int → Int → Option β}
  {P : β → Prop}

/-- A range inside the object is made, when its end is an `int`. -/
theorem copyRange_inside (h : 0 ≤ v1.toInt ∧ 0 ≤ v2.toInt ∧ v1.toInt + v2.toInt ≤ n)
    (hint : v1.toInt + v2.toInt < 2 ^ 31) :
    copyRange floor n (.integer v1) (.integer v2) make = (make v1.toInt v2.toInt).map .ok := by
  obtain ⟨h1, h2, hle⟩ := h
  have hcheck : CInt.check (v1.toInt + v2.toInt) = some (v1.toInt + v2.toInt) :=
    CInt.check_eq_some.mpr ⟨⟨by omega, hint⟩, rfl⟩
  have hok : checkCopy n v1.toInt v2.toInt = some (.ok ()) := by
    unfold checkCopy
    rw [if_neg (by omega), if_neg (by omega), if_neg (by omega), hcheck, Option.map_some, if_neg (by omega)]
  unfold copyRange
  dsimp only [Value.v2l]
  rw [hok]
  rfl

/-- A range that is not gets an error. -/
theorem copyRange_outside (h : ¬ (0 ≤ v1.toInt ∧ 0 ≤ v2.toInt ∧ v1.toInt + v2.toInt ≤ n))
    (hint : ¬ EndOverflows n v1.toInt v2.toInt) :
    ∃ x, x ≠ Xno.ok ∧ copyRange floor n (.integer v1) (.integer v2) make = some (.error x) := by
  have herror : ∃ x, x ≠ Xno.ok ∧ checkCopy n v1.toInt v2.toInt = some (.error x) := by
    unfold checkCopy
    split
    · exact ⟨Xno.lowIndex, by decide, rfl⟩
    · split
      · exact ⟨Xno.highIndex, by decide, rfl⟩
      · split
        · exact ⟨Xno.wrongIndex, by decide, rfl⟩
        · have hlt : v1.toInt + v2.toInt < 2 ^ 31 :=
            Int.not_le.mp fun hge => hint ⟨by omega, by omega, by omega, hge⟩
          have hcheck : CInt.check (v1.toInt + v2.toInt) = some (v1.toInt + v2.toInt) :=
            CInt.check_eq_some.mpr ⟨⟨by omega, hlt⟩, rfl⟩
          rw [hcheck, Option.map_some, if_pos (by omega)]
          exact ⟨Xno.highIndex, by decide, rfl⟩
  obtain ⟨x, hx, hcheck⟩ := herror
  refine ⟨x, hx, ?_⟩
  unfold copyRange
  dsimp only [Value.v2l]
  rw [hcheck]
  rfl

/-- When the end is no `int`, the check has no result. -/
theorem copyRange_overflow (h : EndOverflows n v1.toInt v2.toInt) :
    copyRange floor n (.integer v1) (.integer v2) make = none := by
  obtain ⟨h1, hn, h2, hge⟩ := h
  have hcheck : CInt.check (v1.toInt + v2.toInt) = none := CInt.check_eq_none.mpr fun hr => by
    have := hr.2
    omega
  unfold copyRange checkCopy
  dsimp only [Value.v2l]
  rw [if_neg (by omega), if_neg (by omega), if_neg (by omega), hcheck]
  rfl

/-- A copy is right where the class makes what it is to make, and the end of the range is an `int`. -/
theorem copiesRange_iff {Q : Prop}
    (hmake : 0 ≤ v1.toInt → 0 ≤ v2.toInt → v1.toInt + v2.toInt ≤ n →
      ∃ new, make v1.toInt v2.toInt = some new ∧ (P new ↔ Q)) :
    CopiesRange n v1.toInt v2.toInt (copyRange floor n (.integer v1) (.integer v2) make) P ↔
      ¬ EndOverflows n v1.toInt v2.toInt ∧
        (0 ≤ v1.toInt ∧ 0 ≤ v2.toInt ∧ v1.toInt + v2.toInt ≤ n → Q) := by
  unfold CopiesRange
  by_cases hover : EndOverflows n v1.toInt v2.toInt
  · refine iff_of_false ?_ fun h => h.1 hover
    rw [copyRange_overflow hover]
    split
    · exact fun ⟨_, h, _⟩ => nomatch h
    · exact fun ⟨_, _, h⟩ => nomatch h
  rw [and_iff_right hover]
  split
  · rename_i hin
    have hint : v1.toInt + v2.toInt < 2 ^ 31 :=
      Int.not_le.mp fun hge => hover ⟨hin.1, by omega, hin.2.1, hge⟩
    obtain ⟨new, hnew, hP⟩ := hmake hin.1 hin.2.1 hin.2.2
    rw [copyRange_inside hin hint, hnew, Option.map_some]
    constructor
    · rintro ⟨new', heq, hnew'⟩ -
      obtain rfl := Except.ok.inj (Option.some.inj heq)
      exact hP.mp hnew'
    · intro hQ
      exact ⟨new, rfl, hP.mpr (hQ hin)⟩
  · rename_i hout
    exact iff_of_true (copyRange_outside hout hover) fun hin => absurd hin hout

/-- A class that makes what it is to make leaves the end of the range as the only condition. -/
theorem copiesRange_iff_of_makes (hmake : 0 ≤ v1.toInt → 0 ≤ v2.toInt → v1.toInt + v2.toInt ≤ n →
      ∃ new, make v1.toInt v2.toInt = some new ∧ P new) :
    CopiesRange n v1.toInt v2.toInt (copyRange floor n (.integer v1) (.integer v2) make) P ↔
      ¬ EndOverflows n v1.toInt v2.toInt := by
  rw [copiesRange_iff (Q := True) fun h1 h2 hle => ?_, and_iff_left fun _ => trivial]
  obtain ⟨new, hnew, hP⟩ := hmake h1 h2 hle
  exact ⟨new, hnew, iff_of_true hP trivial⟩

end Checks

/-! ## What the classes make of a range -/

theorem Sizing.malloc_eq {S : Sizing} {α : Type} {n : Nat} (h : S.unit * n < 2 ^ 31) :
    S.malloc α n = some (List.replicate n none) := by
  unfold malloc
  rw [S.bytes_exact n h, Option.bind_some, if_neg (by omega), Int.toNat_natCast, Nat.mul_div_cancel_left n S.unit_pos]

section Ranges

variable {α : Type} {items : List α} {cells : Block α} {start length : Int}

theorem length_rangeOf (h : 0 ≤ start ∧ 0 ≤ length ∧ start + length ≤ items.length) :
    (rangeOf items start length).length = length.toNat := by
  unfold rangeOf
  rw [List.length_take_of_le]
  rw [List.length_drop]
  omega

theorem slice_items (hpre : items.map some <+: cells) (h : 0 ≤ start ∧ 0 ≤ length ∧ start + length ≤ items.length) :
    cells.slice start length = some ((rangeOf items start length).map some) := by
  refine Block.slice_start (A := (items.take start.toNat).map some) ?_ ?_ ?_
  · refine List.IsPrefix.trans ?_ hpre
    rw [← List.map_append, rangeOf, ← List.take_add]
    exact (List.take_prefix ..).map some
  · rw [List.length_map, List.length_take_of_le (by omega)]
    omega
  · rw [List.length_map, length_rangeOf h]
    omega

/-- A new block that is written from its start. -/
theorem write_malloc {n : Nat} (s : List (Option α)) (h : s.length ≤ n) :
    ∃ b, Block.write (List.replicate n none) 0 s = some b ∧ s <+: b ∧ b.length = n := by
  have hcells : [] ++ List.replicate s.length (none : Option α) ++ List.replicate (n - s.length) none <+:
      List.replicate n none := by
    refine ⟨[], ?_⟩
    rw [List.append_nil, List.nil_append, List.replicate_append_replicate, Nat.add_sub_cancel' h]
  obtain ⟨b, hwrite, hpre, hlen⟩ := Block.write_start hcells (rfl : (0 : Int) = 0) (List.length_replicate ..).symm
  rw [List.nil_append] at hpre
  exact ⟨b, hwrite, (List.prefix_append ..).trans hpre, hlen.trans (List.length_replicate ..)⟩

end Ranges

namespace Buffer

variable {floor : BitVec 64 → BitVec 32} {start length : Int}

/-- The clones of some items get behind those that are there. -/
theorem cloneUp_spec {src dst : Block Value} {items done : List Value} {i : Int} {n : Nat} (hsrc : items.map some <+: src)
    (hdst : done.map some <+: dst) (hi : i = done.length) (hroom : done.length + n ≤ dst.length) (h0 : 0 ≤ start)
    (hn : start + n ≤ items.length) :
    ∃ dst', cloneUp src dst start i n = some dst' ∧
      (done ++ (rangeOf items start n).map Value.clone).map some <+: dst' ∧ dst'.length = dst.length := by
  induction n generalizing dst done start i with
  | zero =>
    refine ⟨dst, rfl, ?_, rfl⟩
    have hnil : rangeOf items start ((0 : Nat) : Int) = [] := List.take_zero
    rw [hnil, List.map_nil, List.append_nil]
    exact hdst
  | succ n ih =>
    have hlt : start.toNat < items.length := by
      omega
    obtain ⟨dst₁, hstore, hpre, hlen⟩ := Block.push_start hdst (by omega) hi items[start.toNat].clone
    have hdone : (done ++ [items[start.toNat].clone]).length = done.length + 1 := List.length_append
    have hi' : i + 1 = ((done ++ [items[start.toNat].clone]).length : Int) := by
      omega
    have hstart : 0 ≤ start + 1 := by
      omega
    obtain ⟨dst₂, hclone, hpre₂, hlen₂⟩ := ih hpre hi' (by omega) hstart (by omega)
    refine ⟨dst₂, ?_, ?_, hlen₂.trans hlen⟩
    · show (src.load start).bind _ = _
      rw [Block.load_item hsrc hlt (Int.toNat_of_nonneg h0).symm, Option.bind_some, hstore, Option.bind_some]
      exact hclone
    · have hrange : rangeOf items start ((n + 1 : Nat) : Int) = items[start.toNat] :: rangeOf items (start + 1) n := by
        have hnext : (start + 1).toNat = start.toNat + 1 := by
          omega
        unfold rangeOf
        rw [List.drop_eq_getElem_cons hlt, Int.toNat_natCast, List.take_succ_cons, Int.toNat_natCast, hnext]
      rw [hrange, List.map_cons, List.append_cons]
      exact hpre₂

/-- What `a_copy` makes. -/
theorem IsArray.makes {items : List Value} {b : Buffer Value} (hb : b.IsArray items)
    (h : 0 ≤ start ∧ 0 ≤ length ∧ start + length ≤ items.length) :
    ∃ new, b.aCopyRange start length = some new ∧ new.IsArray ((rangeOf items start length).map Value.clone) := by
  have hfits : arraySizing.unit * length.toNat < 2 ^ 31 :=
    Nat.lt_of_le_of_lt (Nat.mul_le_mul_left _ (by have := hb.keeps.length_le; omega)) hb.keeps.fits
  have hnat : length = (length.toNat : Int) := by
    omega
  have hnew : ([] : List Value).map some <+: List.replicate length.toNat none := List.nil_prefix
  obtain ⟨values, hclone, hpre, hlen⟩ := cloneUp_spec (i := 0) (n := length.toNat) hb.keeps.stored hnew rfl
    (by rw [List.length_replicate]; exact (Nat.zero_add _).le) h.1 (by omega)
  rw [List.length_replicate] at hlen
  rw [List.nil_append, ← hnat] at hpre
  rw [aCopyRange, Sizing.malloc_eq hfits, Option.bind_some, hclone, Option.map_some]
  refine ⟨_, rfl, ?_, ⟨hlen, hfits, hpre⟩⟩
  rw [List.length_map, length_rangeOf h]
  exact hnat

/-- What `v_copy` makes. -/
theorem IsVector.makes {cls : VectorClass} {items : List Item} {b : Buffer Item} (hb : b.IsVector cls items)
    (h : 0 ≤ start ∧ 0 ≤ length ∧ start + length ≤ items.length) :
    ∃ new, b.vCopyRange cls start length = some new ∧ new.IsVector cls (rangeOf items start length) := by
  have hfits : cls.sizing.unit * length.toNat < 2 ^ 31 :=
    Nat.lt_of_le_of_lt (Nat.mul_le_mul_left _ (by have := hb.keeps.length_le; omega)) hb.keeps.fits
  have hlength := length_rangeOf h
  obtain ⟨buffer, hwrite, hpre, hlen⟩ := write_malloc (n := length.toNat) ((rangeOf items start length).map some)
    (by rw [List.length_map, hlength])
  rw [vCopyRange, Sizing.malloc_eq hfits, Option.bind_some, slice_items hb.keeps.stored h, Option.bind_some, hwrite, Option.map_some]
  refine ⟨_, rfl, ?_, ⟨hlen, hfits, hpre⟩⟩
  rw [hlength]
  exact (Int.toNat_of_nonneg h.2.1).symm

/-- `ds_nnew` puts a terminator behind the characters. -/
theorem dsNnew_spec {s : List Byte} (h : s.length + 1 < 2 ^ 31) :
    ∃ new, dsNnew (s.map some) = some new ∧ new.IsDstring s := by
  have hcheck : CInt.check ((s.length : Int) + 1) = some ((s.length : Int) + 1) :=
    CInt.check_eq_some.mpr ⟨⟨by omega, by omega⟩, rfl⟩
  have hsize : ((s.length : Int) + 1).toNat = s.length + 1 := by
    omega
  have hfits : dstringSizing.unit * (s.length + 1) < 2 ^ 31 := by
    rw [show dstringSizing.unit = 1 from rfl, Nat.one_mul]
    exact h
  obtain ⟨buffer, hwrite, hpre, hlen⟩ := write_malloc (n := s.length + 1) (s.map some)
    (by rw [List.length_map]; exact Nat.le_succ _)
  obtain ⟨buffer', hstore, hpre', hlen'⟩ := Block.push_start (i := s.length) hpre (by rw [hlen]; exact Nat.lt_succ_self _)
    rfl 0
  unfold dsNnew
  rw [List.length_map, hcheck, Option.bind_some, hsize, Sizing.malloc_eq hfits, Option.bind_some, hwrite,
    Option.bind_some, hstore, Option.map_some]
  exact ⟨_, rfl, rfl, hlen'.trans hlen, hfits, hpre'⟩

/-- What `ds_copy` makes. -/
theorem IsDstring.makes {items : List Byte} {b : Buffer Byte} (hb : b.IsDstring items)
    (h : 0 ≤ start ∧ 0 ≤ length ∧ start + length ≤ items.length) :
    ∃ new, b.dsCopyRange start length = some new ∧ new.IsDstring (rangeOf items start length) := by
  have hstored : items.map some <+: b.cells := ((List.prefix_append ..).map some).trans hb.keeps.stored
  rw [dsCopyRange, slice_items hstored h, Option.bind_some]
  refine dsNnew_spec ?_
  have hle := hb.keeps.length_le
  have hlt := hb.keeps.maxlength_lt
  rw [List.length_append, List.length_singleton] at hle
  rw [length_rangeOf h]
  omega

end Buffer

namespace StringPool

variable {p : StringPool} {eo : ObjId} {ps : StringObj} {s : List Byte} {start length : Int}

/-- A request leaves the characters of the strings that there are. -/
theorem Inv.nnew_object (h : p.Inv) (hps : p.object eo = some ps) :
    ∃ ps', (p.nnew s).2.object eo = some ps' ∧ ps'.bytes = ps.bytes ∧ ps'.length = ps.length := by
  unfold StringPool.nnew
  cases hf : p.find s with
  | none =>
    have hne : eo ≠ p.next := fun heq => by
      rw [h.pooled.fresh eo (Nat.le_of_eq heq.symm)] at hps
      cases hps
    refine ⟨ps, ?_, rfl, rfl⟩
    rw [create_object, if_neg hne]
    exact hps
  | some o =>
    dsimp only
    have hobject : (p.resurrect o).object eo = (p.own o).object eo := by
      unfold StringPool.resurrect
      split <;> rfl
    rw [hobject, StringPool.own, modify_object]
    split
    · rw [hps]
      exact ⟨_, rfl, rfl, rfl⟩
    · exact ⟨ps, hps, rfl, rfl⟩

/-- What `s_copy` makes is the string, unless another is found for it. -/
theorem Inv.makes (h : p.Inv) (hps : p.object eo = some ps)
    (hin : 0 ≤ start ∧ 0 ≤ length ∧ start + length ≤ ps.length) :
    ∃ new, p.sCopyRange ps start length = some new ∧
      (p.ReturnsBeside eo (rangeOf ps.bytes start length) new ↔ ¬ p.HasConflated (rangeOf ps.bytes start length)) := by
  have hbuffer : ps.length ≤ ps.buffer.length := by
    have hwf := h.pooled.wf eo ps hps
    rw [hwf.buffer_eq, List.length_append, hwf.length_eq]
    exact Nat.le_add_right ..
  have hchars : ps.chars start length = some (rangeOf ps.bytes start length) := by
    unfold StringObj.chars rangeOf StringObj.bytes
    rw [if_pos (by omega), List.drop_take, List.take_take, Nat.min_eq_left (by omega)]
  rw [sCopyRange, hchars, Option.map_some]
  refine ⟨_, rfl, ?_⟩
  obtain ⟨ps', hps', hbytes, hlen⟩ := h.nnew_object (s := rangeOf ps.bytes start length) hps
  rw [← h.nnew_returns_iff]
  exact ⟨fun hr => hr.1, fun hr => ⟨hr, ps, ps', hps, hps', hbytes, hlen⟩⟩

end StringPool

/-! ## Copies of ranges -/

namespace Buffer

variable {floor : BitVec 64 → BitVec 32} {v1 v2 : BitVec 32}

theorem IsArray.aCopy_iff {items : List Value} {b : Buffer Value} (hb : b.IsArray items) :
    CopiesRange items.length v1.toInt v2.toInt (b.aCopy floor (.integer v1) (.integer v2))
        (IsArray ((rangeOf items v1.toInt v2.toInt).map Value.clone)) ↔
      ¬ EndOverflows items.length v1.toInt v2.toInt := by
  unfold aCopy
  rw [hb.length_eq]
  exact copiesRange_iff_of_makes fun h1 h2 hle => hb.makes ⟨h1, h2, hle⟩

theorem IsVector.vCopy_iff {cls : VectorClass} {items : List Item} {b : Buffer Item} (hb : b.IsVector cls items) :
    CopiesRange items.length v1.toInt v2.toInt (b.vCopy floor cls (.integer v1) (.integer v2))
        (IsVector cls (rangeOf items v1.toInt v2.toInt)) ↔
      ¬ EndOverflows items.length v1.toInt v2.toInt := by
  unfold vCopy
  rw [hb.length_eq]
  exact copiesRange_iff_of_makes fun h1 h2 hle => hb.makes ⟨h1, h2, hle⟩

theorem IsDstring.dsCopy_iff {items : List Byte} {b : Buffer Byte} (hb : b.IsDstring items) :
    CopiesRange items.length v1.toInt v2.toInt (b.dsCopy floor (.integer v1) (.integer v2))
        (IsDstring (rangeOf items v1.toInt v2.toInt)) ↔
      ¬ EndOverflows items.length v1.toInt v2.toInt := by
  unfold dsCopy
  rw [hb.length_eq]
  exact copiesRange_iff_of_makes fun h1 h2 hle => hb.makes ⟨h1, h2, hle⟩

end Buffer

/-- Copies are as they are to be unless the end of the range is not an `int`, or the string that
is wanted is taken for another. -/
theorem copies_iff (floor : BitVec 64 → BitVec 32) (v1 v2 : BitVec 32) :
    let start := v1.toInt
    let length := v2.toInt
    (∀ items b, Buffer.IsArray items b →
      (CopiesRange items.length start length (b.aCopy floor (.integer v1) (.integer v2))
          (Buffer.IsArray ((rangeOf items start length).map Value.clone)) ↔
        ¬ EndOverflows items.length start length)) ∧
    (∀ cls items b, Buffer.IsVector cls items b →
      (CopiesRange items.length start length (b.vCopy floor cls (.integer v1) (.integer v2))
          (Buffer.IsVector cls (rangeOf items start length)) ↔
        ¬ EndOverflows items.length start length)) ∧
    (∀ items b, Buffer.IsDstring items b →
      (CopiesRange items.length start length (b.dsCopy floor (.integer v1) (.integer v2))
          (Buffer.IsDstring (rangeOf items start length)) ↔
        ¬ EndOverflows items.length start length)) ∧
    ∀ ops eo ps, let p := (Machine.run StringPool.step StringPool.open ops).2
      p.object eo = some ps →
      (CopiesRange ps.length start length (p.sCopy floor (.integer v1) (.integer v2) ps)
          (p.ReturnsBeside eo (rangeOf ps.bytes start length)) ↔
        ¬ EndOverflows ps.length start length ∧
          (0 ≤ start ∧ 0 ≤ length ∧ start + length ≤ ps.length →
            ¬ p.HasConflated (rangeOf ps.bytes start length))) := by
  intro start length
  refine ⟨fun items b hb => hb.aCopy_iff, fun cls items b hb => hb.vCopy_iff, fun items b hb => hb.dsCopy_iff,
    fun ops eo ps => ?_⟩
  intro p hps
  exact copiesRange_iff fun h1 h2 hle => (StringPool.Inv.run ops).makes hps ⟨h1, h2, hle⟩

/-- The last two of three items of a vector. -/
theorem copies_last_two :
    let b : Buffer Item := ⟨3, 4, [some 5, some 6, some 7, none]⟩
    b.IsVector .u8 [5, 6, 7] ∧
      CopiesRange 3 1 2 (b.vCopy (fun _ => 0) .u8 (.integer 1) (.integer 2)) (Buffer.IsVector .u8 [6, 7]) := by
  intro b
  have hb : b.IsVector .u8 [5, 6, 7] := ⟨rfl, rfl, by decide, ⟨[none], rfl⟩⟩
  exact ⟨hb, ((copies_iff (fun _ => 0) 1 2).2.1 .u8 _ b hb).mpr fun h => absurd h.2.2.2 (by decide)⟩

/-- From the end of a vector on, there are no 2147483647 items, but the sum is too large for the test. -/
theorem not_copies_overflow :
    let b : Buffer Item := ⟨1, 1, [some 5]⟩
    let result := b.vCopy (fun _ => 0) .u8 (.integer 1) (.integer 2147483647)
    b.IsVector .u8 [5] ∧ result = none ∧
      ¬ CopiesRange 1 1 2147483647 result (Buffer.IsVector .u8 (rangeOf [5] 1 2147483647)) := by
  intro b result
  have hnone : result = none := rfl
  refine ⟨⟨rfl, rfl, by decide, List.prefix_rfl⟩, hnone, ?_⟩
  rw [hnone, CopiesRange, if_neg (by decide)]
  rintro ⟨x, -, h⟩
  cases h

end Eel
