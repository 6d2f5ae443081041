-- SUMMARY: The operator `in` on strings and dynamic strings: the search for a character or a string, and where it is right.
import Eel.Core.Value
import Mathlib.Algebra.Group.Nat.Defs

/-!
# Searching strings

Strings and dynamic strings are searched by the same functions. Lengths are `int`s.
-/

namespace Eel

/-- What an object with characters holds. -/
inductive Text where
  | string (buffer : List Byte)
  | dstring (buffer : List Byte)

def Text.buffer : Text → List Byte
  | string buffer | dstring buffer => buffer

/-! ## The search -/

/-- An index, or `false`. -/
def foundAt : Option Nat → Value
  | some i => .integer (BitVec.ofNat 32 i)
  | none => .boolean 0

/-- `eel_s_char_in`. -/
def sCharIn (str : List Byte) (c : BitVec 32) : Value := foundAt (str.findIdx? (· = c.setWidth 8))

/-- The inner loop of `eel_s_str_in` gets to the end of `str2`. -/
def sameAt (str str2 : List Byte) (i : Nat) : Bool :=
  (List.range str2.length).all fun j => str[i + j]? = str2[j]?

/-- `eel_s_str_in`. -/
def sStrIn (str str2 : List Byte) : Value :=
  if str2.length ≤ str.length then
    foundAt ((List.range (str.length - str2.length)).find? (sameAt str str2))
  else foundAt none

/-! ## The metamethods -/

section Metamethods

variable (text : ObjId → Option Text) (floor : BitVec 64 → BitVec 32) (eo : ObjId)

/-- `s_in`. -/
def sIn (buffer : List Byte) (op1 : Value) : Except Xno Value :=
  match op1 with
  | .boolean v | .integer v | .classid v => .ok (sCharIn buffer v)
  | .real bits => .ok (sCharIn buffer (floor bits))
  | .objref o | .weakref o _ =>
    match text o with
    | some (.string buffer2) => .ok (if o = eo then .integer 0 else sStrIn buffer buffer2)
    | some (.dstring buffer2) => .ok (sStrIn buffer buffer2)
    | none => .error Xno.wrongType
  | .nil => .error Xno.wrongType

/-- `ds_in`. -/
def dsIn (buffer : List Byte) (op1 : Value) : Except Xno Value :=
  match op1 with
  | .boolean v | .integer v | .classid v => .ok (sCharIn buffer v)
  | .real bits => .ok (sCharIn buffer (floor bits))
  | .objref o | .weakref o _ =>
    match text o with
    | some (.string buffer2) => .ok (sStrIn buffer buffer2)
    | some (.dstring buffer2) => .ok (if o = eo then .integer 0 else sStrIn buffer buffer2)
    | none => .error Xno.wrongType
  | .nil => .error Xno.wrongType

/-- `eel_op_in`, on an object with characters. -/
def opInText (t : Text) (v : Value) : Except Xno Value := do
  let r ←
    match t with
    | .string buffer => sIn text floor eo buffer v
    | .dstring buffer => dsIn text floor eo buffer v
  match r with
  | .integer _ => return .boolean 1
  | r => return r

end Metamethods

/-! ## What is searched for -/

section Search

variable {α : Type} {str str2 : List α} {i : Nat}

/-- `str2` is in `str` at `i`. -/
def OccursAt (str str2 : List α) (i : Nat) : Prop := (str.drop i).take str2.length = str2

/-- It is there, and nowhere before. -/
def FirstAt (str str2 : List α) (i : Nat) : Prop := OccursAt str str2 i ∧ ∀ k < i, ¬ OccursAt str str2 k

instance [DecidableEq α] : Decidable (OccursAt str str2 i) := inferInstanceAs (Decidable (_ = _))

theorem occursAt_iff :
    OccursAt str str2 i ↔ ∀ j < str2.length, str[i + j]? = str2[j]? := by
  unfold OccursAt
  constructor
  · intro hocc j hj
    have hget := congrArg (fun l : List α => l[j]?) hocc
    simp only [List.getElem?_take, if_pos hj, List.getElem?_drop] at hget
    exact hget
  · intro hget
    apply List.ext_getElem?
    intro j
    rw [List.getElem?_take]
    split
    · rename_i hj
      rw [List.getElem?_drop]
      exact hget j hj
    · rename_i hj
      exact (List.getElem?_eq_none (Nat.le_of_not_lt hj)).symm

/-- There is room for what occurs. -/
theorem OccursAt.le (h : OccursAt str str2 i) (hne : str2 ≠ []) : i + str2.length ≤ str.length := by
  have hlen := congrArg List.length h
  rw [List.length_take, List.length_drop] at hlen
  have hpos := List.length_pos_iff.mpr hne
  omega

/-- What occurs at the end is a suffix. -/
theorem occursAt_end (h : str2.length ≤ str.length) :
    OccursAt str str2 (str.length - str2.length) ↔ str2 <:+ str := by
  unfold OccursAt
  rw [List.take_of_length_le (by rw [List.length_drop]; omega), eq_comm]
  exact List.suffix_iff_eq_drop.symm

end Search

section Strings

variable {str str2 : List Byte} {i : Nat}

theorem sameAt_iff : sameAt str str2 i = true ↔ OccursAt str str2 i := by
  rw [occursAt_iff]
  simp only [sameAt, List.all_eq_true, List.mem_range, decide_eq_true_eq]

/-- `str2` is in `str`, but only at its end. -/
def OnlyAtEnd (str str2 : List Byte) : Prop :=
  str2 <:+ str ∧ ∀ i < str.length - str2.length, ¬ OccursAt str str2 i

/-- The first place, if it is not the last one there is. -/
theorem find_eq_some :
    (List.range (str.length - str2.length)).find? (sameAt str str2) = some i ↔
      i < str.length - str2.length ∧ FirstAt str str2 i := by
  rw [List.find?_range_eq_some]
  constructor
  · rintro ⟨hi, hmem, hno⟩
    have hlt := List.mem_range.mp hmem
    refine ⟨hlt, sameAt_iff.mp hi, fun k hk hocc => ?_⟩
    have hnot := hno k hk
    rw [sameAt_iff.mpr hocc] at hnot
    cases hnot
  · rintro ⟨hlt, hocc, hno⟩
    refine ⟨sameAt_iff.mpr hocc, List.mem_range.mpr hlt, fun k hk => ?_⟩
    cases hk' : sameAt str str2 k with
    | false => rfl
    | true => exact absurd (sameAt_iff.mp hk') (hno k hk)

theorem find_eq_none :
    (List.range (str.length - str2.length)).find? (sameAt str str2) = none ↔
      ∀ i < str.length - str2.length, ¬ OccursAt str str2 i := by
  rw [List.find?_range_eq_none]
  refine forall_congr' fun k => forall_congr' fun hk => ?_
  rw [← sameAt_iff]
  cases sameAt str str2 k <;> simp

/-- The search finds the first place, and there is none if it finds none. -/
def Finds (str str2 : List Byte) : Prop :=
  (∀ v : BitVec 32, sStrIn str str2 = .integer v ↔ FirstAt str str2 v.toNat) ∧
    (sStrIn str str2 = .boolean 0 ↔ ∀ i, ¬ OccursAt str str2 i)

/-- The operator does not depend on which of the two classes its operands are of, or on
whether they are one object. -/
def Uniform (str str2 : List Byte) : Prop :=
  ∀ (text text' : ObjId → Option Text) (floor : BitVec 64 → BitVec 32) (eo eo' o o' : ObjId) (t t' t2 t2' : Text),
    text eo = some t → t.buffer = str → text o = some t2 → t2.buffer = str2 →
    text' eo' = some t' → t'.buffer = str → text' o' = some t2' → t2'.buffer = str2 →
      opInText text floor eo t (.objref o) = opInText text' floor eo' t' (.objref o')

theorem foundAt_eq_integer {n : Option Nat} {v : BitVec 32} (hn : ∀ i ∈ n, i < 2 ^ 32) :
    foundAt n = .integer v ↔ n = some v.toNat := by
  cases n with
  | none =>
    constructor
    · intro h
      cases h
    · intro h
      cases h
  | some i =>
    have hi := hn i rfl
    constructor
    · intro h
      cases h
      rw [BitVec.toNat_ofNat, Nat.mod_eq_of_lt hi]
    · intro h
      rw [Option.some.inj h]
      show Value.integer (BitVec.ofNat 32 v.toNat) = .integer v
      rw [BitVec.ofNat_toNat, BitVec.setWidth_eq]

theorem foundAt_eq_boolean {n : Option Nat} : foundAt n = .boolean 0 ↔ n = none := by
  cases n with
  | none => exact iff_of_true rfl rfl
  | some i =>
    constructor
    · intro h
      cases h
    · intro h
      cases h

/-- What is not found. -/
theorem sStrIn_eq_false (hle : str2.length ≤ str.length) :
    sStrIn str str2 = .boolean 0 ↔ ∀ i < str.length - str2.length, ¬ OccursAt str str2 i := by
  unfold sStrIn
  rw [if_pos hle, foundAt_eq_boolean, find_eq_none]

theorem finds_iff (hne : str2 ≠ []) (hlen : str.length < 2 ^ 31) : Finds str str2 ↔ ¬ OnlyAtEnd str str2 := by
  constructor
  · rintro ⟨-, hnone⟩ ⟨hsuffix, hno⟩
    have hle := hsuffix.length_le
    have hend := (occursAt_end hle).mpr hsuffix
    exact hnone.mp ((sStrIn_eq_false hle).mpr hno) _ hend
  · intro hend
    by_cases hle : str2.length ≤ str.length
    · -- What occurs at all occurs before the end, too.
      have hbefore : ∀ i, FirstAt str str2 i → i < str.length - str2.length := by
        intro i hi
        have hi' := hi.1.le hne
        by_contra hge
        obtain rfl : i = str.length - str2.length := by omega
        exact hend ⟨(occursAt_end hle).mp hi.1, hi.2⟩
      constructor
      · intro v
        unfold sStrIn
        rw [if_pos hle, foundAt_eq_integer]
        · rw [find_eq_some]
          exact ⟨fun h => h.2, fun h => ⟨hbefore _ h, h⟩⟩
        · intro i hi
          have := (find_eq_some.mp hi).1
          omega
      · rw [sStrIn_eq_false hle]
        constructor
        · intro hno i hocc
          by_cases hi : i < str.length - str2.length
          · exact hno i hi hocc
          · have hi' := hocc.le hne
            obtain rfl : i = str.length - str2.length := by omega
            exact hend ⟨(occursAt_end hle).mp hocc, hno⟩
        · intro hno i _
          exact hno i
    · have hno : ∀ i, ¬ OccursAt str str2 i := by
        intro i hocc
        have := hocc.le hne
        omega
      have hfalse : sStrIn str str2 = .boolean 0 := if_neg hle
      constructor
      · intro v
        rw [hfalse]
        exact iff_of_false (fun h => nomatch h) fun h => hno _ h.1
      · exact iff_of_true hfalse hno

/-- A string is in itself at its end. -/
theorem onlyAtEnd_self : OnlyAtEnd str str := by
  refine ⟨List.suffix_rfl, fun i hi => ?_⟩
  rw [Nat.sub_self] at hi
  exact absurd hi (Nat.not_lt_zero i)

theorem uniform_of_not_onlyAtEnd (hend : ¬ OnlyAtEnd str str2) : Uniform str str2 := by
  have hin : ∀ (text : ObjId → Option Text) floor (eo o : ObjId) (t t2 : Text), text eo = some t →
      t.buffer = str → text o = some t2 → t2.buffer = str2 →
        opInText text floor eo t (.objref o) =
          (match sStrIn str str2 with
          | .integer _ => .ok (.boolean 1)
          | r => .ok r) := by
    intro text floor eo o t t2 ht hstr ht2 hstr2
    have hne : o ≠ eo := by
      rintro rfl
      obtain rfl := Option.some.inj (ht.symm.trans ht2)
      exact hend (hstr ▸ hstr2 ▸ onlyAtEnd_self)
    subst hstr
    subst hstr2
    cases t <;> cases t2 <;> simp only [opInText, sIn, dsIn, ht2, if_neg hne] <;> rfl
  intro text text' floor eo eo' o o' t t' t2 t2' h1 h2 h3 h4 h5 h6 h7 h8
  rw [hin text floor eo o t t2 h1 h2 h3 h4, hin text' floor eo' o' t' t2' h5 h6 h7 h8]

/-- The search is right, and the operator the same for both classes, just when the string is
not at the end alone. -/
theorem finds_uniform_iff (hne : str2 ≠ []) (hlen : str.length < 2 ^ 31) :
    Finds str str2 ∧ Uniform str str2 ↔ ¬ OnlyAtEnd str str2 := by
  constructor
  · rintro ⟨hfinds, -⟩
    exact (finds_iff hne hlen).mp hfinds
  · intro hend
    exact ⟨(finds_iff hne hlen).mpr hend, uniform_of_not_onlyAtEnd hend⟩

end Strings

/-- `"a"` is found in `"aba"`, at the beginning. -/
theorem finds_first : Finds [97, 98, 97] [97] ∧ Uniform [97, 98, 97] [97] :=
  (finds_uniform_iff (by decide) (by decide)).mpr fun h => h.2 0 (by decide) (by decide)

/-- `"b"` is not found in `"ab"`. -/
theorem not_finds_last : ¬ Finds [97, 98] [98] := by
  intro h
  exact h.2.mp rfl 1 (by decide)

end Eel
