-- SUMMARY: The constants of a function: when a constant that is added twice is kept once, and what is kept of it.
import Eel.Compiler.Manip
import Eel.Core.TextOrder

/-!
# Constant tables

A constant that compares equal to one that there is shares its entry. Reals are compared as
numbers, so zeros with different signs share one, and objects by the comparison of their
class, so that two objects share one that only look the same at the time.
-/

namespace Eel

/-- What is to be an object's `classid`. -/
inductive ObjectClass where
  | string
  | dstring
  | other (cid : Nat)
  deriving DecidableEq

/-- The objects as they are when a constant is added. -/
structure ConstHeap where
  texts : Texts
  /-- The class of an object that is not a text. -/
  cid : ObjId → Nat
  /-- `EEL_MM_COMPARE` of such an object, or `none` when it fails. -/
  compare : ObjId → ObjId → Option (BitVec 32)

namespace ConstHeap

variable (H : ConstHeap)

def classid (o : ObjId) : ObjectClass :=
  match H.texts.text o with
  | some (.string _) => .string
  | some (.dstring _) => .dstring
  | none => .other (H.cid o)

/-- `objects_equal`. -/
def objectsEqual (o1 o2 : ObjId) : Bool :=
  match H.texts.text o1 with
  | some _ => isZero (H.texts.compare o1 (.objref o2))
  | none => H.compare o1 o2 = some 0

/-- Whether two objects share an entry that are not one and the same. -/
def same (o1 o2 : ObjId) : Bool := H.classid o1 = H.classid o2 && H.objectsEqual o1 o2

end ConstHeap

/-- `constants` and `maxconstants`. -/
structure ConstTable where
  constants : List Value
  maxconstants : Nat

namespace ConstTable

def empty : ConstTable := ⟨[], 0⟩

/-- `while(ns < size) ns *= 2;`, with no result when it overflows. -/
def doubleTo? (size ns : Nat) (hns : 0 < ns) : Option Nat :=
  if ns < size then
    if ns * 2 < 2 ^ 31 then doubleTo? size (ns * 2) (Nat.mul_pos hns Nat.two_pos) else none
  else some ns
termination_by size - ns

theorem reserve_pos (maxconstants : Nat) : 0 < max maxconstants 32 := lt_max_of_lt_right (by decide)

/-- `eel_coder_realloc_constants`, for one more constant. -/
def reserve? (t : ConstTable) : Option ConstTable :=
  (doubleTo? (t.constants.length + 1) (max t.maxconstants 32) (reserve_pos _)).map fun ns =>
    { t with maxconstants := ns }

/-- `eel_coder_add_constant`. -/
def add? (H : ConstHeap) (t : ConstTable) (v : Value) : Option (Nat × ConstTable) :=
  t.reserve?.map fun t =>
    match t.constants.findIdx? (Value.sameConstant H.same · v) with
    | some i => (i, t)
    | none => (t.constants.length, { t with constants := t.constants ++ [v.qcopy] })

end ConstTable

/-- At run time, the entry is the value: the same one, or a string with the same characters. Weak references are
kept as strong ones. -/
def ConstHeap.Alike (H : ConstHeap) (e v : Value) : Prop :=
  e = v.qcopy ∨ ∃ o o' bytes, e = .objref o ∧ v = .objref o' ∧
    H.texts.text o = some (.string bytes) ∧ H.texts.text o' = some (.string bytes)

/-- A zero, of either sign. -/
def Value.isZero : Value → Bool
  | .real a => a &&& 0x7fffffffffffffff == 0
  | _ => false

/-- A value that does not share an entry with another one: if it is a zero, the first zero that there is has
its sign; if it is an object but not a string, the first entry that compares equal is this object. -/
def ConstHeap.Distinct (H : ConstHeap) (constants : List Value) (v : Value) : Prop :=
  match v with
  | .real _ => v.isZero → ∀ e, constants.find? Value.isZero = some e → e = v
  | .objref o => H.classid o = .string ∨
      ∀ e, constants.find? (Value.sameConstant H.same · v) = some e → e = v
  | _ => True

namespace ConstTable

end ConstTable

/-! ## Values that compare equal -/

namespace ConstHeap

variable {H : ConstHeap} {e v : Value} {o o' : ObjId} {same : ObjId → ObjId → Bool}

end ConstHeap

/-! ## The table -/

namespace ConstTable

variable {t t' : ConstTable} {H : ConstHeap} {v : Value} {i size k : Nat}

theorem exists_doubleTo? (hk : k ≤ 30) (hsize : size ≤ 2 ^ 30) {ns : Nat} (hns : ns = 2 ^ k) (hpos : 0 < ns) :
    ∃ m j, k ≤ j ∧ j ≤ 30 ∧ m = 2 ^ j ∧ size ≤ m ∧ doubleTo? size ns hpos = some m := by
  -- On the doublings that are left before 2 ^ 30.
  induction hm : 30 - k generalizing k ns with
  | zero =>
    obtain rfl : k = 30 := by omega
    refine ⟨ns, 30, Nat.le_refl _, Nat.le_refl _, hns, by omega, ?_⟩
    rw [doubleTo?, if_neg (by omega)]
  | succ m ih =>
    rw [doubleTo?]
    split
    · have hpow : 2 ^ (k + 1) ≤ 2 ^ 30 := Nat.pow_le_pow_right Nat.two_pos (by omega)
      have hnext : ns * 2 = 2 ^ (k + 1) := by rw [hns, Nat.pow_succ]
      rw [if_pos (by omega)]
      obtain ⟨m', j, hkj, hrest⟩ := ih (by omega) hnext (by omega) (by omega)
      exact ⟨m', j, by omega, hrest⟩
    · exact ⟨ns, k, Nat.le_refl _, hk, hns, by omega, rfl⟩

/-- What holds of every table: there is room for its constants, of a size that doubling leads to. -/
structure Ok (t : ConstTable) : Prop where
  room : t.constants.length ≤ t.maxconstants
  power : t.maxconstants = 0 ∨ ∃ k, 5 ≤ k ∧ k ≤ 30 ∧ t.maxconstants = 2 ^ k
  strong : ∀ e ∈ t.constants, e.qcopy = e

theorem Ok.empty : empty.Ok where
  room := Nat.le_refl _
  power := .inl rfl
  strong _ he := nomatch he

/-- Doubling starts at a power of two. -/
theorem Ok.start (h : t.Ok) : ∃ k, 5 ≤ k ∧ k ≤ 30 ∧ max t.maxconstants 32 = 2 ^ k := by
  rcases h.power with hzero | ⟨k, hk, hk', hpow⟩
  · exact ⟨5, Nat.le_refl _, by decide, by rw [hzero]; rfl⟩
  · refine ⟨k, hk, hk', ?_⟩
    rw [hpow]
    exact max_eq_left (Nat.pow_le_pow_right Nat.two_pos hk)

/-- There is room for another constant exactly if there are less than `2 ^ 30`. -/
theorem Ok.reserve (h : t.Ok) (hlt : t.constants.length < 2 ^ 30) :
    ∃ ns, t.reserve? = some { t with maxconstants := ns } ∧ t.constants.length < ns ∧
      ∃ k, 5 ≤ k ∧ k ≤ 30 ∧ ns = 2 ^ k := by
  obtain ⟨k, hk, hk', hstart⟩ := h.start
  obtain ⟨ns, j, hkj, hj, hpow, hroom, hdouble⟩ := exists_doubleTo? hk' (Nat.succ_le_of_lt hlt) hstart (reserve_pos _)
  refine ⟨ns, ?_, hroom, j, by omega, hj, hpow⟩
  unfold reserve?
  rw [hdouble]
  rfl

/-- What a call does: the constants that there are stay, and the entry is the first one that compares equal, or
a new one. -/
theorem Ok.add (h : t.Ok) (hlt : t.constants.length < 2 ^ 30) :
    ∃ i t', t.add? H v = some (i, t') ∧ t'.Ok ∧ t.constants <+: t'.constants ∧
      t'.constants[i]? = some ((t.constants.find? (Value.sameConstant H.same · v)).getD v.qcopy) := by
  obtain ⟨ns, hreserve, hroom, hpower⟩ := h.reserve hlt
  have hpower' : ns = 0 ∨ ∃ k, 5 ≤ k ∧ k ≤ 30 ∧ ns = 2 ^ k := .inr hpower
  unfold add?
  rw [hreserve, Option.map_some, List.find?_eq_bind_findIdx?_getElem?]
  dsimp only
  cases hfind : t.constants.findIdx? (Value.sameConstant H.same · v) with
  | some i =>
    obtain ⟨hi, -⟩ := List.findIdx?_eq_some_iff_getElem.mp hfind
    refine ⟨i, _, rfl, { room := Nat.le_of_lt hroom, power := hpower', strong := h.strong }, List.prefix_refl _, ?_⟩
    dsimp only
    rw [Option.bind_some, List.getElem?_eq_getElem hi, Option.getD_some]
  | none =>
    refine ⟨_, _, rfl, { room := ?_, power := hpower', strong := ?_ }, List.prefix_append _ _, ?_⟩
    · rw [List.length_append]
      exact hroom
    · intro e he
      rcases List.mem_append.mp he with he | he
      · exact h.strong e he
      · rw [List.mem_singleton.mp he]
        cases v <;> rfl
    · dsimp only
      rw [List.getElem?_concat_length, Option.bind_none, Option.getD_none]

/-- The constants are those of the coder, which adds them in the same way. -/
theorem add?_addConstant {cdr : CoderState} (h : t.add? H v = some (i, t')) (hcdr : cdr.constants = t.constants) :
    cdr.addConstant H.same v = (i, { cdr with constants := t'.constants }) := by
  unfold add? reserve? at h
  rw [Option.map_map] at h
  obtain ⟨ns, -, hadd⟩ := Option.map_eq_some_iff.mp h
  unfold CoderState.addConstant
  rw [hcdr]
  dsimp only [Function.comp_apply] at hadd
  cases hfind : t.constants.findIdx? (Value.sameConstant H.same · v) with
  | some j =>
    rw [hfind] at hadd
    cases hadd
    dsimp only
    rw [← hcdr]
  | none =>
    rw [hfind] at hadd
    cases hadd
    rfl

/-! ## Series of constants -/

/-- The entries that have been returned are those of the values. -/
def Returned (t : ConstTable) (calls : List (ConstHeap × Value)) (indices : List Nat) : Prop :=
  List.Forall₂ (fun call i => ∃ e, t.constants[i]? = some e ∧ call.1.Alike e call.2) calls indices

end ConstTable

/-- Before there are any objects. -/
def ConstHeap.bare : ConstHeap where
  texts := { pool := StringPool.open, dstring := fun _ => none }
  cid _ := 0
  compare _ _ := none

end Eel
