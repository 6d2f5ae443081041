-- SUMMARY: The comparisons and the additive operators on values that are not objects, over any kind of numbers, and the laws they keep in exact arithmetic.
import Eel.Core.Operate
import Mathlib.Algebra.Order.Ring.Cast
import Mathlib.Data.Rat.Cast.Order
import Mathlib.Order.WithBot

/-!
# Operators on primitive values

The tables of the operators are those of the source, and only the numbers are left open:
with those of a `double` the tables are the operators of the VM, and with the elements of
an ordered ring they are what the operators would be in exact arithmetic. Values compare as
their numbers do, nil below all of them.
-/

namespace Eel

/-- What the operators do with numbers. -/
structure Numbers (ρ : Type) where
  ofInt : BitVec 32 → ρ
  eq : ρ → ρ → Bool
  lt : ρ → ρ → Bool
  ge : ρ → ρ → Bool
  add : ρ → ρ → ρ
  sub : ρ → ρ → ρ
  neg : ρ → ρ

/-- A value that is not an object. -/
inductive Prim (ρ : Type) where
  | nil
  | real (x : ρ)
  | whole (k : Whole) (v : BitVec 32)
  deriving DecidableEq

namespace Numbers

variable {ρ : Type} (N : Numbers ρ)

/-! ## The tables -/

/-- `eel_op_eq`. -/
def opEq : Prim ρ → Prim ρ → Bool
  | .nil, .nil => true
  | .real a, .real b => N.eq a b
  | .real a, .whole .integer b => N.eq a (N.ofInt b)
  | .whole .integer a, .real b => N.eq (N.ofInt a) b
  | .whole k a, .whole k' b => k = k' && a = b
  | _, _ => false

/-- `eel_op_gt`. -/
def opGt : Prim ρ → Prim ρ → Bool
  | .nil, _ => false
  | _, .nil => true
  | .real a, .real b => N.lt b a
  | .real a, .whole _ b => N.lt (N.ofInt b) a
  | .whole _ a, .real b => N.lt b (N.ofInt a)
  | .whole _ a, .whole _ b => b.slt a

/-- `eel_op_ge`. -/
def opGe : Prim ρ → Prim ρ → Bool
  | _, .nil => true
  | .nil, _ => false
  | .real a, .real b => N.ge a b
  | .real a, .whole _ b => N.ge a (N.ofInt b)
  | .whole _ a, .real b => N.ge (N.ofInt a) b
  | .whole _ a, .whole _ b => b.sle a

/-- `eel_op_ne`. -/
def opNe (a b : Prim ρ) : Bool := !N.opEq a b

/-- `eel_op_lt`. -/
def opLt (a b : Prim ρ) : Bool := !N.opGe a b

/-- `eel_op_le`. -/
def opLe (a b : Prim ρ) : Bool := !N.opGt a b

/-- `eel_op_max`. -/
def opMax (a b : Prim ρ) : Prim ρ := if N.opGe a b then a else b

/-- `eel_op_min`. -/
def opMin (a b : Prim ρ) : Prim ρ := if N.opGe a b then b else a

/-- `eel_op_sub`. -/
def opSub : Prim ρ → Prim ρ → Prim ρ
  | .nil, .nil => .nil
  | .nil, .real b => .real (N.neg b)
  | .nil, .whole _ b => .whole .integer (-b)
  | .real a, .nil => .real a
  | .whole _ a, .nil => .whole .integer a
  | .real a, .real b => .real (N.sub a b)
  | .real a, .whole _ b => .real (N.sub a (N.ofInt b))
  | .whole _ a, .real b => .real (N.sub (N.ofInt a) b)
  | .whole _ a, .whole _ b => .whole .integer (a - b)

/-- `eel_op_add`. -/
def opAdd : Prim ρ → Prim ρ → Prim ρ
  | .nil, .nil => .nil
  | .nil, .real b => .real b
  | .nil, .whole _ b => .whole .integer (-b)
  | .real a, .nil => .real a
  | .whole _ a, .nil => .whole .integer a
  | .real a, .real b => .real (N.add a b)
  | .real a, .whole _ b => .real (N.add a (N.ofInt b))
  | .whole _ a, .real b => .real (N.add (N.ofInt a) b)
  | .whole _ a, .whole _ b => .whole .integer (a + b)

/-- `eel_op_neg`. -/
def opNeg : Prim ρ → Except Xno (Prim ρ)
  | .real a => .ok (.real (N.neg a))
  | .whole .integer a | .whole .boolean a => .ok (.whole .integer (-a))
  | .nil | .whole .classid _ => .error Xno.wrongType

end Numbers

/-! ## The operators of the VM -/

/-- The value in a register. -/
def Prim.value : Prim (BitVec 64) → Value
  | .nil => .nil
  | .real bits => .real bits
  | .whole .integer v => .integer v
  | .whole .boolean v => .boolean v
  | .whole .classid v => .classid v

/-- The numbers of the VM. -/
def Reals.numbers (R : Reals) : Numbers (BitVec 64) where
  ofInt := R.ofInt
  eq := Value.realEq
  lt := R.lt
  ge := R.ge
  add := R.add
  sub := R.sub
  neg := Reals.neg

/-- The operand that a case of a `switch` takes it for. -/
def Prim.operand : Prim (BitVec 64) → CaseOperand
  | .nil => .nil
  | .real bits => .real (some bits)
  | .whole k v => .whole k (some v)

theorem operands_value (a b : Prim (BitVec 64)) :
    operands a.value b.value = some (a.operand, b.operand) := by
  rcases a with _ | _ | ⟨_ | _ | _, _⟩ <;> rcases b with _ | _ | ⟨_ | _ | _, _⟩ <;>
    simp [operands, mk2types, Prim.value, Prim.operand, Value.cls, Value.as, Value.num?, Value.int?]

namespace Meta

variable {W : Type} (M : Meta W)

theorem opEq_value (a b : Prim (BitVec 64)) (w : W) :
    M.opEq a.value b.value w = .ok (.value (.truth (M.real.numbers.opEq a b)), w) := by
  simp only [opEq, operands_value]
  rcases a with _ | _ | ⟨_ | _ | _, _⟩ <;> rcases b with _ | _ | ⟨_ | _ | _, _⟩ <;>
    simp [Prim.operand, Numbers.opEq, Reals.numbers, onReals, onWholes, CaseOperand.toReal,
      Op.read, Op.give]

theorem opGt_value (a b : Prim (BitVec 64)) (w : W) :
    M.opGt a.value b.value w = .ok (.value (.truth (M.real.numbers.opGt a b)), w) := by
  simp only [opGt, operands_value]
  rcases a with _ | _ | _ <;> rcases b with _ | _ | _ <;> rfl

theorem opGe_value (a b : Prim (BitVec 64)) (w : W) :
    M.opGe a.value b.value w = .ok (.value (.truth (M.real.numbers.opGe a b)), w) := by
  simp only [opGe, operands_value]
  rcases a with _ | _ | _ <;> rcases b with _ | _ | _ <;> rfl

theorem opSub_value (a b : Prim (BitVec 64)) (w : W) :
    M.opSub a.value b.value w = .ok (.value (M.real.numbers.opSub a b).value, w) := by
  simp only [opSub, operands_value]
  rcases a with _ | _ | _ <;> rcases b with _ | _ | _ <;> rfl

theorem opAdd_value (a b : Prim (BitVec 64)) (w : W) :
    M.opAdd a.value b.value w = .ok (.value (M.real.numbers.opAdd a b).value, w) := by
  simp only [opAdd, operands_value]
  rcases a with _ | _ | _ <;> rcases b with _ | _ | _ <;> rfl

theorem opNeg_value (a : Prim (BitVec 64)) (w : W) :
    (opNeg a.value : Op W) w =
      match M.real.numbers.opNeg a with
      | .ok z => .ok (.value z.value, w)
      | .error x => .error (.thrown x w) := by
  rcases a with _ | _ | ⟨_ | _ | _, _⟩ <;> rfl

theorem flip_truth (b : Bool) : flip (.value (.truth b)) = .value (.truth (!b)) := by
  cases b <;> rfl

theorem inverted_value {f : Op W} {b : Bool} {w : W} (hf : f w = .ok (.value (.truth b), w)) :
    inverted f w = .ok (.value (.truth (!b)), w) := by
  rw [← flip_truth, inverted, hf]
  rfl

theorem opNe_value (a b : Prim (BitVec 64)) (w : W) :
    M.operate a.value .ne b.value w = .ok (.value (.truth (M.real.numbers.opNe a b)), w) :=
  inverted_value (M.opEq_value a b w)

theorem opLt_value (a b : Prim (BitVec 64)) (w : W) :
    M.operate a.value .lt b.value w = .ok (.value (.truth (M.real.numbers.opLt a b)), w) :=
  inverted_value (M.opGe_value a b w)

theorem opLe_value (a b : Prim (BitVec 64)) (w : W) :
    M.operate a.value .le b.value w = .ok (.value (.truth (M.real.numbers.opLe a b)), w) :=
  inverted_value (M.opGt_value a b w)

theorem isSet_truth (b : Bool) : isSet (.value (.truth b)) = b := by
  cases b <;> rfl

theorem copy_value (a : Prim (BitVec 64)) : a.value.copy = a.value := by
  rcases a with _ | _ | ⟨_ | _ | _, _⟩ <;> rfl

theorem select_value (a b one other : Prim (BitVec 64)) (w : W) :
    M.select a.value b.value one.value other.value w =
      .ok (.value (if M.real.numbers.opGe a b then one else other).value, w) := by
  simp only [select, M.opGe_value, bind, Except.bind, isSet_truth, copy_value, pure, Except.pure]
  split <;> rfl

theorem opMin_value (a b : Prim (BitVec 64)) (w : W) :
    M.operate a.value .min b.value w = .ok (.value (M.real.numbers.opMin a b).value, w) :=
  M.select_value a b b a w

theorem opMax_value (a b : Prim (BitVec 64)) (w : W) :
    M.operate a.value .max b.value w = .ok (.value (M.real.numbers.opMax a b).value, w) :=
  M.select_value a b a b w

end Meta

/-! ## Exact arithmetic -/

/-- The elements of an ordered ring. Integers keep their 32 bits. -/
def Numbers.exact (ρ : Type) [Ring ρ] [LinearOrder ρ] : Numbers ρ where
  ofInt v := (v.toInt : ρ)
  eq a b := decide (a = b)
  lt a b := decide (a < b)
  ge a b := decide (b ≤ a)
  add a b := a + b
  sub a b := a - b
  neg a := -a

namespace Prim

variable {ρ : Type}

/-- What a value is compared by. Nothing is below nil. -/
def number [Ring ρ] : Prim ρ → WithBot ρ
  | .nil => ⊥
  | .real x => x
  | .whole _ v => ((v.toInt : ρ) : WithBot ρ)

/-- Whether `==` looks at the numbers of two values. -/
def Alike : Prim ρ → Prim ρ → Prop
  | .whole k _, .whole k' _ => k = k'
  | .real _, .whole k _ | .whole k _, .real _ => k = .integer
  | _, _ => True

end Prim

/-- The comparisons agree with each other, where `same` is what stands between less and
greater. -/
structure Numbers.Coherent {ρ : Type} (N : Numbers ρ) (same : Prim ρ → Prim ρ → Prop)
    (a b c : Prim ρ) : Prop where
  exactly_one : (N.opLt a b ∧ ¬same a b ∧ ¬N.opGt a b) ∨ (¬N.opLt a b ∧ same a b ∧ ¬N.opGt a b) ∨
    (¬N.opLt a b ∧ ¬same a b ∧ N.opGt a b)
  le_iff : N.opLe a b ↔ N.opLt a b ∨ same a b
  ge_iff : N.opGe a b ↔ N.opGt a b ∨ same a b
  ne_iff : N.opNe a b ↔ ¬N.opEq a b
  lt_trans : N.opLt a b → N.opLt b c → N.opLt a c
  min_mem : N.opMin a b = a ∨ N.opMin a b = b
  min_le : N.opLe (N.opMin a b) a ∧ N.opLe (N.opMin a b) b
  max_mem : N.opMax a b = a ∨ N.opMax a b = b
  le_max : N.opLe a (N.opMax a b) ∧ N.opLe b (N.opMax a b)

section Comparisons

variable {ρ : Type} [Ring ρ] [LinearOrder ρ] (a b c : Prim ρ)

open Numbers

theorem opNe_iff : (exact ρ).opNe a b ↔ ¬(exact ρ).opEq a b := by
  simp [opNe]

theorem opMin_mem : (exact ρ).opMin a b = a ∨ (exact ρ).opMin a b = b := by
  rw [opMin]
  split
  · exact .inr rfl
  · exact .inl rfl

theorem opMax_mem : (exact ρ).opMax a b = a ∨ (exact ρ).opMax a b = b := by
  rw [opMax]
  split
  · exact .inl rfl
  · exact .inr rfl

variable [IsStrictOrderedRing ρ]

theorem opGt_iff : (exact ρ).opGt a b ↔ b.number < a.number := by
  rcases a with _ | _ | _ <;> rcases b with _ | _ | _ <;>
    simp [opGt, exact, Prim.number, BitVec.slt_iff_toInt_lt]

theorem opGe_iff : (exact ρ).opGe a b ↔ b.number ≤ a.number := by
  rcases a with _ | _ | _ <;> rcases b with _ | _ | _ <;>
    simp [opGe, exact, Prim.number, BitVec.sle_iff_toInt_le]

theorem opLt_iff : (exact ρ).opLt a b ↔ a.number < b.number := by
  rw [opLt, Bool.not_eq_true', ← Bool.not_eq_true, opGe_iff, not_le]

theorem opLe_iff : (exact ρ).opLe a b ↔ a.number ≤ b.number := by
  rw [opLe, Bool.not_eq_true', ← Bool.not_eq_true, opGt_iff, not_lt]

theorem opEq_iff : (exact ρ).opEq a b ↔ a.number = b.number ∧ a.Alike b := by
  rcases a with _ | _ | ⟨_ | _ | _, _⟩ <;> rcases b with _ | _ | ⟨_ | _ | _, _⟩ <;>
    simp [opEq, exact, Prim.number, Prim.Alike, BitVec.toInt_inj]

theorem opMin_number : ((exact ρ).opMin a b).number = min a.number b.number := by
  rw [opMin]
  split
  · rename_i h
    exact (min_eq_right ((opGe_iff a b).mp h)).symm
  · rename_i h
    exact (min_eq_left (le_of_lt (not_le.mp (mt (opGe_iff a b).mpr h)))).symm

theorem opMax_number : ((exact ρ).opMax a b).number = max a.number b.number := by
  rw [opMax]
  split
  · rename_i h
    exact (max_eq_left ((opGe_iff a b).mp h)).symm
  · rename_i h
    exact (max_eq_right (le_of_lt (not_le.mp (mt (opGe_iff a b).mpr h)))).symm

/-- Values are ordered as their numbers are. Two values with the same number may differ
for `==`, which then holds no more than `<` and `>`. -/
theorem comparisons_coherent :
    (exact ρ).Coherent (fun a b => a.number = b.number) a b c ∧
      ((exact ρ).opEq a b ↔ a.number = b.number ∧ a.Alike b) := by
  refine ⟨⟨?_, ?_, ?_, opNe_iff a b, ?_, opMin_mem a b, ?_, opMax_mem a b, ?_⟩, opEq_iff a b⟩
  · simp only [opLt_iff, opGt_iff]
    rcases lt_trichotomy a.number b.number with h | h | h
    · exact .inl ⟨h, h.ne, h.asymm⟩
    · exact .inr (.inl ⟨h.not_lt, h, h.not_gt⟩)
    · exact .inr (.inr ⟨h.asymm, h.ne', h⟩)
  · rw [opLe_iff, opLt_iff]
    exact le_iff_lt_or_eq
  · rw [opGe_iff, opGt_iff, le_iff_lt_or_eq, eq_comm]
  · simp only [opLt_iff]
    exact lt_trans
  · simp only [opLe_iff, opMin_number]
    exact ⟨min_le_left _ _, min_le_right _ _⟩
  · simp only [opLe_iff, opMax_number]
    exact ⟨le_max_left _ _, le_max_right _ _⟩

end Comparisons

theorem comparisons_coherent_rat :
    let a : Prim ℚ := .whole .boolean 1
    let b : Prim ℚ := .real (1 / 2)
    (Numbers.exact ℚ).Coherent (fun a b => a.number = b.number) a b (.whole .integer (-3)) ∧
      ((Numbers.exact ℚ).opEq a b ↔ a.number = b.number ∧ a.Alike b) :=
  comparisons_coherent _ _ _

/-- `true` is not less than 1, not equal to it, and not greater. -/
theorem true_one_incoherent :
    ¬(Numbers.exact ℚ).Coherent (fun a b => (Numbers.exact ℚ).opEq a b)
      (.whole .boolean 1) (.whole .integer 1) .nil := by
  intro h
  have hlt : (Numbers.exact ℚ).opLt (.whole .boolean 1) (.whole .integer 1) = false := rfl
  have heq : (Numbers.exact ℚ).opEq (.whole .boolean 1) (.whole .integer 1) = false := rfl
  have hgt : (Numbers.exact ℚ).opGt (.whole .boolean 1) (.whole .integer 1) = false := rfl
  rcases h.exactly_one with ⟨h, -⟩ | ⟨-, h, -⟩ | ⟨-, -, h⟩
  · exact Bool.false_ne_true (hlt.symm.trans h)
  · exact Bool.false_ne_true (heq.symm.trans h)
  · exact Bool.false_ne_true (hgt.symm.trans h)

/-! ## The laws of addition and subtraction -/

/-- The integers that are their own negative. -/
def SelfNegative (v : BitVec 32) : Prop := v = 0 ∨ v = BitVec.intMin 32

theorem selfNegative_iff (v : BitVec 32) : SelfNegative v ↔ -v = v := by
  constructor
  · rintro (rfl | rfl) <;> rfl
  · intro h
    have h := congrArg BitVec.toNat h
    rw [BitVec.toNat_neg] at h
    rcases Nat.eq_zero_or_pos v.toNat with h0 | h0
    · exact .inl (BitVec.eq_of_toNat_eq h0)
    · rw [Nat.mod_eq_of_lt (by omega)] at h
      exact .inr (BitVec.eq_of_toNat_eq (by simp; omega))

/-- A number minus an integer is the number plus the integer's negative, unless the integer
has none. -/
theorem toInt_neg_eq_iff (v : BitVec 32) : (-v).toInt = -v.toInt ↔ v ≠ BitVec.intMin 32 := by
  constructor
  · rintro h rfl
    exact absurd h (by decide)
  · exact BitVec.toInt_neg_of_ne_intMin

section Additive

variable {ρ : Type} [Ring ρ] [LinearOrder ρ] (x y : Prim ρ)

open Numbers

/-- Nil is neutral to both sides, as 0 is to the left. -/
def NilNeutral : Prop :=
  x ≠ .nil →
    (exact ρ).opAdd .nil x = (exact ρ).opAdd x .nil ∧
      (exact ρ).opAdd x .nil = (exact ρ).opSub x .nil ∧
      (exact ρ).opSub x .nil = (exact ρ).opAdd (.whole .integer 0) x

/-- Subtracting from nil is negating, if that succeeds. -/
def NilSubNeg : Prop := ∀ z, opNeg (exact ρ) x = .ok z → (exact ρ).opSub .nil x = z

/-- Subtracting is adding the negative, if there is one. -/
def SubAddNeg : Prop := ∀ z, opNeg (exact ρ) y = .ok z → (exact ρ).opSub x y = (exact ρ).opAdd x z

theorem nilNeutral_iff : NilNeutral x ↔ ∀ k v, x = .whole k v → SelfNegative v := by
  rcases x with _ | _ | ⟨k, v⟩
  · simp [NilNeutral]
  · simp [NilNeutral, opAdd, opSub, exact]
  · simp [NilNeutral, opAdd, opSub, selfNegative_iff]

/-- What nil is added to on the left is negated. -/
theorem opAdd_comm_iff :
    (exact ρ).opAdd x y = (exact ρ).opAdd y x ↔
      (x = .nil → ∀ k v, y = .whole k v → SelfNegative v) ∧
        (y = .nil → ∀ k v, x = .whole k v → SelfNegative v) := by
  rcases x with _ | _ | ⟨k, v⟩ <;> rcases y with _ | _ | ⟨k', v'⟩ <;>
    simp [opAdd, exact, selfNegative_iff, add_comm, BitVec.add_comm, eq_comm]

theorem nilSubNeg : NilSubNeg x := by
  intro z h
  rcases x with _ | _ | ⟨_ | _ | _, _⟩ <;> cases h <;> rfl

theorem opSub_nil_whole (k : Whole) (v : BitVec 32) :
    (exact ρ).opSub .nil (.whole k v) = (exact ρ).opAdd .nil (.whole .integer (-v)) ↔
      SelfNegative v := by
  rw [selfNegative_iff]
  simp [opSub, opAdd]

theorem opSub_real_whole [IsStrictOrderedRing ρ] (a : ρ) (k : Whole) (v : BitVec 32) :
    (exact ρ).opSub (.real a) (.whole k v) = (exact ρ).opAdd (.real a) (.whole .integer (-v)) ↔
      v ≠ BitVec.intMin 32 := by
  have h : ((-v).toInt : ρ) = -(v.toInt : ρ) ↔ v ≠ BitVec.intMin 32 := by
    rw [← toInt_neg_eq_iff, ← Int.cast_neg, Int.cast_inj]
  rw [← h]
  simp only [opSub, opAdd, exact, Prim.real.injEq, sub_eq_add_neg, add_right_inj]
  exact eq_comm

theorem opSub_whole_whole (k k' : Whole) (u v : BitVec 32) :
    (exact ρ).opSub (.whole k u) (.whole k' v) = (exact ρ).opAdd (.whole k u) (.whole .integer (-v)) := by
  simp [opSub, opAdd, BitVec.sub_eq_add_neg]

theorem subAddNeg_real (a : ρ) : SubAddNeg x (.real a) := by
  rintro z ⟨⟩
  rcases x with _ | _ | _
  · rfl
  · simp [opSub, opAdd, exact, sub_eq_add_neg]
  · simp [opSub, opAdd, exact, sub_eq_add_neg]

theorem subAddNeg_whole {k : Whole} (hk : k ≠ .classid) (v : BitVec 32) :
    SubAddNeg x (.whole k v) ↔
      (exact ρ).opSub x (.whole k v) = (exact ρ).opAdd x (.whole .integer (-v)) := by
  have hneg : opNeg (exact ρ) (.whole k v) = .ok (.whole .integer (-v)) := by
    rcases k with _ | _ | _
    · rfl
    · rfl
    · exact absurd rfl hk
  simp [SubAddNeg, hneg]

theorem subAddNeg_iff [IsStrictOrderedRing ρ] :
    SubAddNeg x y ↔
      ∀ k v, y = .whole k v → k ≠ .classid →
        (x = .nil → SelfNegative v) ∧ (∀ a, x = .real a → v ≠ BitVec.intMin 32) := by
  rcases y with _ | b | ⟨k, v⟩
  · simp [SubAddNeg, opNeg]
  · simp [subAddNeg_real]
  · rcases eq_or_ne k .classid with rfl | hk
    · simp [SubAddNeg, opNeg]
    · rw [subAddNeg_whole x hk]
      rcases x with _ | a | ⟨k', u⟩
      · simp [opSub_nil_whole, hk]
      · simp [opSub_real_whole, hk]
      · simp [opSub_whole_whole]

/-- Which operands keep the laws. -/
theorem additive_laws [IsStrictOrderedRing ρ] :
    (NilNeutral x ↔ ∀ k v, x = .whole k v → SelfNegative v) ∧
      ((exact ρ).opAdd x y = (exact ρ).opAdd y x ↔
        (x = .nil → ∀ k v, y = .whole k v → SelfNegative v) ∧
          (y = .nil → ∀ k v, x = .whole k v → SelfNegative v)) ∧
      NilSubNeg x ∧
      (SubAddNeg x y ↔
        ∀ k v, y = .whole k v → k ≠ .classid →
          (x = .nil → SelfNegative v) ∧ (∀ a, x = .real a → v ≠ BitVec.intMin 32)) :=
  ⟨nilNeutral_iff x, opAdd_comm_iff x y, nilSubNeg x, subAddNeg_iff x y⟩

theorem additive_laws_rat :
    let x : Prim ℚ := .real (1 / 2)
    let y : Prim ℚ := .whole .integer 3
    (NilNeutral x ↔ ∀ k v, x = .whole k v → SelfNegative v) ∧
      ((exact ℚ).opAdd x y = (exact ℚ).opAdd y x ↔
        (x = .nil → ∀ k v, y = .whole k v → SelfNegative v) ∧
          (y = .nil → ∀ k v, x = .whole k v → SelfNegative v)) ∧
      NilSubNeg x ∧
      (SubAddNeg x y ↔
        ∀ k v, y = .whole k v → k ≠ .classid →
          (x = .nil → SelfNegative v) ∧ (∀ a, x = .real a → v ≠ BitVec.intMin 32)) :=
  additive_laws _ _

/-- nil + 5 is -5. -/
theorem nil_five_not_neutral : ¬NilNeutral (.whole .integer 5 : Prim ℚ) := by
  intro h
  have hadd := (h (by decide)).1
  exact absurd hadd (by decide)

end Additive

end Eel
