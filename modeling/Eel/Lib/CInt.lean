-- SUMMARY: The integer operators of C on 32 bits, with no result where the language defines none.
import Mathlib.Algebra.Order.Floor.Defs
import Mathlib.Algebra.Order.Field.Power
import Mathlib.Data.Rat.Floor

/-!
# Integers of C

A machine division traps on a quotient that does not fit, a shift by a count that is not
that of a bit has no meaning, and neither has the conversion of a number that is out of
range.
-/

namespace CInt

/-- The numbers that an `int` can have. -/
def InRange (n : Int) : Prop := -2 ^ 31 ≤ n ∧ n < 2 ^ 31

instance (n : Int) : Decidable (InRange n) := inferInstanceAs (Decidable (_ ∧ _))

/-- A sum or a product of integers that is to be an `int`. -/
def check (n : Int) : Option Int := if InRange n then some n else none

/-- The conversion of a whole number. -/
def ofInt? (n : Int) : Option (BitVec 32) := if InRange n then some (BitVec.ofInt 32 n) else none

/-- Whether a machine division has a quotient. -/
def Divisible (a b : BitVec 32) : Prop := b ≠ 0 ∧ ¬(a = BitVec.intMin 32 ∧ b = -1)

instance (a b : BitVec 32) : Decidable (Divisible a b) := inferInstanceAs (Decidable (_ ∧ _))

def div? (a b : BitVec 32) : Option (BitVec 32) := if Divisible a b then some (a.sdiv b) else none

/-- The remainder is that of a machine division. -/
def mod? (a b : BitVec 32) : Option (BitVec 32) := if Divisible a b then some (a.srem b) else none

/-- The counts of a shift. -/
def IsCount (n : Int) : Prop := 0 ≤ n ∧ n < 32

instance (n : Int) : Decidable (IsCount n) := inferInstanceAs (Decidable (_ ∧ _))

def shl? (a : BitVec 32) (n : Int) : Option (BitVec 32) := if IsCount n then some (a <<< n.toNat) else none

/-- `>>` of an `int`. -/
def shr? (a : BitVec 32) (n : Int) : Option (BitVec 32) :=
  if IsCount n then some (a.sshiftRight n.toNat) else none

/-- `>>` of an `unsigned int`. -/
def ushr? (a : BitVec 32) (n : Int) : Option (BitVec 32) := if IsCount n then some (a >>> n.toNat) else none

/-! ## When there is a result -/

theorem isSome_ite {α : Type} {p : Prop} [Decidable p] (a : α) : (if p then some a else none).isSome ↔ p := by
  split <;> simp [*]

theorem check_eq_some {n k : Int} : check n = some k ↔ InRange n ∧ n = k := by
  unfold check
  split <;> simp [*]

theorem check_eq_none {n : Int} : check n = none ↔ ¬ InRange n := by
  unfold check
  split <;> simp [*]

theorem ofInt?_isSome (n : Int) : (ofInt? n).isSome ↔ InRange n := isSome_ite _

theorem div?_isSome (a b : BitVec 32) : (div? a b).isSome ↔ Divisible a b := isSome_ite _

theorem mod?_isSome (a b : BitVec 32) : (mod? a b).isSome ↔ Divisible a b := isSome_ite _

theorem shl?_isSome (a : BitVec 32) (n : Int) : (shl? a n).isSome ↔ IsCount n := isSome_ite _

theorem shr?_isSome (a : BitVec 32) (n : Int) : (shr? a n).isSome ↔ IsCount n := isSome_ite _

theorem ushr?_isSome (a : BitVec 32) (n : Int) : (ushr? a n).isSome ↔ IsCount n := isSome_ite _

/-! ## Powers -/

/-- `pow` of two integers before it is rounded: none where the power is infinite. -/
def power? (l r : Int) : Option ℚ := if l = 0 ∧ r < 0 then none else some ((l : ℚ) ^ r)

/-- Rounding to a `double`: it keeps the order, and integers of up to 54 bits. -/
structure Rounding (round : ℚ → ℚ) : Prop where
  mono : Monotone round
  exact : ∀ n : Int, n.natAbs ≤ 2 ^ 53 → round n = n

/-- Rounding makes no difference to whether an integer is in range. -/
theorem Rounding.inRange_iff {round : ℚ → ℚ} (hr : Rounding round) (n : Int) :
    InRange ⌊round n⌋ ↔ InRange n := by
  rcases Int.lt_or_le n (-2 ^ 53) with hlow | hlow
  · have h : round n ≤ ((-2 ^ 53 : Int) : ℚ) := by
      rw [← hr.exact (-2 ^ 53) (by decide)]
      exact hr.mono (by exact_mod_cast hlow.le)
    have hfloor : ⌊round n⌋ ≤ -2 ^ 53 := Int.floor_le_iff.mpr (h.trans_lt (by exact_mod_cast Int.lt_succ _))
    exact iff_of_false (fun h => by have := h.1; omega) (fun h => by have := h.1; omega)
  rcases Int.lt_or_le (2 ^ 53) n with hhigh | hhigh
  · have h : ((2 ^ 53 : Int) : ℚ) ≤ round n := by
      rw [← hr.exact (2 ^ 53) (by decide)]
      exact hr.mono (by exact_mod_cast hhigh.le)
    have hfloor : 2 ^ 53 ≤ ⌊round n⌋ := Int.le_floor.mpr h
    exact iff_of_false (fun h => by have := h.2; omega) (fun h => by have := h.2; omega)
  · rw [hr.exact n (by omega), Int.floor_intCast]

/-- The negative powers of a number are between -1 and 1. -/
theorem Rounding.inRange_inv {round : ℚ → ℚ} (hr : Rounding round) {q : ℚ} (hq : |q| ≤ 1) :
    InRange ⌊round q⌋ := by
  obtain ⟨hlow, hhigh⟩ := abs_le.mp hq
  have h1 : round 1 = 1 := by exact_mod_cast hr.exact 1 (by decide)
  have hm1 : round (-1) = -1 := by exact_mod_cast hr.exact (-1) (by decide)
  have hge : -1 ≤ round q := hm1 ▸ hr.mono hlow
  have hle : round q ≤ 1 := h1 ▸ hr.mono hhigh
  have hfloor : -1 ≤ ⌊round q⌋ := Int.le_floor.mpr (by exact_mod_cast hge)
  have hfloor' : ⌊round q⌋ ≤ 1 := Int.floor_le_iff.mpr (hle.trans_lt (by norm_num))
  constructor <;> omega

end CInt
