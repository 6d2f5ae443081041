-- SUMMARY: What C makes of an integer where an integer of the other sign, or a `float`, is wanted.
import Eel.Lib.CInt
import Mathlib.Data.Nat.Log

/-!
# Conversions of integers

An `int` and an `unsigned int` have the same 32 bits, so what is lost is a multiple of
`2 ^ 32`. A `float` has a significand of 24 bits; an integer with more bits is rounded to
the nearest one that has zeros below these, and to the even one of two that are as near.
-/

namespace CInt

/-- An integer where an `unsigned int` is wanted. -/
def unsigned (n : Int) : Int := n % 2 ^ 32

/-- An integer where an `int` is wanted. -/
def signed (n : Int) : Int := if n % 2 ^ 32 < 2 ^ 31 then n % 2 ^ 32 else n % 2 ^ 32 - 2 ^ 32

/-- The multiple of `2 ^ k` that is nearest to an integer. -/
def roundTo (k : Nat) (n : Int) : Int :=
  if 2 * (n % 2 ^ k) < 2 ^ k ∨ 2 * (n % 2 ^ k) = 2 ^ k ∧ n / 2 ^ k % 2 = 0 then n / 2 ^ k * 2 ^ k
  else (n / 2 ^ k + 1) * 2 ^ k

/-- An integer where a `float` is wanted. -/
def float (n : Int) : Int := roundTo (n.natAbs.log2 - 23) n

variable {a b n : Int}

theorem signed_of_inRange (h : InRange n) : signed n = n := by
  have hlow := h.1
  have hhigh := h.2
  unfold signed
  split <;> omega

theorem signed_add_unsigned (h : InRange (a + b)) : signed (a + unsigned b) = a + b := by
  have hlow := h.1
  have hhigh := h.2
  unfold signed unsigned
  split <;> omega

theorem signed_unsigned (h : InRange n) : signed (unsigned n) = n := by
  have hsum := signed_add_unsigned (a := 0) (b := n) (by rwa [Int.zero_add])
  rwa [Int.zero_add, Int.zero_add] at hsum

theorem unsigned_add_unsigned : unsigned (a + unsigned b) = unsigned (a + b) := Int.add_emod_emod ..

theorem unsigned_unsigned_add : unsigned (unsigned a + b) = unsigned (a + b) := Int.emod_add_emod ..

theorem unsigned_nonneg : 0 ≤ unsigned n := Int.emod_nonneg _ (by decide)

theorem unsigned_of_nonneg (h : InRange n) (hn : 0 ≤ n) : unsigned n = n := by
  have hhigh := h.2
  unfold unsigned
  omega

theorem unsigned_of_neg (h : InRange n) (hn : n < 0) : unsigned n = n + 2 ^ 32 := by
  have hlow := h.1
  unfold unsigned
  omega

/-- Only nothing is converted to zero. -/
theorem unsigned_le_zero (h : InRange n) : unsigned n ≤ 0 ↔ n = 0 := by
  have hlow := h.1
  have hhigh := h.2
  unfold unsigned
  omega

/-- A negative number is larger than one that is not. -/
theorem unsigned_lt (ha : InRange a) (hb : InRange b) :
    unsigned a < unsigned b ↔ if a < 0 ↔ b < 0 then a < b else b < 0 := by
  have halow := ha.1
  have hahigh := ha.2
  have hblow := hb.1
  have hbhigh := hb.2
  unfold unsigned
  split <;> omega

/-! ## Rounding -/

/-- Rounding does not lead past a power of two. -/
theorem roundTo_bound {k m : Nat} (hk : k ≤ m) (h : |n| ≤ 2 ^ m) : |roundTo k n| ≤ 2 ^ m := by
  obtain ⟨j, rfl⟩ := Nat.exists_eq_add_of_le hk
  obtain ⟨hlow, hhigh⟩ := abs_le.mp h
  have hpos : (0 : Int) < 2 ^ k := Int.pow_pos (by decide)
  have hparts : n / 2 ^ k * 2 ^ k + n % 2 ^ k = n := Int.ediv_mul_add_emod n (2 ^ k)
  have hrest : 0 ≤ n % 2 ^ k := Int.emod_nonneg n (Int.ne_of_gt hpos)
  have hleast : -2 ^ j ≤ n / 2 ^ k := by
    rw [Int.le_ediv_iff_mul_le hpos, Int.neg_mul, ← Int.pow_add, Nat.add_comm]
    exact hlow
  rw [abs_le, Int.pow_add, Int.mul_comm, ← Int.neg_mul]
  unfold roundTo
  split
  · refine ⟨Int.mul_le_mul_of_nonneg_right hleast hpos.le, ?_⟩
    rw [← Int.pow_add, Nat.add_comm]
    omega
  · rename_i hup
    have hlt : n / 2 ^ k < 2 ^ j := by
      refine Int.lt_of_mul_lt_mul_right ?_ hpos.le
      rw [← Int.pow_add, Nat.add_comm]
      omega
    exact ⟨Int.mul_le_mul_of_nonneg_right (by omega) hpos.le, Int.mul_le_mul_of_nonneg_right hlt hpos.le⟩

theorem float_bound {m : Nat} (h : |n| ≤ 2 ^ m) : |float n| ≤ 2 ^ m := by
  refine roundTo_bound ?_ h
  rcases Nat.eq_zero_or_pos n.natAbs with h0 | hpos
  · rw [h0]
    exact Nat.zero_le m
  · have hle : n.natAbs ≤ 2 ^ m := by
      rw [Int.abs_eq_natAbs] at h
      exact_mod_cast h
    have hlog : n.natAbs.log2 ≤ m := (Nat.pow_le_pow_iff_right (by decide)).mp
      ((Nat.log2_self_le (Nat.ne_of_gt hpos)).trans hle)
    exact (Nat.sub_le _ _).trans hlog

/-- An integer of up to 24 bits has room. -/
theorem float_of_lt (h : n.natAbs < 2 ^ 24) : float n = n := by
  have hzero : n.natAbs.log2 - 23 = 0 := by
    rcases Nat.eq_zero_or_pos n.natAbs with h0 | hpos
    · rw [h0]
      rfl
    · have hlog : n.natAbs.log2 < 24 := (Nat.log2_lt (Nat.ne_of_gt hpos)).mpr h
      omega
  unfold float roundTo
  rw [hzero, Int.pow_zero, Int.emod_one, Int.ediv_one]
  exact Int.mul_one n

end CInt
