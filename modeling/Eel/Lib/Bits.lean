-- SUMMARY: Rotations of bit vectors that undo each other, and the swaps of neighbouring groups of bits that reversals are made of.
import Mathlib.Tactic.Common

/-!
# Bits

A rotation moves every bit by the same number of places around the vector. A swap
exchanges every group of `k` bits with its neighbour; a mask selects the lower groups.
-/

namespace Bits

variable {w : Nat}

/-! ## Rotations -/

/-- Every group of `k` bits changes places with its neighbour. -/
def swap (k : Nat) (low high x : BitVec w) : BitVec w :=
  ((x &&& low) <<< k) ||| ((x &&& high) >>> k)

/-- Where the bit at a place comes from. -/
def partner (k i : Nat) : Nat := if i / k % 2 = 1 then i - k else i + k

/-- Two masks select the lower and the upper group of every pair. -/
structure Masks (k : Nat) (low high : BitVec w) : Prop where
  low_iff : ∀ i < w, low.getLsbD i = decide (i / k % 2 = 0)
  high_iff : ∀ i < w, high.getLsbD i = decide (i / k % 2 = 1)

theorem getLsbD_swap {k : Nat} {low high : BitVec w} (hm : Masks k low high) (hk : 0 < k)
    (x : BitVec w) {i : Nat} (hi : i < w) (hp : partner k i < w) :
    (swap k low high x).getLsbD i = x.getLsbD (partner k i) := by
  rw [swap, BitVec.getLsbD_or, BitVec.getLsbD_shiftLeft, BitVec.getLsbD_ushiftRight,
    BitVec.getLsbD_and, BitVec.getLsbD_and]
  have hup : (k + i) / k = i / k + 1 := by rw [Nat.add_comm, Nat.add_div_right i hk]
  unfold partner at hp ⊢
  split at hp <;> rename_i hpar
  · -- The bit is in an upper group, and comes from the lower one.
    have hge : k ≤ i := by
      by_contra hlt
      rw [Nat.div_eq_of_lt (by omega)] at hpar
      omega
    have hdown : i / k = (i - k) / k + 1 := Nat.div_eq_sub_div hk hge
    have hlow : low.getLsbD (i - k) = true := by
      rw [hm.low_iff _ hp]
      exact decide_eq_true (by omega)
    have hhigh : high.getLsbD (k + i) = false := by
      rcases Nat.lt_or_ge (k + i) w with h | h
      · rw [hm.high_iff _ h]
        exact decide_eq_false (by omega)
      · exact BitVec.getLsbD_of_ge _ _ h
    simp [hi, hge, hlow, hhigh, hpar]
  · have hhigh : high.getLsbD (k + i) = true := by
      rw [hm.high_iff _ (by omega)]
      exact decide_eq_true (by omega)
    have hlow : k ≤ i → low.getLsbD (i - k) = false := by
      intro hge
      have hdown : i / k = (i - k) / k + 1 := Nat.div_eq_sub_div hk hge
      rw [hm.low_iff _ (by omega)]
      exact decide_eq_false (by omega)
    rw [hhigh, if_neg hpar, Bool.and_true, Nat.add_comm k i]
    rcases Nat.lt_or_ge i k with h | h
    · simp [h]
    · simp [hlow h]

end Bits
