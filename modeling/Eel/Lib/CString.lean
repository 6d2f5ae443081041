-- SUMMARY: Comparison of counted data by a function for zero terminated strings.
import Mathlib.Data.List.Basic

/-!
# Zero terminated strings

Data with a count can contain zeros. A comparison meant for zero terminated
strings sees such data up to its first zero only.
-/

namespace CString

variable {α : Type*} [DecidableEq α] (nul : α)

/-- `strncmp(a, b, n) == 0`. Past its end a list reads as its terminator. -/
def strncmpEq : List α → List α → Nat → Bool
  | _, _, 0 => true
  | a, b, n + 1 =>
    if a.headD nul = b.headD nul then
      if a.headD nul = nul then true else strncmpEq a.tail b.tail n
    else false

/-- The part that a string function sees. -/
def beforeZero (a : List α) : List α := a.takeWhile (· ≠ nul)

/-- Data of one length compares equal when what is seen of it is equal, whatever
follows it. -/
theorem strncmpEq_iff {a b : List α} (t : List α) (hlen : a.length = b.length) :
    strncmpEq nul (a ++ t) b b.length = true ↔ beforeZero nul a = beforeZero nul b := by
  induction a generalizing b with
  | nil =>
    obtain rfl : b = [] := List.length_eq_zero_iff.mp hlen.symm
    simp [strncmpEq]
  | cons x a ih =>
    cases b with
    | nil => cases hlen
    | cons y b =>
      have ih' := ih (Nat.succ.inj hlen)
      simp only [List.cons_append, List.length_cons, strncmpEq, List.headD_cons,
        List.tail_cons, beforeZero, List.takeWhile_cons] at ih' ⊢
      by_cases hxy : x = y
      · subst hxy
        by_cases hx : x = nul
        · simp [hx]
        · simpa [hx] using ih'
      · by_cases hx : x = nul
        · have hy : y ≠ nul := fun hy => hxy (hx.trans hy.symm)
          simp [hx, hy, Ne.symm hy]
        · by_cases hy : y = nul <;> simp [hxy, hx, hy]

end CString
