-- SUMMARY: Counting from one number to another by steps up or down: which numbers come by, one after the other.
import Mathlib.Algebra.Order.Group.Unbundled.Int
import Mathlib.Tactic.Ring

/-!
# Counting

The numbers from `a` on by steps of `step` that are not beyond `b`. The sign of the step tells on which
side of `b` that is.
-/

namespace Counting

/-- Beyond the bound. -/
def Past (b step v : Int) : Prop := if step < 0 then v < b else b < v

instance {b step v : Int} : Decidable (Past b step v) :=
  inferInstanceAs (Decidable (if step < 0 then v < b else b < v))

/-- How many numbers come by. -/
def count (a b step : Int) : Nat :=
  if Past b step a then 0 else (b - a).natAbs / step.natAbs + 1

/-- The numbers that come by. -/
def values (a b step : Int) : List Int :=
  (List.range (count a b step)).map fun k : Nat => a + k * step

variable {a b step v : Int}

theorem mul_step (k : Nat) :
    k * step = if step < 0 then -((k * step.natAbs : Nat) : Int) else (k * step.natAbs : Nat) := by
  split
  · rw [Int.natCast_mul, Int.ofNat_natAbs_of_nonpos (by omega)]
    ring
  · rw [Int.natCast_mul, Int.natAbs_of_nonneg (by omega)]

/-- The steps that stay within the bound are those of less than its distance. -/
theorem not_past_add (k : Nat) :
    ¬ Past b step (a + k * step) ↔ ¬ Past b step a ∧ k * step.natAbs ≤ (b - a).natAbs := by
  rw [mul_step k]
  generalize k * step.natAbs = d
  unfold Past
  split <;> omega

theorem lt_count_iff (hstep : step ≠ 0) (k : Nat) :
    k < count a b step ↔ ¬ Past b step (a + k * step) := by
  rw [not_past_add, count]
  split
  · simp [*]
  · simp [*, Nat.lt_succ_iff, Nat.le_div_iff_mul_le (Int.natAbs_pos.mpr hstep)]

/-- The numbers are what the steps lead to from `a` within the bound. -/
theorem mem_values_iff (hstep : step ≠ 0) :
    v ∈ values a b step ↔ ¬ Past b step v ∧ ∃ k : Nat, v = a + k * step := by
  simp only [values, List.mem_map, List.mem_range, lt_count_iff hstep]
  constructor
  · rintro ⟨k, hk, rfl⟩
    exact ⟨hk, k, rfl⟩
  · rintro ⟨hk, k, rfl⟩
    exact ⟨k, hk, rfl⟩

/-- They are on the way from `a` to `b`. -/
theorem mem_values_bounds (hstep : step ≠ 0) (h : v ∈ values a b step) : min a b ≤ v ∧ v ≤ max a b := by
  obtain ⟨hv, k, rfl⟩ := (mem_values_iff hstep).mp h
  obtain ⟨ha, hk⟩ := (not_past_add k).mp hv
  rw [mul_step k]
  generalize k * step.natAbs = d at hk
  unfold Past at ha
  by_cases hneg : step < 0
  · rw [if_pos hneg] at ha ⊢
    omega
  · rw [if_neg hneg] at ha ⊢
    omega

theorem values_of_past (h : Past b step a) : values a b step = [] := by
  rw [values, count, if_pos h]
  rfl

/-- From a number within the bound, it is one more than from the next number. -/
theorem count_of_not_past (hstep : step ≠ 0) (h : ¬ Past b step a) :
    count a b step = count (a + step) b step + 1 := by
  refine eq_of_forall_lt_iff fun k => ?_
  rw [lt_count_iff hstep]
  cases k with
  | zero => simpa using h
  | succ k =>
    have hk : a + (k + 1 : Nat) * step = a + step + k * step := by
      push_cast
      ring
    rw [hk, ← lt_count_iff hstep, Nat.succ_lt_succ_iff]

theorem values_of_not_past (hstep : step ≠ 0) (h : ¬ Past b step a) :
    values a b step = a :: values (a + step) b step := by
  rw [values, count_of_not_past hstep h, List.range_succ_eq_map, List.map_cons, List.map_map, values]
  congr 1
  · simp
  · refine List.map_congr_left fun k _ => ?_
    simp only [Function.comp_apply, Nat.succ_eq_add_one, Int.natCast_add, Int.natCast_one]
    ring

theorem values_eq_nil_iff : values a b step = [] ↔ Past b step a := by
  rw [values, List.map_eq_nil_iff, List.range_eq_nil, count]
  split <;> simp_all

/-- No more than one number comes by. -/
theorem length_values_le_one_iff (hstep : step ≠ 0) :
    (values a b step).length ≤ 1 ↔ Past b step a ∨ Past b step (a + step) := by
  by_cases h : Past b step a
  · simp [values_of_past h, h]
  · simp [values_of_not_past hstep h, values_eq_nil_iff, h]

end Counting
