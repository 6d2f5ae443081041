-- SUMMARY: Which sizes eel_calcresize has a capacity for, in one call and in a series of calls.
import Eel.Core.Buffer

/-!
# The resize calculator

Growth goes from one size to the next until the request fits, whatever the request is. So
there is a last size that it gets to before a product or a sum is too large for an `int`,
and a request has a capacity exactly if it is not more than that.
-/

namespace Eel

/-- The last size that growth from `n` gets to. -/
def lastSize (base : Nat) (hbase : 0 < base) (n : Nat) : Nat :=
  if n * 3 < 2 ^ 31 ∧ ((n * 3) >>> 1) + base < 2 ^ 31 then lastSize base hbase (((n * 3) >>> 1) + base) else n
termination_by 2 ^ 31 - n
decreasing_by rw [Nat.shiftRight_eq_div_pow]; omega

/-- A request that `eel_calcresize` has a capacity for. -/
def HasCapacity (base : Nat) (hbase : 0 < base) (current : Nat) (requested : Int) : Prop :=
  requested ≤ current ∨ requested ≤ lastSize base hbase (if current ≠ 0 then current else base)

/-- Calls that each start from what the one before has returned. -/
def resizes? (base : Nat) (hbase : 0 < base) : Nat → List Int → Option (List Nat)
  | _, [] => some []
  | current, requested :: rest =>
    (calcresize? base hbase current requested).bind fun n => (resizes? base hbase n rest).map (n :: ·)

/-- Every call of a series is for a request that there is a capacity for. -/
def HaveCapacity (base : Nat) (hbase : 0 < base) : Nat → List Int → Prop
  | _, [] => True
  | current, requested :: rest =>
    HasCapacity base hbase current requested ∧
      ∀ n, calcresize? base hbase current requested = some n → HaveCapacity base hbase n rest

section CalcResize

variable {base current n k : Nat} {hbase : 0 < base} {requested : Int}

/-! ## One call -/

theorem le_lastSize : n ≤ lastSize base hbase n := by
  fun_induction lastSize base hbase n with
  | case1 n hfits ih =>
    have hshift : (n * 3) >>> 1 = n * 3 / 2 := Nat.shiftRight_eq_div_pow _ 1
    omega
  | case2 n hover => exact Nat.le_refl n

/-- The loop ends without an overflow exactly if the last size is enough. -/
theorem exists_grow?_iff {r : Nat} : (∃ k, grow? base hbase r n = some k) ↔ r ≤ lastSize base hbase n := by
  fun_induction grow? base hbase r n with
  | case1 n hlt hfits ih =>
    rw [lastSize, if_pos hfits]
    exact ih
  | case2 n hlt hover =>
    rw [lastSize, if_neg hover]
    exact iff_of_false (by rintro ⟨_, h⟩; cases h) (Nat.not_le.mpr hlt)
  | case3 n hge => exact iff_of_true ⟨n, rfl⟩ (Nat.le_trans (Nat.not_lt.mp hge) le_lastSize)

theorem exists_calcresize?_iff :
    (∃ k, calcresize? base hbase current requested = some k) ↔ HasCapacity base hbase current requested := by
  unfold HasCapacity
  rcases Int.lt_or_le current requested with hlt | hle
  · unfold calcresize?
    rw [if_pos hlt, exists_grow?_iff]
    omega
  · obtain ⟨k, hk, -⟩ : ∃ k, calcresize? base hbase current requested = some k ∧ (k ≤ current ∨ k = base) :=
      calcresize?_of_le hle
    exact iff_of_true ⟨k, hk⟩ (.inl hle)

/-- Growth goes on at least to two thirds of what an `int` can be, less the base. -/
theorem lastSize_large : 2 ^ 31 ≤ lastSize base hbase n * 3 ∨ 2 ^ 31 ≤ lastSize base hbase n * 3 / 2 + base := by
  fun_induction lastSize base hbase n with
  | case1 n hfits ih => exact ih
  | case2 n hover =>
    rw [Nat.shiftRight_eq_div_pow] at hover
    omega

/-- And it ends when half as much again is more than an `int` can be. -/
theorem lastSize_lt (hn : n < 2 ^ 30 + base) : lastSize base hbase n < 2 ^ 30 + base := by
  fun_induction lastSize base hbase n with
  | case1 n hfits ih =>
    refine ih ?_
    rw [Nat.shiftRight_eq_div_pow]
    omega
  | case2 n hover => exact hn

/-- Whatever the result is, it is large enough. -/
theorem calcresize?_capacity_iff (hb : base < 2 ^ 31) (hcurrent : current < 2 ^ 31) :
    (∃ n, calcresize? base hbase current requested = some n ∧ max requested 1 ≤ n ∧ n < 2 ^ 31) ↔
      HasCapacity base hbase current requested := by
  rw [← exists_calcresize?_iff]
  constructor
  · rintro ⟨n, hn, -⟩
    exact ⟨n, hn⟩
  · rintro ⟨n, hn⟩
    obtain ⟨hle, hpos, hlt⟩ := calcresize?_spec hn hcurrent hb
    exact ⟨n, hn, Int.max_le.mpr ⟨hle, by exact_mod_cast hpos⟩, hlt⟩

/-! ## Series of calls -/

/-- A series has results exactly if its first call has one and the calls after it have, from there on. -/
theorem resizes?_cons {rest : List Int} {sizes : List Nat} :
    resizes? base hbase current (requested :: rest) = some sizes ↔
      ∃ n ns, calcresize? base hbase current requested = some n ∧ resizes? base hbase n rest = some ns ∧
        sizes = n :: ns := by
  rw [resizes?, Option.bind_eq_some_iff]
  constructor
  · rintro ⟨n, hn, hrest⟩
    obtain ⟨ns, hns, rfl⟩ := Option.map_eq_some_iff.mp hrest
    exact ⟨n, ns, hn, hns, rfl⟩
  · rintro ⟨n, ns, hn, hns, rfl⟩
    exact ⟨n, hn, Option.map_eq_some_iff.mpr ⟨ns, hns, rfl⟩⟩

theorem resizes?_capacity_iff (hb : base < 2 ^ 31) (hcurrent : current < 2 ^ 31) (requests : List Int) :
    (∃ sizes, resizes? base hbase current requests = some sizes ∧
        List.Forall₂ (fun (requested : Int) (n : Nat) => max requested 1 ≤ n ∧ n < 2 ^ 31) requests sizes) ↔
      HaveCapacity base hbase current requests := by
  induction requests generalizing current with
  | nil => exact iff_of_true ⟨[], rfl, .nil⟩ trivial
  | cons requested rest ih =>
    rw [HaveCapacity, ← calcresize?_capacity_iff hb hcurrent]
    constructor
    · rintro ⟨sizes, hsizes, hall⟩
      obtain ⟨n, ns, hn, hns, rfl⟩ := resizes?_cons.mp hsizes
      obtain ⟨hhead, htail⟩ := List.forall₂_cons.mp hall
      refine ⟨⟨n, hn, hhead⟩, ?_⟩
      intro n' hn'
      obtain rfl : n = n' := Option.some.inj (hn.symm.trans hn')
      exact (ih hhead.2).mp ⟨ns, hns, htail⟩
    · rintro ⟨⟨n, hn, hhead⟩, hrest⟩
      obtain ⟨ns, hns, htail⟩ := (ih hhead.2).mpr (hrest n hn)
      exact ⟨n :: ns, resizes?_cons.mpr ⟨n, ns, hn, hns, rfl⟩, .cons hhead htail⟩

end CalcResize

/-- A call has a result that is large enough exactly if there is a capacity for the request, and so have calls
that each start from what the one before has returned. -/
theorem calcresize_capacity {base : Nat} (hbase : 0 < base) (hb : base < 2 ^ 31) {current : Nat}
    (hcurrent : current < 2 ^ 31) :
    (∀ requested : Int,
      (∃ n, calcresize? base hbase current requested = some n ∧ max requested 1 ≤ n ∧ n < 2 ^ 31) ↔
        HasCapacity base hbase current requested) ∧
    ∀ requests : List Int,
      (∃ sizes, resizes? base hbase current requests = some sizes ∧
          List.Forall₂ (fun (requested : Int) (n : Nat) => max requested 1 ≤ n ∧ n < 2 ^ 31) requests sizes) ↔
        HaveCapacity base hbase current requests := by
  constructor
  · intro requested
    exact calcresize?_capacity_iff hb hcurrent
  · exact resizes?_capacity_iff hb hcurrent

/-- A dynamic string that is made longer twice. -/
theorem calcresize_capacity_twice :
    (∃ sizes, resizes? 32 (by decide) 0 [20, 33] = some sizes ∧
      List.Forall₂ (fun (requested : Int) (n : Nat) => max requested 1 ≤ n ∧ n < 2 ^ 31) [20, 33] sizes) ↔
    HaveCapacity 32 (by decide) 0 [20, 33] :=
  (calcresize_capacity (by decide : 0 < 32) (by decide) (by decide : 0 < 2 ^ 31)).2 [20, 33]

/-- Three times `2 ^ 30` is more than an `int` can be. -/
theorem not_calcresize_capacity :
    ¬ ∀ (base : Nat) (hbase : 0 < base) (current : Nat) (requested : Int), base < 2 ^ 31 → current < 2 ^ 31 →
      0 ≤ requested → requested < 2 ^ 31 →
      ∃ n, calcresize? base hbase current requested = some n ∧ max requested 1 ≤ n ∧ n < 2 ^ 31 := by
  intro h
  obtain ⟨n, hn, -⟩ := h 32 (by decide) (2 ^ 30) (2 ^ 30 + 1) (by decide) (by decide) (by decide) (by decide)
  unfold calcresize? at hn
  rw [if_pos (by decide), if_pos (by decide), grow?, if_pos (by decide), if_neg (by decide)] at hn
  cases hn

end Eel
