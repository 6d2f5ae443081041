-- SUMMARY: Shifting loops over a block of cells, what they leave in each cell, and how they keep a sorted prefix sorted.
import Mathlib.Logic.Function.Basic
import Mathlib.Order.Monotone.Defs
import Mathlib.Order.Interval.Set.Defs
import Mathlib.Order.Lattice
import Mathlib.Order.Nat

/-!
# Blocks of cells

A block is a function from cell numbers to contents, of which only a prefix is
in use. A program makes room in the prefix, or closes a gap in it, with a loop
that moves one cell at a time. This file gives the two loops, their effect on
each cell, and their effect on a prefix that is sorted by a key.
-/

namespace Cells

variable {α β : Type*}

/-! ## Moving cells -/

/-- `for(i = last; i > pos; --i) b[i] = b[i - 1];` -/
def moveUp (b : Nat → α) (pos : Nat) : Nat → Nat → α
  | 0 => b
  | last + 1 =>
    if pos < last + 1 then moveUp (Function.update b (last + 1) (b last)) pos last else b

/-- `for(i = pos; i < pos + count; ++i) b[i] = b[i + 1];` -/
def moveDown (b : Nat → α) (pos : Nat) : Nat → Nat → α
  | 0 => b
  | count + 1 => moveDown (Function.update b pos (b (pos + 1))) (pos + 1) count

theorem moveUp_apply (b : Nat → α) (pos last i : Nat) :
    moveUp b pos last i = if pos < i ∧ i ≤ last then b (i - 1) else b i := by
  induction last generalizing b with
  | zero =>
    have : ¬(pos < i ∧ i ≤ 0) := by omega
    simp only [moveUp, if_neg this]
  | succ last ih =>
    unfold moveUp
    split
    · rw [ih]
      by_cases hi : i = last + 1
      · subst hi
        have hout : ¬(pos < last + 1 ∧ last + 1 ≤ last) := by omega
        have hin : pos < last + 1 ∧ last + 1 ≤ last + 1 := by omega
        rw [if_neg hout, if_pos hin, Function.update_self, Nat.add_sub_cancel]
      · have hprev : i ≤ last → i - 1 ≠ last + 1 := by omega
        by_cases hin : pos < i ∧ i ≤ last
        · have hin' : pos < i ∧ i ≤ last + 1 := by omega
          rw [if_pos hin, if_pos hin', Function.update_of_ne (hprev hin.2)]
        · have hin' : ¬(pos < i ∧ i ≤ last + 1) := by omega
          rw [if_neg hin, if_neg hin', Function.update_of_ne hi]
    · have : ¬(pos < i ∧ i ≤ last + 1) := by omega
      rw [if_neg this]

theorem moveDown_apply (b : Nat → α) (pos count i : Nat) :
    moveDown b pos count i = if pos ≤ i ∧ i < pos + count then b (i + 1) else b i := by
  induction count generalizing b pos with
  | zero =>
    have : ¬(pos ≤ i ∧ i < pos + 0) := by omega
    rw [moveDown, if_neg this]
  | succ count ih =>
    rw [moveDown, ih]
    by_cases hi : i = pos
    · subst hi
      have hout : ¬(i + 1 ≤ i ∧ i < i + 1 + count) := by omega
      have hin : i ≤ i ∧ i < i + (count + 1) := by omega
      rw [if_neg hout, if_pos hin, Function.update_self]
    · have hnext : pos + 1 ≤ i → i + 1 ≠ pos := by omega
      by_cases hin : pos + 1 ≤ i ∧ i < pos + 1 + count
      · have hin' : pos ≤ i ∧ i < pos + (count + 1) := by omega
        rw [if_pos hin, if_pos hin', Function.update_of_ne (hnext hin.1)]
      · have hin' : ¬(pos ≤ i ∧ i < pos + (count + 1)) := by omega
        rw [if_neg hin, if_neg hin', Function.update_of_ne hi]

/-! ## Opening and closing a gap -/

/-- A prefix of `n` cells after `x` has been written at `pos`, the cells from
`pos` on moved up by one. -/
def insertAt (b : Nat → α) (n pos : Nat) (x : α) : Nat → α :=
  Function.update (moveUp b pos n) pos x

/-- A prefix of `n` cells after cell `pos` has been overwritten by its
successors, each moved down by one. -/
def eraseAt (b : Nat → α) (n pos : Nat) : Nat → α :=
  moveDown b pos (n - 1 - pos)

theorem insertAt_apply (b : Nat → α) (n pos : Nat) (x : α) (i : Nat) :
    insertAt b n pos x i =
      if i = pos then x else if pos < i ∧ i ≤ n then b (i - 1) else b i := by
  by_cases hi : i = pos
  · subst hi
    simp [insertAt]
  · rw [insertAt, Function.update_of_ne hi, moveUp_apply, if_neg hi]

theorem eraseAt_apply (b : Nat → α) (n pos i : Nat) :
    eraseAt b n pos i = if pos ≤ i ∧ i < pos + (n - 1 - pos) then b (i + 1) else b i :=
  moveDown_apply b pos (n - 1 - pos) i

@[simp] theorem insertAt_self (b : Nat → α) (n pos : Nat) (x : α) :
    insertAt b n pos x pos = x := by simp [insertAt]

/-- The cells in use after an insertion hold the new content and the old ones,
and nothing is lost. -/
theorem exists_insertAt {b : Nat → α} {n pos : Nat} {x : α} (hpos : pos ≤ n) {p : α → Prop} :
    (∃ i < n + 1, p (insertAt b n pos x i)) ↔ p x ∨ ∃ i < n, p (b i) := by
  constructor
  · rintro ⟨i, hi, hp⟩
    rw [insertAt_apply] at hp
    split at hp
    · exact .inl hp
    · split at hp
      · exact .inr ⟨i - 1, by omega, hp⟩
      · exact .inr ⟨i, by omega, hp⟩
  · rintro (hp | ⟨i, hi, hp⟩)
    · exact ⟨pos, by omega, by simpa using hp⟩
    · by_cases hlt : i < pos
      · refine ⟨i, by omega, ?_⟩
        rw [insertAt_apply, if_neg (by omega), if_neg (by omega)]
        exact hp
      · refine ⟨i + 1, by omega, ?_⟩
        rw [insertAt_apply, if_neg (by omega), if_pos (by omega)]
        exact hp

/-- The cells in use after an erasure are the old ones without cell `pos`. -/
theorem exists_eraseAt {b : Nat → α} {n pos : Nat} (hpos : pos < n) {p : α → Prop} :
    (∃ i < n - 1, p (eraseAt b n pos i)) ↔ ∃ i < n, i ≠ pos ∧ p (b i) := by
  constructor
  · rintro ⟨i, hi, hp⟩
    rw [eraseAt_apply] at hp
    split at hp
    · exact ⟨i + 1, by omega, by omega, hp⟩
    · exact ⟨i, by omega, by omega, hp⟩
  · rintro ⟨i, hi, hne, hp⟩
    by_cases hlt : i < pos
    · refine ⟨i, by omega, ?_⟩
      rw [eraseAt_apply, if_neg (by omega)]
      exact hp
    · refine ⟨i - 1, by omega, ?_⟩
      rw [eraseAt_apply, if_pos (by omega), Nat.sub_add_cancel (by omega)]
      exact hp

/-- Where the content of a cell after an insertion was before it. -/
theorem insertAt_source (b : Nat → α) {n pos i : Nat} (x : α) (hi : i < n + 1) (hpos : pos ≤ n)
    (hne : i ≠ pos) :
    ∃ k < n, insertAt b n pos x i = b k ∧ (i < pos ∧ k = i ∨ pos < i ∧ k + 1 = i) := by
  rw [insertAt_apply, if_neg hne]
  by_cases hlt : i < pos
  · rw [if_neg (by omega)]
    exact ⟨i, by omega, rfl, .inl ⟨hlt, rfl⟩⟩
  · rw [if_pos (by omega)]
    exact ⟨i - 1, by omega, rfl, .inr ⟨by omega, by omega⟩⟩

/-- Where the content of a cell after an erasure was before it. -/
theorem eraseAt_source (b : Nat → α) (pos : Nat) {n i : Nat} (hi : i < n - 1) :
    ∃ k < n, eraseAt b n pos i = b k ∧ (i < pos ∧ k = i ∨ pos ≤ i ∧ k = i + 1) := by
  rw [eraseAt_apply]
  by_cases hlt : i < pos
  · rw [if_neg (by omega)]
    exact ⟨i, by omega, rfl, .inl ⟨hlt, rfl⟩⟩
  · rw [if_pos (by omega)]
    exact ⟨i + 1, by omega, rfl, .inr ⟨by omega, rfl⟩⟩

/-! ## Distinct keys -/

/-- No two of the first `n` cells have the same key. -/
def Distinct (key : α → β) (b : Nat → α) (n : Nat) : Prop :=
  ∀ i < n, ∀ j < n, key (b i) = key (b j) → i = j

theorem Distinct.insertAt {key : α → β} {b : Nat → α} {n pos : Nat} {x : α}
    (h : Distinct key b n) (hpos : pos ≤ n) (hx : ∀ i < n, key (b i) ≠ key x) :
    Distinct key (insertAt b n pos x) (n + 1) := by
  intro i hi j hj heq
  by_cases hip : i = pos
  · by_cases hjp : j = pos
    · omega
    · obtain ⟨k, hk, hbk, -⟩ := insertAt_source b x hj hpos hjp
      rw [hbk, hip, insertAt_self] at heq
      exact absurd heq.symm (hx k hk)
  · obtain ⟨k, hk, hbk, hki⟩ := insertAt_source b x hi hpos hip
    by_cases hjp : j = pos
    · rw [hbk, hjp, insertAt_self] at heq
      exact absurd heq (hx k hk)
    · obtain ⟨l, hl, hbl, hlj⟩ := insertAt_source b x hj hpos hjp
      rw [hbk, hbl] at heq
      have := h k hk l hl heq
      omega

theorem Distinct.eraseAt {key : α → β} {b : Nat → α} {n pos : Nat} (h : Distinct key b n) :
    Distinct key (eraseAt b n pos) (n - 1) := by
  intro i hi j hj heq
  obtain ⟨k, hk, hbk, hki⟩ := eraseAt_source b pos hi
  obtain ⟨l, hl, hbl, hlj⟩ := eraseAt_source b pos hj
  rw [hbk, hbl] at heq
  have := h k hk l hl heq
  omega

/-! ## Sorted prefixes -/

variable [Preorder β]

/-- The first `n` cells are sorted by `key`. -/
def Sorted (key : α → β) (b : Nat → α) (n : Nat) : Prop :=
  MonotoneOn (fun i => key (b i)) (Set.Iio n)

theorem Sorted.le {key : α → β} {b : Nat → α} {n i j : Nat} (h : Sorted key b n)
    (hij : i ≤ j) (hj : j < n) : key (b i) ≤ key (b j) :=
  h (Set.mem_Iio.mpr (by omega)) (Set.mem_Iio.mpr hj) hij

theorem Sorted.of_le {key : α → β} {b : Nat → α} {n : Nat}
    (h : ∀ i j, i ≤ j → j < n → key (b i) ≤ key (b j)) : Sorted key b n :=
  fun i _ j hj hij => h i j hij (Set.mem_Iio.mp hj)

/-- Writing at a position whose predecessors are no greater and whose
successors are no less keeps the prefix sorted. -/
theorem Sorted.insertAt {key : α → β} {b : Nat → α} {n pos : Nat} {x : α}
    (h : Sorted key b n) (hpos : pos ≤ n)
    (hbelow : ∀ i < pos, key (b i) ≤ key x)
    (habove : ∀ i, pos ≤ i → i < n → key x ≤ key (b i)) :
    Sorted key (insertAt b n pos x) (n + 1) := by
  refine Sorted.of_le fun i j hij hj => ?_
  rw [insertAt_apply, insertAt_apply]
  by_cases hi : i = pos
  · rw [if_pos hi]
    by_cases hj' : j = pos
    · rw [if_pos hj']
    · rw [if_neg hj', if_pos (by omega)]
      exact habove _ (by omega) (by omega)
  · rw [if_neg hi]
    by_cases hj' : j = pos
    · rw [if_pos hj', if_neg (by omega)]
      exact hbelow _ (by omega)
    · rw [if_neg hj']
      split <;> split <;> exact h.le (by omega) (by omega)

/-- Closing a gap keeps the prefix sorted. -/
theorem Sorted.eraseAt {key : α → β} {b : Nat → α} {n pos : Nat} (h : Sorted key b n) :
    Sorted key (eraseAt b n pos) (n - 1) := by
  refine Sorted.of_le fun i j hij hj => ?_
  rw [eraseAt_apply, eraseAt_apply]
  split <;> split <;> exact h.le (by omega) (by omega)

end Cells
