-- SUMMARY: A sequence held in a ring of cells, from a position on and round the end: appending, dropping and writing elsewhere.
import Mathlib.Data.List.Basic
import Mathlib.Data.Nat.ModEq

/-!
# Rings of cells

The cells of a ring are counted modulo their number, so a sequence that reaches the
last cell goes on in the first one. A position may stand behind the last cell, which is
the same place as the first one.
-/

namespace Ring

variable {α : Type*} {ring items xs ys : List α} {pos pos' : Nat} {x : α}

/-- The cells from `pos` on hold `items`. -/
def Holds (ring : List α) (pos : Nat) (items : List α) : Prop :=
  ∀ j, j < items.length → ring[(pos + j) % ring.length]? = items[j]?

theorem holds_nil : Holds ring pos ([] : List α) := by
  intro j hj
  exact absurd hj (Nat.not_lt_zero j)

/-- Only the place on the ring matters. -/
theorem Holds.congr (h : Holds ring pos items) (hpos : pos' % ring.length = pos % ring.length) :
    Holds ring pos' items := by
  intro j hj
  rw [Nat.add_mod, hpos, ← Nat.add_mod]
  exact h j hj

theorem Holds.left (h : Holds ring pos (xs ++ ys)) : Holds ring pos xs := by
  intro j hj
  have hlt : j < (xs ++ ys).length := by
    rw [List.length_append]
    omega
  rw [h j hlt, List.getElem?_append_left hj]

theorem Holds.right (h : Holds ring pos (xs ++ ys)) : Holds ring (pos + xs.length) ys := by
  intro j hj
  have hlt : xs.length + j < (xs ++ ys).length := by
    rw [List.length_append]
    omega
  rw [Nat.add_assoc, h _ hlt, List.getElem?_append_right (Nat.le_add_right _ _), Nat.add_sub_cancel_left]

/-- The element at the front of what is left. -/
theorem Holds.getElem?_eq (h : Holds ring pos items) {j : Nat} (hj : j < items.length) {cell : Nat}
    (hcell : (pos + j) % ring.length = cell) : ring[cell]? = items[j]? := by
  rw [← hcell]
  exact h j hj

/-- Cells at different distances below the number of cells are different. -/
theorem place_ne {n i j : Nat} (hi : i < n) (hj : j < n) (hij : i ≠ j) : (pos + i) % n ≠ (pos + j) % n := by
  intro h
  have heq : i % n = j % n := Nat.ModEq.add_left_cancel' pos h
  rw [Nat.mod_eq_of_lt hi, Nat.mod_eq_of_lt hj] at heq
  exact hij heq

/-- The next element goes to the cell behind those that are held, if there is one. -/
theorem Holds.set_next (h : Holds ring pos items) (hroom : items.length < ring.length) {cell : Nat}
    (hcell : (pos + items.length) % ring.length = cell) : Holds (ring.set cell x) pos (items ++ [x]) := by
  intro j hj
  rw [List.length_append, List.length_singleton] at hj
  rw [List.length_set]
  have hlast : j < items.length ∨ j = items.length := by omega
  rcases hlast with hlt | rfl
  · have hne : (pos + items.length) % ring.length ≠ (pos + j) % ring.length :=
      place_ne hroom (Nat.lt_trans hlt hroom) (Nat.ne_of_gt hlt)
    rw [hcell] at hne
    rw [List.getElem?_set_ne hne, h j hlt, List.getElem?_append_left hlt]
  · have hlt : cell < ring.length := by
      rw [← hcell]
      exact Nat.mod_lt _ (Nat.zero_lt_of_lt hroom)
    rw [hcell, List.getElem?_set_self hlt, List.getElem?_append_right (Nat.le_refl _), Nat.sub_self]
    rfl

/-- How far one position is behind another, if that is less than the number of cells. -/
theorem distance_eq {n first last t : Nat} (hfirst : first ≤ n) (ht : t < n) (h : (first + t) % n = last % n) :
    (last + n - first) % n = t := by
  have hsum : (last + n - first + first) % n = (t + first) % n := by
    rw [Nat.sub_add_cancel (by omega), Nat.add_mod_right, ← h, Nat.add_comm]
  have heq : (last + n - first) % n = t % n := Nat.ModEq.add_right_cancel' first hsum
  rw [heq, Nat.mod_eq_of_lt ht]

end Ring
