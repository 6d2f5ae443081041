-- SUMMARY: Linear and binary search of a sorted prefix by a key that may repeat, and the scan of the group of equal keys found.
import Eel.Lib.Cells
import Mathlib.Order.Lattice

/-!
# Searching a sorted prefix

Keys may repeat, so a search answers with some cell of the group that holds the
key, or with the place where the key belongs. Both answers share one integer: a
hit is the cell's number, a miss the bitwise complement of the place.
-/

namespace Search

open Cells (Sorted)

variable {α β : Type*} [LinearOrder β]

/-! ## The searches -/

/-- Walk up from `first` over `rest` cells while their keys are below `h`. -/
def linearFind (f : Nat → β) (h : β) (first : Nat) : Nat → Int
  | 0 => ~~~(first : Int)
  | rest + 1 =>
    if f first < h then linearFind f h (first + 1) rest
    else if h < f first then ~~~(first : Int)
    else first

/-- Binary search of the cells from `low` to `high`. It stops at the first cell
probed that holds `h`. -/
def binaryFind (f : Nat → β) (h : β) (low high : Int) : Int :=
  if low ≤ high then
    let mid := (low + high + 1) / 2
    if h < f mid.toNat then binaryFind f h low (mid - 1)
    else if f mid.toNat < h then binaryFind f h (mid + 1) high
    else mid
  else ~~~((low + high + 1) / 2)
termination_by (high + 1 - low).toNat

/-- `while((first > 0) && (f[first - 1] == h)) --first;` -/
def backUp (f : Nat → β) (h : β) : Nat → Nat
  | 0 => 0
  | first + 1 => if f first = h then backUp f h first else first + 1

/-- The first of the `rest` cells from `i` on that `p` accepts, given up at the
first cell whose key is not `h`. -/
def groupFind (p : Nat → Bool) (f : Nat → β) (h : β) (i : Nat) : Nat → Option Nat
  | 0 => none
  | rest + 1 => if f i = h then
      if p i then some i else groupFind p f h (i + 1) rest
    else none

/-! ## What they find -/

/-- `p` separates the cells below `h` from those that are not. -/
structure Place (f : Nat → β) (n : Nat) (h : β) (p : Nat) : Prop where
  le : p ≤ n
  below : ∀ i < p, f i < h
  above : ∀ i, p ≤ i → i < n → h ≤ f i

/-- What a search for `h` answers: a cell that holds it, or the complement of
the place where it belongs when no cell does. -/
inductive Answer (f : Nat → β) (n : Nat) (h : β) : Int → Prop
  | hit {i : Nat} : i < n → f i = h → Answer f n h i
  | miss {p : Nat} : Place f n h p → (∀ i < n, f i ≠ h) → Answer f n h (~~~(p : Int))

/-- As `Answer`, where a hit is the first cell of its group. -/
inductive FirstAnswer (f : Nat → β) (n : Nat) (h : β) : Int → Prop
  | hit {i : Nat} : Place f n h i → i < n → f i = h → FirstAnswer f n h i
  | miss {p : Nat} : Place f n h p → (∀ i < n, f i ≠ h) → FirstAnswer f n h (~~~(p : Int))

variable {f : Nat → β} {n : Nat} {h : β}

/-- At a place, no cell holds `h` if the cell there does not. -/
theorem Place.absent {p : Nat} (hp : Place f n h p) (hs : Sorted id f n)
    (hlt : p < n → h < f p) : ∀ i < n, f i ≠ h := by
  intro i hi
  by_cases hip : i < p
  · exact ne_of_lt (hp.below i hip)
  · have hpn : p < n := by omega
    exact ne_of_gt (lt_of_lt_of_le (hlt hpn) (hs.le (by omega) hi))

theorem linearFind_answer (hs : Sorted id f n) (first rest : Nat) (hn : first + rest = n)
    (hbelow : ∀ i < first, f i < h) : FirstAnswer f n h (linearFind f h first rest) := by
  induction rest generalizing first with
  | zero =>
    have hp : Place f n h first := ⟨by omega, hbelow, fun i _ _ => by omega⟩
    exact .miss hp (hp.absent hs fun _ => by omega)
  | succ rest ih =>
    unfold linearFind
    split
    · rename_i hlt
      refine ih (first + 1) (by omega) fun i hi => ?_
      rcases Nat.lt_succ_iff_lt_or_eq.mp hi with hi | rfl
      · exact hbelow i hi
      · exact hlt
    · rename_i hnlt
      have hle : h ≤ f first := not_lt.mp hnlt
      have hp : Place f n h first :=
        ⟨by omega, hbelow, fun i hi hin => le_trans hle (hs.le hi hin)⟩
      split
      · rename_i hgt
        exact .miss hp (hp.absent hs fun _ => hgt)
      · rename_i hngt
        exact .hit hp (by omega) (le_antisymm (not_lt.mp hngt) hle)

theorem binaryFind_answer (hs : Sorted id f n) {low high : Int} (hlow : 0 ≤ low)
    (hhigh : high < n) (hord : low ≤ high + 1)
    (hbelow : ∀ i : Nat, i < low → f i < h)
    (habove : ∀ i : Nat, high < i → i < n → h < f i) :
    Answer f n h (binaryFind f h low high) := by
  fun_induction binaryFind f h low high with
  | case1 low high hle mid hlt ih =>
    have hmid : low ≤ mid ∧ mid ≤ high := by omega
    refine ih hlow (by omega) (by omega) hbelow fun i hi hin => ?_
    exact lt_of_lt_of_le hlt (hs.le (i := mid.toNat) (by omega) hin)
  | case2 low high hle mid _ hlt ih =>
    have hmid : low ≤ mid ∧ mid ≤ high := by omega
    refine ih (by omega) hhigh (by omega) (fun i hi => ?_) habove
    exact lt_of_le_of_lt (hs.le (j := mid.toNat) (by omega) (by omega)) hlt
  | case3 low high hle mid hnlt hngt =>
    have hmid : low ≤ mid ∧ mid ≤ high := by omega
    have heq : (mid.toNat : Int) = mid := Int.toNat_of_nonneg (by omega)
    rw [← heq]
    exact .hit (by omega) (le_antisymm (not_lt.mp hnlt) (not_lt.mp hngt))
  | case4 low high hnle =>
    -- The interval is empty: everything below `low` is below `h`, the rest above it.
    have heq : (low + high + 1) / 2 = (low.toNat : Int) := by omega
    rw [heq]
    have hp : Place f n h low.toNat :=
      ⟨by omega, fun i hi => hbelow i (by omega),
        fun i hi hin => le_of_lt (habove i (by omega) hin)⟩
    exact .miss hp (hp.absent hs fun hlt => habove _ (by omega) hlt)

theorem backUp_place (hs : Sorted id f n) (first : Nat) (hn : first < n)
    (hf : f first = h) :
    Place f n h (backUp f h first) ∧ backUp f h first < n ∧ f (backUp f h first) = h := by
  induction first with
  | zero =>
    exact ⟨⟨by simp [backUp], fun i hi => by simp [backUp] at hi,
      fun i _ hin => hf ▸ hs.le (Nat.zero_le i) hin⟩, hn, hf⟩
  | succ first ih =>
    unfold backUp
    split
    · rename_i heq
      exact ih (by omega) heq
    · rename_i hne
      have hlt : f first < h := lt_of_le_of_ne (hf ▸ hs.le (Nat.le_succ first) hn) hne
      refine ⟨⟨by omega, fun i hi => ?_, fun i hi hin => hf ▸ hs.le hi hin⟩, hn, hf⟩
      exact lt_of_le_of_lt (hs.le (Nat.le_of_lt_succ hi) (by omega)) hlt

/-- A binary search followed by backing up answers with the start of the group. -/
theorem Answer.backUp (hs : Sorted id f n) {i : Nat} (ha : Answer f n h i) :
    FirstAnswer f n h (backUp f h i : Nat) := by
  generalize hr : (i : Int) = r at ha
  cases ha with
  | hit hin hi =>
    obtain rfl : i = _ := Int.ofNat.inj hr
    obtain ⟨hp, hlt, heq⟩ := backUp_place hs i hin hi
    exact .hit hp hlt heq
  | miss hp _ => cases hr

theorem groupFind_some {p : Nat → Bool} {i rest j : Nat}
    (hj : groupFind p f h i rest = some j) : i ≤ j ∧ j < i + rest ∧ f j = h ∧ p j := by
  induction rest generalizing i with
  | zero => simp [groupFind] at hj
  | succ rest ih =>
    unfold groupFind at hj
    split at hj
    · rename_i hi
      split at hj
      · rename_i hp
        obtain rfl : i = j := by simpa using hj
        exact ⟨le_refl i, by omega, hi, hp⟩
      · obtain ⟨h1, h2, h3⟩ := ih hj
        exact ⟨by omega, by omega, h3⟩
    · cases hj

/-- When the scan of a group finds nothing, no cell of the group is accepted. -/
theorem groupFind_none (hs : Sorted id f n) {p : Nat → Bool} {i rest : Nat}
    (hn : i + rest = n) (hi : ∀ j, i ≤ j → j < n → h ≤ f j)
    (hnone : groupFind p f h i rest = none) : ∀ j, i ≤ j → j < n → f j = h → p j = false := by
  induction rest generalizing i with
  | zero => intro j hij hjn; omega
  | succ rest ih =>
    unfold groupFind at hnone
    intro j hij hjn hj
    split at hnone
    · split at hnone
      · cases hnone
      · rename_i hp
        rcases Nat.eq_or_lt_of_le hij with rfl | hlt
        · simpa using hp
        · exact ih (by omega) (fun k hk hkn => hi k (by omega) hkn) hnone j hlt hjn hj
    · rename_i hne
      have hlt : h < f i := lt_of_le_of_ne (hi i (le_refl i) (by omega)) (Ne.symm hne)
      exact absurd hj (ne_of_gt (lt_of_lt_of_le hlt (hs.le hij hjn)))

end Search
