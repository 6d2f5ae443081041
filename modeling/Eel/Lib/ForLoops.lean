-- SUMMARY: Loops that can throw: one that ends with the first answer that is not true, and one that changes a state.
import Mathlib.Data.List.Range
import Mathlib.Order.Nat

/-!
# Loops that can throw

A loop of checks is decided by the first one that is not passed. What holds of the state
of a loop before it, and is kept by each turn, holds when it ends.
-/

namespace ForLoops

variable {ε α σ : Type}

/-- `for … if not f(a) return false; return true;` -/
def checkAll (f : α → Except ε Bool) : List α → Except ε Bool
  | [] => .ok true
  | a :: as => do if ← f a then checkAll f as else return false

variable {f : α → Except ε Bool} {a : α} {as bs : List α}

theorem checkAll_cons_true (h : f a = .ok true) : checkAll f (a :: as) = checkAll f as := by
  rw [checkAll, h]
  rfl

theorem checkAll_cons_of_ne (h : f a ≠ .ok true) : checkAll f (a :: as) = f a := by
  rw [checkAll]
  cases hfa : f a with
  | error e => rfl
  | ok b =>
    cases b with
    | false => rfl
    | true => exact absurd hfa h

theorem checkAll_append (h : ∀ a ∈ as, f a = .ok true) : checkAll f (as ++ bs) = checkAll f bs := by
  induction as with
  | nil => rfl
  | cons a as ih =>
    rw [List.cons_append, checkAll_cons_true (h a List.mem_cons_self)]
    exact ih fun b hb => h b (List.mem_cons_of_mem a hb)

theorem checkAll_of_forall (h : ∀ a ∈ as, f a = .ok true) : checkAll f as = .ok true := by
  have happend : checkAll f (as ++ []) = checkAll f [] := checkAll_append h
  rwa [List.append_nil] at happend

variable {g : Nat → Except ε Bool} {n i : Nat}

/-- The first check that is not passed decides. -/
theorem checkAll_first (hi : i < n) (hbefore : ∀ j < i, g j = .ok true) (hne : g i ≠ .ok true) :
    checkAll g (List.range n) = g i := by
  obtain ⟨k, rfl⟩ := Nat.exists_eq_add_of_lt hi
  rw [Nat.add_assoc, List.range_add, List.range_succ_eq_map, List.map_cons, Nat.add_zero,
    checkAll_append fun j hj => hbefore j (List.mem_range.mp hj), checkAll_cons_of_ne hne]

/-- All are passed, or there is a first one that is not. -/
theorem forall_or_first (g : Nat → Except ε Bool) (n : Nat) :
    (∀ i < n, g i = .ok true) ∨ ∃ i < n, (∀ j < i, g j = .ok true) ∧ g i ≠ .ok true := by
  induction n with
  | zero => exact .inl fun i hi => absurd hi (Nat.not_lt_zero i)
  | succ n ih =>
    rcases ih with hall | ⟨i, hi, hfirst⟩
    · by_cases hn : g n = .ok true
      · exact .inl fun i hi => (Nat.lt_succ_iff_lt_or_eq.mp hi).elim (hall i) fun heq => heq ▸ hn
      · exact .inr ⟨n, Nat.lt_succ_self n, hall, hn⟩
    · exact .inr ⟨i, Nat.lt_succ_of_lt hi, hfirst⟩

/-- What a result comes of: true of one condition, an exception of another one, and false of neither. -/
structure Decides (p q : Prop) (e : ε) (res : Except ε Bool) : Prop where
  yes : p → res = .ok true
  thrown : q → res = .error e
  no : ¬ p → ¬ q → res = .ok false

theorem Decides.iff {yes thrown : Prop} {e : ε} {res : Except ε Bool} (h : Decides yes thrown e res) :
    res = .ok true ↔ yes := by
  refine ⟨fun hres => ?_, h.yes⟩
  by_contra hyes
  by_cases hthrown : thrown
  · cases hres.symm.trans (h.thrown hthrown)
  · cases hres.symm.trans (h.no hyes hthrown)

theorem Decides.congr {p p' q q' : Prop} {e : ε} {res : Except ε Bool} (h : Decides p q e res) (hp : p' ↔ p)
    (hq : q' ↔ q) : Decides p' q' e res where
  yes h' := h.yes (hp.mp h')
  thrown h' := h.thrown (hq.mp h')
  no h' h'' := h.no (mt hp.mpr h') (mt hq.mpr h'')

/-- What is answered without an exception. -/
theorem Decides.of_ok {p q : Prop} {e : ε} {b : Bool} (hb : b = true ↔ p) (hq : ¬ q) : Decides p q e (.ok b) where
  yes hp := by rw [hb.mpr hp]
  thrown h := absurd h hq
  no hp _ := by rw [Bool.eq_false_iff.mpr (mt hb.mp hp)]

/-- A loop of checks is true if all are, and throws if one does that comes before all that are false. -/
theorem Decides.checkAll {yes thrown : Nat → Prop} {e : ε} (h : ∀ i < n, Decides (yes i) (thrown i) e (g i)) :
    Decides (∀ i < n, yes i) (∃ i < n, (∀ j < i, yes j) ∧ thrown i) e (checkAll g (List.range n)) where
  yes hall := checkAll_of_forall fun i hi => (h i (List.mem_range.mp hi)).yes (hall i (List.mem_range.mp hi))
  thrown := by
    rintro ⟨i, hi, hbefore, hthrown⟩
    have hgi := (h i hi).thrown hthrown
    rw [checkAll_first hi (fun j hj => (h j (Nat.lt_trans hj hi)).yes (hbefore j hj)) (by rw [hgi]; nofun), hgi]
  no hnot hnone := by
    rcases forall_or_first g n with hall | ⟨i, hi, hbefore, hne⟩
    · exact absurd (fun i hi => (h i hi).iff.mp (hall i hi)) hnot
    · have hyes : ¬ yes i := fun hyes => hne ((h i hi).yes hyes)
      have hthrown : ¬ thrown i := fun hthrown =>
        hnone ⟨i, hi, fun j hj => (h j (Nat.lt_trans hj hi)).iff.mp (hbefore j hj), hthrown⟩
      rw [checkAll_first hi hbefore hne, (h i hi).no hyes hthrown]

/-- What each turn keeps holds at the end. -/
theorem foldlM_range {step : σ → Nat → Except ε σ} {P : Nat → σ → Prop} {s : σ} (hstart : P 0 s)
    (hstep : ∀ i < n, ∀ s, P i s → ∃ s', step s i = .ok s' ∧ P (i + 1) s') :
    ∃ s', (List.range n).foldlM step s = .ok s' ∧ P n s' := by
  induction n with
  | zero => exact ⟨s, rfl, hstart⟩
  | succ n ih =>
    obtain ⟨t, ht, hP⟩ := ih fun i hi => hstep i (Nat.lt_succ_of_lt hi)
    obtain ⟨t', ht', hP'⟩ := hstep n (Nat.lt_succ_self n) t hP
    refine ⟨t', ?_, hP'⟩
    rw [List.range_succ, List.foldlM_append, ht]
    show List.foldlM step t [n] = _
    rw [List.foldlM_cons, ht']
    rfl

end ForLoops
