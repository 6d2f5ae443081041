-- SUMMARY: Nondeterministic computations by their traces: what is visited and how it ends, in sequences, choices, loops and machines.
import Mathlib.Data.List.Basic

/-!
# Traces

A computation is what may happen: which labels it visits, in order, and what it ends in.
A sequence goes on as the end of its first part says, so that ends can be jumps.
-/

namespace Traces

/-- What may happen. -/
abbrev Behaviour (L X : Type*) := List L → X → Prop

namespace Behaviour

variable {L X Y Z S : Type*}

/-- Nothing ever happens. -/
def never : Behaviour L X := fun _ _ => False

/-- Nothing happens. -/
def done (x : X) : Behaviour L X := fun t y => t = [] ∧ y = x

/-- One label is visited. -/
def visit (l : L) (x : X) : Behaviour L X := fun t y => t = [l] ∧ y = x

def choice (P Q : Behaviour L X) : Behaviour L X := fun t x => P t x ∨ Q t x

/-- One of these. -/
def oneOf (Ps : List (Behaviour L X)) : Behaviour L X := fun t x => ∃ P ∈ Ps, P t x

def bind (P : Behaviour L X) (k : X → Behaviour L Y) : Behaviour L Y := fun t y =>
  ∃ u v x, t = u ++ v ∧ P u x ∧ k x v y

/-- A round after a round, until one does not end in `again`. -/
inductive rounds (P : Behaviour L X) (again : X) : Behaviour L X
  | last {t x} (h : P t x) (hx : x ≠ again) : rounds P again t x
  | round {u v x} (h : P u again) (hv : rounds P again v x) : rounds P again (u ++ v) x

/-- The ends alone. -/
def ending (P : Behaviour L X) : Behaviour L X := fun t x => t = [] ∧ ∃ u, P u x

/-- At each place something is done, and it is said where to go on or what the end is. -/
inductive run (act : S → Behaviour L (S ⊕ X)) : S → Behaviour L X
  | stop {s t x} (h : act s t (.inr x)) : run act s t x
  | step {s s' u v x} (h : act s u (.inl s')) (hv : run act s' v x) : run act s (u ++ v) x

/-- It may end so. -/
def Ends (P : Behaviour L X) (x : X) : Prop := ∃ t, P t x

/-- It may come to the label, whatever is next. -/
def Visits (P : Behaviour L X) (l : L) : Prop := ∃ t x, P t x ∧ l ∈ t

variable {P Q : Behaviour L X} {k k' : X → Behaviour L Y} {l l' : L} {x y again : X} {z : Y}

/-! ## Ends -/

@[simp] theorem ends_done : (done x : Behaviour L X).Ends y ↔ y = x :=
  ⟨fun ⟨_, _, h⟩ => h, fun h => ⟨[], rfl, h⟩⟩

@[simp] theorem ends_visit : (visit l x).Ends y ↔ y = x :=
  ⟨fun ⟨_, _, h⟩ => h, fun h => ⟨[l], rfl, h⟩⟩

@[simp] theorem ends_choice : (choice P Q).Ends x ↔ P.Ends x ∨ Q.Ends x := exists_or

@[simp] theorem ends_bind : (bind P k).Ends z ↔ ∃ x, P.Ends x ∧ (k x).Ends z := by
  constructor
  · rintro ⟨_, u, v, x, rfl, hu, hv⟩
    exact ⟨x, ⟨u, hu⟩, v, hv⟩
  · rintro ⟨x, ⟨u, hu⟩, v, hv⟩
    exact ⟨u ++ v, u, v, x, rfl, hu, hv⟩

@[simp] theorem ends_ending : (ending P).Ends x ↔ P.Ends x :=
  ⟨fun ⟨_, _, h⟩ => h, fun h => ⟨[], rfl, h⟩⟩

theorem ends_of_rounds (h : (rounds P again).Ends x) : P.Ends x ∧ x ≠ again := by
  obtain ⟨t, h⟩ := h
  induction h with
  | last h hx => exact ⟨⟨_, h⟩, hx⟩
  | round _ _ ih => exact ih

/-! ## Labels -/

@[simp] theorem visits_done : ¬ (done x : Behaviour L X).Visits l := by
  rintro ⟨t, y, ⟨rfl, -⟩, hl⟩
  exact List.not_mem_nil hl

@[simp] theorem visits_visit : (visit l x).Visits l' ↔ l' = l := by
  constructor
  · rintro ⟨t, y, ⟨rfl, -⟩, hl⟩
    exact List.mem_singleton.mp hl
  · rintro rfl
    exact ⟨[l'], x, ⟨rfl, rfl⟩, List.mem_singleton_self l'⟩

@[simp] theorem visits_choice : (choice P Q).Visits l ↔ P.Visits l ∨ Q.Visits l := by
  constructor
  · rintro ⟨t, x, h | h, hl⟩
    · exact .inl ⟨t, x, h, hl⟩
    · exact .inr ⟨t, x, h, hl⟩
  · rintro (⟨t, x, h, hl⟩ | ⟨t, x, h, hl⟩)
    · exact ⟨t, x, .inl h, hl⟩
    · exact ⟨t, x, .inr h, hl⟩

theorem visits_of_bind (h : (bind P k).Visits l) : P.Visits l ∨ ∃ x, P.Ends x ∧ (k x).Visits l := by
  obtain ⟨_, z, ⟨u, v, x, rfl, hu, hv⟩, hl⟩ := h
  rcases List.mem_append.mp hl with hl | hl
  · exact .inl ⟨u, x, hu, hl⟩
  · exact .inr ⟨x, ⟨u, hu⟩, v, z, hv, hl⟩

/-- What is visited in the first part, whatever is next. -/
theorem visits_bind_left (h : P.Visits l) (hk : ∀ x, ∃ v z, k x v z) : (bind P k).Visits l := by
  obtain ⟨u, x, hu, hl⟩ := h
  obtain ⟨v, z, hv⟩ := hk x
  exact ⟨u ++ v, z, ⟨u, v, x, rfl, hu, hv⟩, List.mem_append_left v hl⟩

theorem visits_bind_right (h : P.Ends x) (hk : (k x).Visits l) : (bind P k).Visits l := by
  obtain ⟨u, hu⟩ := h
  obtain ⟨v, z, hv, hl⟩ := hk
  exact ⟨u ++ v, z, ⟨u, v, x, rfl, hu, hv⟩, List.mem_append_right u hl⟩

@[simp] theorem visits_ending : ¬ (ending P).Visits l := by
  rintro ⟨t, x, ⟨rfl, -⟩, hl⟩
  exact List.not_mem_nil hl

theorem visits_of_rounds (h : (rounds P again).Visits l) : P.Visits l := by
  obtain ⟨t, x, h, hl⟩ := h
  induction h with
  | last h _ => exact ⟨_, _, h, hl⟩
  | round h _ ih =>
    rcases List.mem_append.mp hl with hl | hl
    · exact ⟨_, _, h, hl⟩
    · exact ih hl

/-! ## Sequences -/

theorem choice_comm : choice P Q = choice Q P := by
  funext t x
  exact propext or_comm

@[simp] theorem bind_done : bind (done x) k = k x := by
  funext t y
  refine propext ⟨?_, fun h => ⟨[], t, x, rfl, ⟨rfl, rfl⟩, h⟩⟩
  rintro ⟨u, v, x', rfl, ⟨rfl, rfl⟩, h⟩
  exact h

theorem bind_visit : bind (visit l x) k = bind (visit l ()) fun _ => k x := by
  funext t y
  refine propext ⟨?_, ?_⟩
  · rintro ⟨u, v, x', rfl, ⟨rfl, rfl⟩, h⟩
    exact ⟨[l], v, (), rfl, ⟨rfl, rfl⟩, h⟩
  · rintro ⟨u, v, -, rfl, ⟨rfl, -⟩, h⟩
    exact ⟨[l], v, x, rfl, ⟨rfl, rfl⟩, h⟩

@[simp] theorem bind_never : bind (never : Behaviour L X) k = never := by
  funext t y
  refine propext ⟨?_, nofun⟩
  rintro ⟨u, v, x, -, h, -⟩
  exact h

@[simp] theorem bind_choice : bind (choice P Q) k = choice (bind P k) (bind Q k) := by
  funext t y
  refine propext ⟨?_, ?_⟩
  · rintro ⟨u, v, x, rfl, h | h, hk⟩
    · exact .inl ⟨u, v, x, rfl, h, hk⟩
    · exact .inr ⟨u, v, x, rfl, h, hk⟩
  · rintro (⟨u, v, x, rfl, h, hk⟩ | ⟨u, v, x, rfl, h, hk⟩)
    · exact ⟨u, v, x, rfl, .inl h, hk⟩
    · exact ⟨u, v, x, rfl, .inr h, hk⟩

theorem oneOf_nil : oneOf [] = (never : Behaviour L X) := by
  funext t x
  refine propext ⟨?_, nofun⟩
  rintro ⟨P, hP, -⟩
  exact List.not_mem_nil hP

theorem oneOf_cons {Ps : List (Behaviour L X)} : oneOf (P :: Ps) = choice P (oneOf Ps) := by
  funext t x
  simp [oneOf, choice]

theorem bind_oneOf {Ps : List (Behaviour L X)} : bind (oneOf Ps) k = oneOf (Ps.map fun P => bind P k) := by
  funext t y
  refine propext ⟨?_, ?_⟩
  · rintro ⟨u, v, x, rfl, ⟨P, hP, h⟩, hk⟩
    exact ⟨bind P k, List.mem_map_of_mem hP, u, v, x, rfl, h, hk⟩
  · rintro ⟨_, hmem, h⟩
    obtain ⟨P, hP, rfl⟩ := List.mem_map.mp hmem
    obtain ⟨u, v, x, rfl, h, hk⟩ := h
    exact ⟨u, v, x, rfl, ⟨P, hP, h⟩, hk⟩

@[simp] theorem bind_assoc {j : Y → Behaviour L Z} : bind (bind P k) j = bind P fun x => bind (k x) j := by
  funext t z
  refine propext ⟨?_, ?_⟩
  · rintro ⟨_, w, y, rfl, ⟨u, v, x, rfl, hP, hk⟩, hj⟩
    exact ⟨u, v ++ w, x, List.append_assoc u v w, hP, v, w, y, rfl, hk, hj⟩
  · rintro ⟨u, _, x, rfl, hP, v, w, y, rfl, hk, hj⟩
    exact ⟨u ++ v, w, y, (List.append_assoc u v w).symm, ⟨u, v, x, rfl, hP, hk⟩, hj⟩

/-- Only what it may end in matters. -/
theorem bind_congr (h : ∀ x, P.Ends x → k x = k' x) : bind P k = bind P k' := by
  funext t y
  refine propext ⟨?_, ?_⟩
  · rintro ⟨u, v, x, rfl, hP, hk⟩
    exact ⟨u, v, x, rfl, hP, h x ⟨u, hP⟩ ▸ hk⟩
  · rintro ⟨u, v, x, rfl, hP, hk⟩
    exact ⟨u, v, x, rfl, hP, (h x ⟨u, hP⟩).symm ▸ hk⟩

/-- What is the same again after each round that ends in `again` is the rounds. No round of these does nothing. -/
theorem eq_bind_rounds {R : Behaviour L Y} {j : X → Behaviour L Y} (hP : ∀ t, P t again → t ≠ [])
    (hagain : j again = R) (hk : ∀ x, x ≠ again → j x = k x) (h : R = bind P j) : R = bind (rounds P again) k := by
  funext t y
  refine propext ⟨fun ht => ?_, ?_⟩
  · induction hn : t.length using Nat.strongRecOn generalizing t with
    | ind n ih =>
      rw [h] at ht
      obtain ⟨u, v, x, rfl, hu, hv⟩ := ht
      by_cases hx : x = again
      · subst hx
        rw [hagain] at hv
        have hlt : v.length < n := by
          have := List.length_pos_of_ne_nil (hP u hu)
          rw [← hn, List.length_append]
          omega
        obtain ⟨v₁, v₂, z, rfl, hround, hz⟩ := ih v.length hlt v hv rfl
        exact ⟨u ++ v₁, v₂, z, (List.append_assoc u v₁ v₂).symm, .round hu hround, hz⟩
      · exact ⟨u, v, x, rfl, .last hu hx, hk x hx ▸ hv⟩
  · rintro ⟨u, v, x, rfl, hu, hv⟩
    induction hu with
    | last hu hx =>
      rw [h]
      exact ⟨_, v, _, rfl, hu, (hk _ hx).symm ▸ hv⟩
    | round hu _ ih =>
      rw [h]
      exact ⟨_, _, again, List.append_assoc _ _ _, hu, hagain.symm ▸ ih hv⟩

/-! ## Machines -/

theorem run_eq {act : S → Behaviour L (S ⊕ X)} (s : S) : run act s = bind (act s) (Sum.elim (run act) done) := by
  funext t x
  refine propext ⟨?_, ?_⟩
  · rintro (h | ⟨h, hv⟩)
    · exact ⟨t, [], .inr x, (List.append_nil t).symm, h, rfl, rfl⟩
    · exact ⟨_, _, _, rfl, h, hv⟩
  · rintro ⟨u, v, s' | x', rfl, h, hv⟩
    · exact .step h hv
    · obtain ⟨rfl, rfl⟩ := hv
      rw [List.append_nil]
      exact .stop h

end Behaviour

end Traces
