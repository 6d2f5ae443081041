-- SUMMARY: The VM loop turn by turn: that turns are part of a run, and what happens until a condition is met.
import Eel.Vm.Run

/-!
# Turns of the VM loop

A turn is an instruction with everything that it makes happen before the VM loop goes on:
the call of a C function, or the handling of an exception. The call of an EEL function is a
turn that ends within the function.
-/

namespace Eel

variable {E : Env} {C : ObjId → Host}

/-! ## Fuel -/

section Fuel

variable {α β : Type} {b : β}

theorem bind_imp {x y : Option α} {f g : α → Option β} (hx : ∀ a, x = some a → y = some a)
    (hf : ∀ a, f a = some b → g a = some b) (h : x.bind f = some b) : y.bind g = some b := by
  obtain ⟨a, ha, hb⟩ := Option.bind_eq_some_iff.mp h
  exact Option.bind_eq_some_iff.mpr ⟨a, hx a ha, hf a hb⟩

theorem map_imp {x y : Option α} {f : α → β} (hx : ∀ a, x = some a → y = some a)
    (h : x.map f = some b) : y.map f = some b := by
  obtain ⟨a, ha, hb⟩ := Option.map_eq_some_iff.mp h
  exact Option.map_eq_some_iff.mpr ⟨a, hx a ha, hb⟩

theorem ite_imp {c : Prop} [Decidable c] {x y x' y' : Option β} (hx : x = some b → x' = some b)
    (hy : y = some b → y' = some b) (h : (if c then x else y) = some b) :
    (if c then x' else y') = some b := by
  split at h
  · rw [if_pos ‹_›]
    exact hx h
  · rw [if_neg ‹_›]
    exact hy h

/-- What is performed with some fuel is performed with more. -/
theorem perform_succ {n : Nat} {t : Task} {vm : Vm} {r : Result} (h : perform E C n t vm = some r) :
    perform E C (n + 1) t vm = some r := by
  induction n generalizing t vm r with
  | zero => cases h
  | succ n ih =>
    cases t with
    | loop =>
      rw [perform] at h ⊢
      split at h
      · exact map_imp (fun _ => ih) h
      · exact h
      · exact map_imp (fun _ => ih) h
      · exact bind_imp (fun _ => ih)
          (fun _ => ite_imp (map_imp fun _ => ih) (map_imp fun _ => ih)) h
    | schedule =>
      rw [perform] at h ⊢
      exact ite_imp (map_imp fun _ => ih) id h
    | run =>
      rw [perform] at h ⊢
      exact ite_imp id ih h
    | doRun =>
      rw [perform] at h ⊢
      refine bind_imp (fun _ => ih) (fun r h => ?_) h
      split at h
      · exact map_imp (fun _ => ih) h
      · exact h
    | callF fo result levels =>
      rw [perform] at h ⊢
      exact ite_imp id (ite_imp (map_imp fun _ => ih) id) h
    | host p =>
      cases p with
      | ret x => exact h
      | look k => exact ih h
      | act s k => exact ih h
      | argf item k => exact ih h
      | call fo k =>
        rw [perform] at h ⊢
        exact bind_imp (fun _ => ih) (fun _ => map_imp fun _ => ih) h
    | call fo =>
      rw [perform] at h ⊢
      refine ite_imp id (ite_imp id ?_) h
      exact bind_imp (fun _ => ih) fun _ => map_imp fun _ => ite_imp ih id

theorem perform_le {n m : Nat} {t : Task} {vm : Vm} {r : Result} (hnm : n ≤ m)
    (h : perform E C n t vm = some r) : perform E C m t vm = some r := by
  induction hnm with
  | refl => exact h
  | step _ ih => exact perform_succ ih

/-- What is performed does not depend on the fuel. -/
theorem perform_unique {n m : Nat} {t : Task} {vm : Vm} {r r' : Result} (h : perform E C n t vm = some r)
    (h' : perform E C m t vm = some r') : r = r' := by
  have h := perform_le (Nat.le_max_left n m) h
  have h' := perform_le (Nat.le_max_right n m) h'
  exact Option.some.inj (h.symm.trans h')

end Fuel

/-! ## Turns -/

namespace Vm

/-- The VM loop goes on after `eel__scheduler`. -/
def schedules (E : Env) (vm : Vm) : Option Vm :=
  if (vm.scheduler E.function).1 = Xno.ok then some (vm.scheduler E.function).2 else none

/-- The VM loop after one turn, if it goes on. -/
def turn (E : Env) (C : ObjId → Host) (fuel : Nat) (vm : Vm) : Option Vm :=
  match vm.step E with
  | .next vm => some vm
  | .leave .. => none
  | .schedule vm => vm.schedules E
  | .call fo result levels vm =>
    (perform E C fuel (.callF fo result levels) vm).bind fun r =>
      if r.x = Xno.ok then some r.vm else (r.vm.throwXno r.x).schedules E

/-- One turn of the VM loop leads from `vm` to `vm'`. -/
def Turn (E : Env) (C : ObjId → Host) (vm vm' : Vm) : Prop := ∃ fuel, vm.turn E C fuel = some vm'

variable {vm vm' vm'' : Vm}

theorem turn_le {n m : Nat} (hnm : n ≤ m) (h : vm.turn E C n = some vm') :
    vm.turn E C m = some vm' := by
  unfold turn at h ⊢
  split at h
  · exact h
  · exact h
  · exact h
  · exact bind_imp (fun _ => perform_le hnm) (fun _ => id) h

theorem Turn.unique (h : Turn E C vm vm') (h' : Turn E C vm vm'') : vm' = vm'' := by
  obtain ⟨n, hn⟩ := h
  obtain ⟨m, hm⟩ := h'
  have hn := turn_le (Nat.le_max_left n m) hn
  have hm := turn_le (Nat.le_max_right n m) hm
  exact Option.some.inj (hn.symm.trans hm)

theorem turn_of_next (h : vm.step E = .next vm') : Turn E C vm vm' := by
  refine ⟨0, ?_⟩
  rw [turn, h]

/-- The VM loop performs the task, and ends with `x` in `vm'`. -/
def Completes (E : Env) (C : ObjId → Host) (t : Task) (vm : Vm) (x : Xno) (vm' : Vm) : Prop :=
  ∃ n r, perform E C n t vm = some r ∧ r.x = x ∧ r.vm = vm'

theorem schedules_completes {x : Xno} {n : Nat} (h : vm.schedules E = some vm')
    (h' : Completes E C .loop vm' x vm'') :
    ∃ m r, n ≤ m ∧ perform E C m .schedule vm = some r ∧ r.x = x ∧ r.vm = vm'' := by
  obtain ⟨m, r, hr, hx, hvm⟩ := h'
  unfold schedules at h
  split at h
  · rename_i hok
    obtain rfl := Option.some.inj h
    refine ⟨max n m + 1, r.after [.schedule vm], by omega, ?_, hx, hvm⟩
    simp only [perform, if_pos hok, perform_le (Nat.le_max_right n m) hr, Option.map_some]
  · cases h

/-- A run of the VM loop begins with a turn. -/
theorem Turn.completes {x : Xno} (h : Turn E C vm vm') (h' : Completes E C .loop vm' x vm'') :
    Completes E C .loop vm x vm'' := by
  obtain ⟨n, hn⟩ := h
  unfold turn at hn
  split at hn
  · rename_i hstep
    obtain ⟨m, r, hr, hx, hvm⟩ := h'
    cases Option.some.inj hn
    refine ⟨m + 1, r.after [.fetch vm], ?_, hx, hvm⟩
    simp only [perform, hstep, hr, Option.map_some]
  · cases hn
  · rename_i hstep
    obtain ⟨m, r, -, hr, hx, hvm⟩ := schedules_completes (n := 0) hn h'
    refine ⟨m + 1, r.after [.fetch vm], ?_, hx, hvm⟩
    simp only [perform, hstep, hr, Option.map_some]
  · rename_i hstep
    obtain ⟨c, hc, hn⟩ := Option.bind_eq_some_iff.mp hn
    split at hn
    · rename_i hok
      obtain ⟨m, r, hr, hx, hvm⟩ := h'
      cases Option.some.inj hn
      refine ⟨max n m + 1, r.after (.fetch vm :: c.trace), ?_, hx, hvm⟩
      rw [perform, hstep]
      simp only [perform_le (Nat.le_max_left n m) hc, perform_le (Nat.le_max_right n m) hr,
        Option.bind_some, hok, if_true, Option.map_some]
    · rename_i hok
      obtain ⟨m, r, hnm, hr, hx, hvm⟩ := schedules_completes (n := n) hn h'
      refine ⟨m + 1, r.after (.fetch vm :: c.trace), ?_, hx, hvm⟩
      rw [perform, hstep]
      simp only [perform_le hnm hc, hr, Option.bind_some, hok, if_false, Option.map_some]

/-! ## Runs up to a condition -/

/-- The VM loop goes on from `vm`, and `vm'` is the first state in which `P` holds. -/
inductive Until (E : Env) (C : ObjId → Host) (P : Vm → Prop) : Vm → Vm → Prop where
  | here {vm : Vm} : P vm → Until E C P vm vm
  | turn {vm vm' vm'' : Vm} : ¬ P vm → Turn E C vm vm' → Until E C P vm' vm'' → Until E C P vm vm''

namespace Until

variable {P Q : Vm → Prop}

theorem holds (h : Until E C P vm vm') : P vm' := by
  induction h with
  | here hP => exact hP
  | turn _ _ _ ih => exact ih

theorem unique (h : Until E C P vm vm') (h' : Until E C P vm vm'') : vm' = vm'' := by
  induction h with
  | here hP =>
    cases h' with
    | here => rfl
    | turn hnot => exact absurd hP hnot
  | turn hnot hturn _ ih =>
    cases h' with
    | here hP => exact absurd hP hnot
    | turn _ hturn' hrest =>
      cases hturn.unique hturn'
      exact ih hrest

/-- What comes later is not reached before. -/
theorem trans (h : Until E C P vm vm') (hQP : ∀ vm, Q vm → P vm) (h' : Until E C Q vm' vm'') :
    Until E C Q vm vm'' := by
  induction h with
  | here => exact h'
  | turn hnot hturn _ ih => exact .turn (fun hQ => hnot (hQP _ hQ)) hturn (ih h')

theorem completes {x : Xno} {w : Vm} (h : Until E C P vm vm') (h' : Completes E C .loop vm' x w) :
    Completes E C .loop vm x w := by
  induction h with
  | here => exact h'
  | turn _ hturn _ ih => exact hturn.completes (ih h')

end Until

end Vm

end Eel
