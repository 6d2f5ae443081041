-- SUMMARY: Deterministic machines that take inputs and give outputs: runs, conditions along a run, invariants and simulation.
import Mathlib.Logic.Basic

/-!
# Machines

A machine is a step function from a state and an input to an output and the next
state. The rules here lift what one step does to what a run does.
-/

namespace Machine

variable {σ τ ι ο : Type*}

/-- The outputs of a run, in order, and the state it ends in. -/
def run (step : σ → ι → ο × σ) (s : σ) : List ι → List ο × σ
  | [] => ([], s)
  | i :: is =>
    let rest := run step (step s i).2 is
    ((step s i).1 :: rest.1, rest.2)

/-- Every input of a run satisfies `P` in the state it is given in. -/
def Along (step : σ → ι → ο × σ) (P : σ → ι → Prop) (s : σ) : List ι → Prop
  | [] => True
  | i :: is => P s i ∧ Along step P (step s i).2 is

@[simp] theorem run_nil {step : σ → ι → ο × σ} {s : σ} : run step s [] = ([], s) := rfl

@[simp] theorem run_cons {step : σ → ι → ο × σ} {s : σ} {i : ι} {is : List ι} :
    run step s (i :: is) =
      ((step s i).1 :: (run step (step s i).2 is).1, (run step (step s i).2 is).2) := rfl

theorem run_append_snd {step : σ → ι → ο × σ} {s : σ} {is js : List ι} :
    (run step s (is ++ js)).2 = (run step (run step s is).2 js).2 := by
  induction is generalizing s with
  | nil => rfl
  | cons i is ih => exact ih

/-- A condition on inputs alone holds along every run of such inputs. -/
theorem Along.of_forall {step : σ → ι → ο × σ} {P : ι → Prop} {s : σ} {is : List ι}
    (h : ∀ i ∈ is, P i) : Along step (fun _ => P) s is := by
  induction is generalizing s with
  | nil => trivial
  | cons i is ih =>
    exact ⟨h i List.mem_cons_self, ih fun j hj => h j (List.mem_cons_of_mem i hj)⟩

/-- What every allowed step preserves holds at the end of every allowed run. -/
theorem run_inv {step : σ → ι → ο × σ} {P : σ → ι → Prop} {Inv : σ → Prop}
    (hstep : ∀ s i, Inv s → P s i → Inv (step s i).2) {s : σ} (hs : Inv s) {is : List ι}
    (hP : Along step P s is) : Inv (run step s is).2 := by
  induction is generalizing s with
  | nil => exact hs
  | cons i is ih => exact ih (hstep s i hs hP.1) hP.2

/-- What every step preserves holds at the end of every run, and what it makes of the outputs holds of
all of them. -/
theorem run_inv_out {step : σ → ι → ο × σ} {Inv : σ → Prop} {Out : ο → Prop}
    (hstep : ∀ s i, Inv s → Inv (step s i).2 ∧ Out (step s i).1) {s : σ} (hs : Inv s) (is : List ι) :
    Inv (run step s is).2 ∧ ∀ o ∈ (run step s is).1, Out o := by
  induction is generalizing s with
  | nil => exact ⟨hs, fun o ho => absurd ho List.not_mem_nil⟩
  | cons i is ih =>
    obtain ⟨hnext, hout⟩ := hstep s i hs
    obtain ⟨hend, houts⟩ := ih hnext
    refine ⟨hend, fun o ho => ?_⟩
    rcases List.mem_cons.mp ho with rfl | ho
    · exact hout
    · exact houts o ho

/-- Two machines whose allowed steps agree on outputs and keep `R` agree on the outputs
of every allowed run, and end in states `R` relates. -/
theorem run_sim_along {step : σ → ι → ο × σ} {step' : τ → ι → ο × τ} {P : σ → ι → Prop}
    {R : σ → τ → Prop}
    (hstep : ∀ s t i, R s t → P s i →
      (step s i).1 = (step' t i).1 ∧ R (step s i).2 (step' t i).2)
    {s : σ} {t : τ} (hs : R s t) {is : List ι} (hP : Along step P s is) :
    (run step s is).1 = (run step' t is).1 ∧ R (run step s is).2 (run step' t is).2 := by
  induction is generalizing s t with
  | nil => exact ⟨rfl, hs⟩
  | cons i is ih =>
    obtain ⟨hout, hnext⟩ := hstep s t i hs hP.1
    obtain ⟨houts, hend⟩ := ih hnext hP.2
    exact ⟨by simp only [run_cons, hout, houts], hend⟩

/-- So do two machines whose steps agree for all inputs of the run. -/
theorem run_sim {step : σ → ι → ο × σ} {step' : τ → ι → ο × τ} {P : ι → Prop}
    {R : σ → τ → Prop}
    (hstep : ∀ s t i, R s t → P i →
      (step s i).1 = (step' t i).1 ∧ R (step s i).2 (step' t i).2)
    {s : σ} {t : τ} (hs : R s t) {is : List ι} (hP : ∀ i ∈ is, P i) :
    (run step s is).1 = (run step' t is).1 ∧ R (run step s is).2 (run step' t is).2 :=
  run_sim_along (P := fun _ => P) hstep hs (.of_forall hP)

end Machine
