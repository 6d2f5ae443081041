-- SUMMARY: No code is left out that control can get to, and no function is left without the result that it should have.
import Eel.Compiler.StatPaths

/-!
# Dead code

What is coded is left out where the events say that control is not there. As long as control
may be there, the events say so, and this is what every statement keeps.
-/

namespace Eel

namespace Events

open Traces Behaviour Paths

/-! ## Where control may be -/

/-- Control may be here, as far as the events tell, and nothing jumps here. -/
structure LiveIn (c : Context) (cs : List Context) : Prop where
  exit : NotYet .exit (c :: cs)
  ret : NotYet .ret (c :: cs)
  breakto : c.events.breakto = 0

/-- Returns and results go together, which they do in a function with a result. -/
def Cevlist.Balanced (e : Cevlist) : Prop := e.events .ret = e.events .result

/-- One that may be behind a branch that control comes out of. -/
structure Cevlist.Passes (e : Cevlist) : Prop where
  ret : e.events .ret ≠ .yes
  breakto : e.breakto ≤ 0

variable {L : Type} {results : Bool} {es es₁ es₂ es' : Coding L} {P Q : Paths L} {l : L} {c : Context} {cs : List Context}
  {e e' : Cevlist} {i : Event} {m : Cestate} {bs : List Cevlist}

def Coding.view (es : Coding L) : List Context := es.contexts.map Context.core

/-- All that is coded, with the functions that are operands. -/
def Coding.labels (es : Coding L) : List L := Instr.labelsOf es.coded

def Live (es : Coding L) : Prop := ∃ c cs, es.view = c :: cs ∧ LiveIn c cs

/-- Between statements, the context has no branches. -/
def Ready (es : Coding L) : Prop := ∃ c cs, es.view = c :: cs ∧ c.branches = []

/-- Only the events of the context change, and nothing that is coded goes away. -/
def Steps (results : Bool) (es es' : Coding L) : Prop :=
  ∃ c cs e, es.view = c :: cs ∧ es'.view = { c with events := e } :: cs ∧ es.labels <+: es'.labels ∧
    (results = true → c.events.Balanced → e.Balanced)

/-- What is coded between the states has the paths `P`. -/
structure Meets (results : Bool) (P : Paths L) (es es' : Coding L) : Prop where
  steps : Steps results es es'
  visits : Live es → ∀ l, P.Visits l → l ∈ es'.labels
  live : Live es → P.Ends .next → Live es'

/-- What is coded between the states has the paths `P`, and leaves its events as branches. -/
structure Adds (results : Bool) (P : Paths L) (es es' : Coding L) (bs : List Cevlist) : Prop where
  labels : es.labels <+: es'.labels
  view : ∃ c cs, es.view = c :: cs ∧ es'.view = { c with branches := c.branches ++ bs } :: cs
  balanced : results = true → ∀ e ∈ bs, e.Balanced
  visits : Live es → ∀ l, P.Visits l → l ∈ es'.labels
  passes : Live es → P.Ends .next → ∃ e ∈ bs, e.Passes

theorem notYet_congr (hi : e.events i = c.events.events i) :
    NotYet i ({ c with events := e } :: cs) ↔ NotYet i (c :: cs) := by
  unfold NotYet
  dsimp only
  rw [hi]

theorem live_iff (hview : es.view = c :: cs) : Live es ↔ LiveIn c cs := by
  constructor
  · rintro ⟨c', cs', h, hlive⟩
    rw [hview] at h
    cases h
    exact hlive
  · exact fun h => ⟨c, cs, hview, h⟩

theorem LiveIn.branches (h : LiveIn c cs) : LiveIn { c with branches := bs } cs := ⟨h.exit, h.ret, h.breakto⟩

/-- Where control may be, code is not left out. -/
theorem Live.testExit (h : Live es) : testExit es.contexts ≠ .yes := by
  obtain ⟨c, cs, hview, hlive⟩ := h
  rw [← testExit_core, show es.contexts.map Context.core = c :: cs from hview]
  exact testExit_ne_yes hlive.exit hlive.ret hlive.breakto

/-! ## Instructions -/

theorem labelsOf_append (is js : List (Instr L)) : Instr.labelsOf (is ++ js) = Instr.labelsOf is ++ Instr.labelsOf js := by
  induction is with
  | nil => rfl
  | cons i is ih => rw [List.cons_append, Instr.labelsOf, Instr.labelsOf, ih, List.append_assoc]

/-- Instructions may be changed, if their labels are not. -/
theorem labelsOf_prefix {is js : List (Instr L)} (h : is.map Instr.labels = js.map Instr.labels) :
    Instr.labelsOf is <+: Instr.labelsOf js := by
  have heq : Instr.labelsOf is = Instr.labelsOf js := by
    induction is generalizing js with
    | nil =>
      obtain rfl := List.map_eq_nil_iff.mp h.symm
      rfl
    | cons i is ih =>
      obtain ⟨j, js', rfl, hj, hjs⟩ := List.map_eq_cons_iff.mp h.symm
      rw [Instr.labelsOf, Instr.labelsOf, ih hjs.symm, hj]
  exact ⟨[], (List.append_nil _).trans heq⟩

theorem setDisp_labels {d : Int} {i i' : Instr L} (h : i.setDisp d = some i') : i'.labels = i.labels := by
  cases i with
  | jump | branch | switch =>
    obtain ⟨-, h⟩ := Option.ite_none_right_eq_some.mp h
    cases h
    rfl
  | _ => cases h

theorem addCase_labels (pos : Nat) (i : Instr L) : (i.addCase pos).labels = i.labels := by
  cases i <;> rfl

theorem Live.mem_code (h : Live es) (i : Instr L) : i ∈ (es.code i).coded := by
  unfold Coding.code
  rw [if_neg h.testExit]
  exact List.mem_append_right _ (List.mem_singleton_self i)

theorem Live.labels_code (h : Live es) (i : Instr L) : i.labels ⊆ (es.code i).labels := by
  unfold Coding.labels Coding.code
  rw [if_neg h.testExit]
  dsimp only
  rw [labelsOf_append]
  intro l hl
  refine List.mem_append_right _ ?_
  rw [Instr.labelsOf]
  exact List.mem_append_left _ hl

theorem code_view (i : Instr L) : (es.code i).view = es.view := by
  unfold Coding.code
  split <;> rfl

theorem code_labels (i : Instr L) : es.labels <+: (es.code i).labels := by
  unfold Coding.code
  split
  · exact List.prefix_refl _
  · unfold Coding.labels
    rw [labelsOf_append]
    exact List.prefix_append ..

/-- Only displacements, jumps and tables differ. -/
structure Same (es es' : Coding L) : Prop where
  view : es'.view = es.view
  labels : es.labels <+: es'.labels

theorem Same.refl : Same es es := ⟨rfl, List.prefix_refl _⟩

theorem setjump_same {pos : Option Nat} {whereto : Nat} (h : es.setjump pos whereto = some es') : Same es es' := by
  cases pos with
  | none =>
    cases h
    exact .refl
  | some p =>
    obtain ⟨i', hset, rfl⟩ := Option.map_eq_some_iff.mp h
    obtain ⟨i, hi, hdisp⟩ := Option.bind_eq_some_iff.mp hset
    obtain ⟨hp, rfl⟩ := List.getElem?_eq_some_iff.mp hi
    refine ⟨rfl, labelsOf_prefix ?_⟩
    have hlen : p < (es.coded.map Instr.labels).length := by rwa [List.length_map]
    rw [List.map_set, setDisp_labels hdisp, ← List.getElem_map (h := hlen) Instr.labels, List.set_getElem_self hlen]

theorem addCase_same (pos : Option Nat) : Same es (es.addCase pos) := by
  cases pos with
  | none => exact .refl
  | some p =>
    refine ⟨rfl, labelsOf_prefix (List.ext_getElem? fun n => ?_)⟩
    show _ = (List.map Instr.labels (es.coded.modify p (Instr.addCase es.coded.length)))[n]?
    rw [List.getElem?_map, List.getElem?_map, List.getElem?_modify]
    cases es.coded[n]? with
    | none => rfl
    | some i =>
      dsimp only [Option.map_some]
      split
      · exact congrArg some (addCase_labels _ i).symm
      · rfl

/-! ## What does not change where control may be -/

/-- Nothing has happened that leaves the context. -/
def Quiet (es es' : Coding L) : Prop :=
  ∃ c cs e, es.view = c :: cs ∧ es'.view = { c with events := e } :: cs ∧ es.labels <+: es'.labels ∧
    e.events .exit = c.events.events .exit ∧ e.events .ret = c.events.events .ret ∧
    e.events .result = c.events.events .result ∧ e.breakto = c.events.breakto

theorem Quiet.of_same (hne : es.view ≠ []) (h : Same es es') : Quiet es es' := by
  obtain ⟨c, cs, hc⟩ := List.exists_cons_of_ne_nil hne
  exact ⟨c, cs, c.events, hc, h.view.trans hc, h.labels, rfl, rfl, rfl, rfl⟩

theorem Quiet.trans (h : Quiet es es₁) (h' : Quiet es₁ es') : Quiet es es' := by
  obtain ⟨c, cs, e, hview, hview₁, hlabels, hexit, hret, hresult, hbreakto⟩ := h
  obtain ⟨c', cs', e', hview₁', hview', hlabels', hexit', hret', hresult', hbreakto'⟩ := h'
  rw [hview₁] at hview₁'
  cases hview₁'
  exact ⟨c, cs, e', hview, hview', hlabels.trans hlabels', hexit'.trans hexit, hret'.trans hret,
    hresult'.trans hresult, hbreakto'.trans hbreakto⟩

theorem Quiet.ne_nil (h : Quiet es es') : es'.view ≠ [] := by
  obtain ⟨c, cs, e, -, hview', -⟩ := h
  rw [hview']
  exact List.cons_ne_nil _ _

theorem Quiet.live (h : Quiet es es') (hlive : Live es) : Live es' := by
  obtain ⟨c, cs, e, hview, hview', -, hexit, hret, -, hbreakto⟩ := h
  have hlive := (live_iff hview).mp hlive
  exact ⟨_, _, hview', (notYet_congr hexit).mpr hlive.exit, (notYet_congr hret).mpr hlive.ret,
    hbreakto.trans hlive.breakto⟩

theorem Quiet.meets (h : Quiet es es') (hP : ∀ l, ¬ P.Visits l) : Meets results P es es' where
  steps := by
    obtain ⟨c, cs, e, hview, hview', hlabels, -, hret, hresult, -⟩ := h
    exact ⟨c, cs, e, hview, hview', hlabels, fun _ hb => hret.trans (Eq.trans hb hresult.symm)⟩
  visits _ l hl := (hP l hl).elim
  live hlive _ := h.live hlive

theorem code_quiet (hne : es.view ≠ []) (i : Instr L) : Quiet es (es.code i) :=
  .of_same hne ⟨code_view i, code_labels i⟩

/-- Code that may be come to is there. -/
theorem Quiet.meets_code (h : Quiet es es₁) (i : Instr L) (hP : ∀ l, P.Visits l → l ∈ i.labels) :
    Meets results P es (es₁.code i) where
  steps := ((h.trans (code_quiet h.ne_nil i)).meets (P := done .next) fun _ => visits_done).steps
  visits hlive l hl := (h.live hlive).labels_code i (hP l hl)
  live hlive _ := (h.trans (code_quiet h.ne_nil i)).live hlive

/-! ## Sequences -/

theorem Steps.ready (h : Steps results es es') (hr : Ready es) : Ready es' := by
  obtain ⟨c, cs, e, hview, hview', -⟩ := h
  obtain ⟨c', cs', hc, hbranches⟩ := hr
  rw [hview] at hc
  cases hc
  exact ⟨_, _, hview', hbranches⟩

theorem Steps.labels (h : Steps results es es') : es.labels <+: es'.labels := by
  obtain ⟨c, cs, e, -, -, hlabels, -⟩ := h
  exact hlabels

theorem Steps.ne_nil (h : Steps results es es') : es'.view ≠ [] := by
  obtain ⟨c, cs, e, -, hview', -⟩ := h
  rw [hview']
  exact List.cons_ne_nil _ _

theorem Steps.trans (h : Steps results es es₁) (h' : Steps results es₁ es') : Steps results es es' := by
  obtain ⟨c, cs, e, hview, hview₁, hlabels, hbalanced⟩ := h
  obtain ⟨c', cs', e', hview₁', hview', hlabels', hbalanced'⟩ := h'
  rw [hview₁] at hview₁'
  cases hview₁'
  exact ⟨c, cs, e', hview, hview', hlabels.trans hlabels', fun hr hb => hbalanced' hr (hbalanced hr hb)⟩

theorem Meets.trans (h : Meets results P es es₁) (h' : Meets results Q es₁ es') : Meets results (seq P Q) es es' where
  steps := h.steps.trans h'.steps
  visits hlive l hl := (visits_of_seq hl).elim (fun hl => h'.steps.labels.subset (h.visits hlive l hl))
    fun ⟨hnext, hl⟩ => h'.visits (h.live hlive hnext) l hl
  live hlive hends := by
    obtain ⟨hnext, hends⟩ := ends_seq_next.mp hends
    exact h'.live (h.live hlive hnext) hends

/-- Paths that are among those of `P`, or do not matter. -/
theorem Meets.mono (h : Meets results P es es') (hvisits : ∀ l, Q.Visits l → P.Visits l)
    (hends : Q.Ends .next → P.Ends .next) : Meets results Q es es' :=
  ⟨h.steps, fun hlive l hl => h.visits hlive l (hvisits l hl), fun hlive hq => h.live hlive (hends hq)⟩

/-! ## Expressions and leaving contexts -/

theorem mapEvents_view {f : Cevlist → Cevlist} : (es.mapContexts (mapEvents f)).view = mapEvents f es.view := by
  unfold Coding.view Coding.mapContexts
  cases es.contexts with
  | nil => rfl
  | cons c cs => rfl

theorem occurs_occurs {j : Event} :
    (es.occurs i).occurs j = es.mapContexts (mapEvents fun e => (e.set i .yes).set j .yes) := by
  unfold Coding.occurs Coding.mapContexts
  cases es.contexts with
  | nil => rfl
  | cons c cs => rfl

theorem accesses_quiet {as : List Access} (hne : es.view ≠ []) (h : Coding.accesses as es = some es') : Quiet es es' := by
  induction as generalizing es with
  | nil =>
    cases h
    exact .of_same hne .refl
  | cons a as ih =>
    obtain ⟨es₁, ha, h⟩ := Option.bind_eq_some_iff.mp h
    have hquiet : Quiet es es₁ := by
      unfold Coding.access at ha
      cases a with
      | read r =>
        obtain ⟨-, ha⟩ := Option.ite_none_right_eq_some.mp ha
        cases ha
        exact .of_same hne .refl
      | write r =>
        dsimp only at ha
        split at ha
        · cases ha
          obtain ⟨c, cs, hc⟩ := List.exists_cons_of_ne_nil hne
          exact ⟨c, cs, c.events.set (.init r) .yes, hc, by unfold Coding.occurs; rw [mapEvents_view, hc]; rfl,
            List.prefix_refl _, rfl, rfl, rfl, rfl⟩
        · cases ha
          exact .of_same hne .refl
        · cases ha
    exact hquiet.trans (ih hquiet.ne_nil h)

/-- The instruction that uses the expression has its label. -/
theorem codeExpr_meets {i : L → Instr L} {x : Expr L} {pos : Option Nat} (hi : (i x.label).labels = [x.label])
    (hne : es.view ≠ []) (h : es.codeExpr i x = some (es', pos)) : Meets results (instr x.label) es es' := by
  obtain ⟨es₁, ha, heq⟩ := Option.map_eq_some_iff.mp h
  cases heq
  refine (accesses_quiet hne ha).meets_code _ fun l hl => ?_
  rw [hi, visits_instr.mp hl]
  exact List.mem_singleton_self _

theorem leaveContext_quiet {d : Nat} (hne : es.view ≠ []) (h : es.leaveContext d = some es') : Quiet es es' := by
  unfold Coding.leaveContext at h
  split at h
  · cases h
  · split at h
    · cases h
      exact .of_same hne .refl
    · obtain ⟨n, -, h⟩ := Option.bind_eq_some_iff.mp h
      obtain ⟨m, -, rfl⟩ := Option.map_eq_some_iff.mp h
      split
      · exact code_quiet hne _
      · exact .of_same hne .refl

theorem checkInits_eq (h : es.checkInits = some es') : es' = es := by
  obtain ⟨-, -, rfl⟩ := Option.map_eq_some_iff.mp h
  rfl

/-- A jump that goes to where the current context has come to. -/
theorem fixupMark_quiet {pos : Nat} {m : Codemark} (hne : es.view ≠ []) (h : Coding.fixupMark pos es m = some es') :
    Quiet es es' := by
  obtain ⟨es₁, h₁, rfl⟩ := Option.map_eq_some_iff.mp h
  have hsame := setjump_same h₁
  obtain ⟨c, cs, hc⟩ := List.exists_cons_of_ne_nil hne
  refine ⟨c, cs, c.events.set .target ((c.events.events .target).bump m.xstate), hc, ?_, hsame.labels, rfl, rfl, rfl, rfl⟩
  unfold eTarget
  rw [mapEvents_view, hsame.view, hc]
  rfl

theorem fixup_quiet {jumps : Context → List Codemark} {unlink : Context → Context}
    (hunlink : ∀ c, (unlink c).core = c.core) (hne : es.view ≠ []) (h : es.fixup jumps unlink = some es') :
    Quiet es es' := by
  unfold Coding.fixup at h
  split at h
  · cases h
    exact .of_same hne .refl
  · rename_i c cs hes
    have hsame : Same es { es with contexts := unlink c :: cs } := by
      refine ⟨?_, List.prefix_refl _⟩
      unfold Coding.view
      rw [hes, List.map_cons, List.map_cons, hunlink]
    have hfold (ms : List Codemark) (pos : Nat) {es₁ : Coding L} (hquiet : Quiet es es₁) :
        ms.foldlM (Coding.fixupMark pos) es₁ = some es' → Quiet es es' := by
      induction ms generalizing es₁ with
      | nil =>
        intro h
        cases h
        exact hquiet
      | cons m ms ih =>
        intro h
        obtain ⟨es₂, h₂, h⟩ := Option.bind_eq_some_iff.mp h
        exact ih (hquiet.trans (fixupMark_quiet hquiet.ne_nil h₂)) h
    exact hfold _ _ (.of_same hne hsame) h

theorem fixupContinuations_quiet (hne : es.view ≠ []) (h : es.fixupContinuations = some es') : Quiet es es' := by
  have hcore (c : Context) : ({ c with contjumps := [] } : Context).core = c.core := rfl
  exact fixup_quiet hcore hne h

theorem fixupBreaks_quiet (hne : es.view ≠ []) (h : es.fixupBreaks = some es') : Quiet es es' := by
  have hcore (c : Context) : ({ c with endjumps := [] } : Context).core = c.core := rfl
  exact fixup_quiet hcore hne h

theorem Steps.refl (hne : es.view ≠ []) : Steps results es es :=
  ((Quiet.of_same hne .refl).meets (P := done .next) fun _ => visits_done).steps

theorem eBreak_steps {d : Nat} (hne : es.view ≠ []) : Steps results es (es.mapContexts (eBreak d)) := by
  unfold Coding.view at hne
  cases hes : es.contexts with
  | nil => rw [hes] at hne; exact (hne rfl).elim
  | cons c cs =>
    have hview : es.view = c.core :: cs.map Context.core := by
      unfold Coding.view
      rw [hes]
      rfl
    unfold Coding.mapContexts eBreak
    rw [hes]
    dsimp only [List.head?_cons]
    cases (c :: cs)[d]? with
    | none => exact ⟨_, _, c.core.events, hview, rfl, List.prefix_refl _, fun _ hb => hb⟩
    | some ctx =>
      refine ⟨_, _, _, hview, rfl, List.prefix_refl _, fun _ hb => ?_⟩
      dsimp only
      split <;> exact hb

/-- A jump out of the statement that it is in. -/
theorem codeJumpOut_meets {link : Codemark → Context → Context} {d : Nat} {x : Exit}
    (hlink : ∀ m c, (link m c).core = c.core) (hx : x ≠ .next) (hne : es.view ≠ [])
    (h : es.codeJumpOut link l d = some es') : Meets results (jump l x) es es' := by
  have hends : ¬ (jump l x).Ends .next := fun h => (ends_jump.mp h).elim nofun fun h => hx h.symm
  unfold Coding.codeJumpOut at h
  dsimp only at h
  split at h
  · rename_i hdead
    cases h
    refine ⟨.refl hne, fun hlive => (hlive.testExit ?_).elim, fun _ h => (hends h).elim⟩
    cases hexit : testExit es.contexts with
    | yes => rfl
    | _ => rw [hexit] at hdead; cases hdead
  · obtain ⟨es₁, hleave, rfl⟩ := Option.map_eq_some_iff.mp h
    have hcode : Meets results (jump l x) es (es₁.code (.jump l 0)) :=
      (leaveContext_quiet hne hleave).meets_code (.jump l 0) fun _ hl => List.mem_singleton.mpr (visits_jump.mp hl)
    -- Only jumps are linked, which are not in view.
    have hview (m : Codemark) : ((es₁.code (.jump l 0)).mapContexts fun cs => cs.modify d (link m)).view =
        (es₁.code (.jump l 0)).view := by
      unfold Coding.view Coding.mapContexts
      dsimp only
      refine List.ext_getElem? fun n => ?_
      rw [List.getElem?_map, List.getElem?_modify, List.getElem?_map]
      cases (es₁.code (.jump l 0)).contexts[n]? with
      | none => rfl
      | some c =>
        dsimp only [Option.map_some]
        split
        · exact congrArg some (hlink _ c)
        · rfl
    have hlinked : Meets results (done Exit.next) _ _ :=
      (Quiet.of_same hcode.steps.ne_nil ⟨hview ⟨es₁.mark, (testExit es.contexts).not⟩, List.prefix_refl _⟩).meets fun _ => visits_done
    exact ⟨(hcode.steps.trans hlinked.steps).trans (eBreak_steps hlinked.steps.ne_nil), hcode.visits,
      fun _ h => (hends h).elim⟩

theorem codeBreak_meets {d : Nat} (hne : es.view ≠ []) (h : es.codeBreak l d = some es') :
    Meets results (jump l .brk) es es' := by
  refine codeJumpOut_meets ?_ (by decide) hne h
  intro _ _
  rfl

theorem codeNext_meets {d : Nat} (hne : es.view ≠ []) (h : es.codeNext l d = some es') :
    Meets results (jump l .cont) es es' := by
  refine codeJumpOut_meets ?_ (by decide) hne h
  intro _ _
  rfl

/-! ## Branches -/

theorem Adds.ne_nil (h : Adds results P es es' bs) : es'.view ≠ [] := by
  obtain ⟨c, cs, -, hview'⟩ := h.view
  rw [hview']
  exact List.cons_ne_nil _ _

theorem Adds.live (h : Adds results P es es' bs) (hlive : Live es) : Live es' := by
  obtain ⟨c, cs, hview, hview'⟩ := h.view
  exact ⟨_, _, hview', ((live_iff hview).mp hlive).branches⟩

/-- Paths of one or another group of branches. -/
theorem Adds.append {bs' : List Cevlist} (h : Adds results P es es₁ bs) (h' : Adds results Q es₁ es' bs') :
    Adds results (choice P Q) es es' (bs ++ bs') where
  labels := h.labels.trans h'.labels
  view := by
    obtain ⟨c, cs, hview, hview₁⟩ := h.view
    obtain ⟨c', cs', hview₁', hview'⟩ := h'.view
    rw [hview₁] at hview₁'
    cases hview₁'
    refine ⟨c, cs, hview, hview'.trans ?_⟩
    rw [List.append_assoc]
  balanced hr e he := (List.mem_append.mp he).elim (h.balanced hr e) (h'.balanced hr e)
  visits hlive l hl := (visits_choice.mp hl).elim (fun hl => h'.labels.subset (h.visits hlive l hl))
    (h'.visits (h.live hlive) l)
  passes hlive hends := by
    rcases ends_choice.mp hends with hends | hends
    · obtain ⟨e, he, hpasses⟩ := h.passes hlive hends
      exact ⟨e, List.mem_append_left _ he, hpasses⟩
    · obtain ⟨e, he, hpasses⟩ := h'.passes (h.live hlive) hends
      exact ⟨e, List.mem_append_right _ he, hpasses⟩

theorem sum_states_le (bs : List Cevlist) (i : Event) : (bs.map fun e => (e.events i).toNat).sum ≤ bs.length * 2 := by
  have hle (x : Cestate) : x.toNat ≤ 2 := by cases x <;> decide
  induction bs with
  | nil => exact le_rfl
  | cons e bs ih =>
    have := hle (e.events i)
    rw [List.map_cons, List.sum_cons, List.length_cons]
    omega

/-- What an event is in branches that are not all certain of it. -/
theorem sumState_ne_yes (he : e ∈ bs) (hi : e.events i ≠ .yes) : Cevlist.sumState bs i ≠ .yes := by
  have hlt : (bs.map fun e => (e.events i).toNat).sum < bs.length * 2 := by
    have hne : (e.events i).toNat < 2 := by
      cases hx : e.events i with
      | yes => exact (hi hx).elim
      | _ => decide
    obtain ⟨bs₁, bs₂, rfl⟩ := List.append_of_mem he
    have h₁ := sum_states_le bs₁ i
    have h₂ := sum_states_le bs₂ i
    rw [List.map_append, List.map_cons, List.sum_append, List.sum_cons, List.length_append, List.length_cons]
    omega
  unfold Cevlist.sumState
  dsimp only
  split
  · decide
  · rw [if_neg hlt.ne']
    decide

theorem sumState_balanced (hbs : ∀ e ∈ bs, e.Balanced) : Cevlist.sumState bs .ret = Cevlist.sumState bs .result := by
  have hsum : (bs.map fun e => (e.events .ret).toNat) = bs.map fun e => (e.events .result).toNat :=
    List.map_congr_left fun e he => congrArg Cestate.toNat (hbs e he)
  unfold Cevlist.sumState
  rw [hsum]

theorem shallowest_le (he : e ∈ bs) : Cevlist.shallowest bs ≤ e.breakto - 1 := by
  unfold Cevlist.shallowest
  have hfold (s : Int) : bs.foldl (fun s e => if e.breakto - 1 < s then e.breakto - 1 else s) s ≤ s ∧
      ∀ e ∈ bs, bs.foldl (fun s e => if e.breakto - 1 < s then e.breakto - 1 else s) s ≤ e.breakto - 1 := by
    clear he
    induction bs generalizing s with
    | nil => exact ⟨le_rfl, nofun⟩
    | cons b bs ih =>
      obtain ⟨hs, hall⟩ := ih (if b.breakto - 1 < s then b.breakto - 1 else s)
      refine ⟨hs.trans (by split <;> omega), fun e he => ?_⟩
      rcases List.mem_cons.mp he with rfl | he
      · exact hs.trans (by split <;> omega)
      · exact hall e he
  exact (hfold _).2 e he

theorem merge_balanced (he : e.Balanced) (hbs : ∀ e ∈ bs, e.Balanced) : (e.merge m bs).Balanced := by
  cases bs with
  | nil => exact he
  | cons b bs =>
    show Cestate.bump _ _ = Cestate.bump _ _
    rw [sumState_balanced hbs, show e.events .ret = e.events .result from he]

/-- Control may be behind branches that it may come out of, and behind those that are not the only way on. -/
theorem LiveIn.merge (h : LiveIn c cs) (hm : m = .yes → ∃ e ∈ bs, e.Passes) :
    LiveIn { c with events := c.events.merge m bs } cs := by
  cases bs with
  | nil => exact h
  | cons b bs =>
    refine ⟨(notYet_congr rfl).mpr h.exit, ⟨?_, h.ret.2⟩, ?_⟩
    · show Cestate.bump _ _ ≠ .yes
      rw [Cestate.bump_ne_yes, Cestate.limit_ne_yes]
      refine ⟨h.ret.1, or_iff_not_imp_right.mpr fun hyes => ?_⟩
      obtain ⟨e, he, hpasses⟩ := hm (not_not.mp hyes)
      exact sumState_ne_yes he hpasses.ret
    · show (if m = .yes ∧ c.events.breakto < Cevlist.shallowest (b :: bs) then _ else c.events.breakto) = 0
      rw [if_neg]
      · exact h.breakto
      · rintro ⟨hyes, hlt⟩
        obtain ⟨e, he, hpasses⟩ := hm hyes
        have hle := shallowest_le he
        have hbreakto := hpasses.breakto
        rw [h.breakto] at hlt
        omega

/-- Events are merged into those of the context. -/
theorem Adds.merge (h : Adds results P es es' bs) (hr : Ready es) (hvisits : ∀ l, Q.Visits l → P.Visits l)
    (hends : m = .yes → Q.Ends .next → P.Ends .next) : Meets results Q es (es'.merge m) := by
  obtain ⟨c, cs, hview, hview'⟩ := h.view
  have hbranches : c.branches = [] := by
    obtain ⟨c', cs', hc, hb⟩ := hr
    rw [hview] at hc
    cases hc
    exact hb
  have hmerged : (es'.merge m).view = { c with events := c.events.merge m bs } :: cs := by
    unfold Coding.view at hview'
    unfold Coding.view Coding.merge Coding.mapContexts
    dsimp only
    cases hes : es'.contexts with
    | nil => rw [hes] at hview'; cases hview'
    | cons c₀ cs₀ =>
      rw [hes, List.map_cons, hbranches, List.nil_append] at hview'
      obtain ⟨hc₀, rfl⟩ := List.cons_eq_cons.mp hview'
      obtain ⟨type, xblock, flags, level, startpos, events, branches, endjumps, contjumps⟩ := c
      obtain rfl : branches = [] := hbranches
      cases hc₀
      rfl
  refine ⟨⟨c, cs, _, hview, hmerged, h.labels, fun hr hb => merge_balanced hb (h.balanced hr)⟩,
    fun hlive l hl => h.visits hlive l (hvisits l hl), fun hlive hq => ⟨_, _, hmerged, ?_⟩⟩
  exact ((live_iff hview).mp hlive).merge fun hm => h.passes hlive (hends hm hq)

/-! ## Contexts within contexts -/

section Child

variable {type : ContextType} {xblock : Bool} {flags : Flags}

theorem push_view : ∃ level pos, (es.push type xblock flags).view = ⟨type, xblock, flags, level, pos, .opened, [], [], []⟩ :: es.view :=
  ⟨_, _, rfl⟩

theorem push_ready : Ready (es.push type xblock flags) := ⟨_, _, rfl, rfl⟩

theorem push_ne_nil : (es.push type xblock flags).view ≠ [] := List.cons_ne_nil _ _

theorem opened_ne_yes : Cevlist.opened.events i ≠ .yes := by
  show Cestate.no ≠ .yes
  decide

theorem Live.push (h : Live es) : Live (es.push type xblock flags) := by
  obtain ⟨c, cs, hview, hlive⟩ := h
  refine ⟨_, _, rfl, ⟨opened_ne_yes, .inr ?_⟩, ⟨opened_ne_yes, .inr ?_⟩, rfl⟩
  · show NotYet .exit es.view
    rw [hview]
    exact hlive.exit
  · show NotYet .ret es.view
    rw [hview]
    exact hlive.ret

/-- In a function of its own, it does not matter what has happened around it. -/
theorem live_function : Live (es.push .function xblock flags) :=
  ⟨_, _, rfl, ⟨opened_ne_yes, .inl rfl⟩, ⟨opened_ne_yes, .inl rfl⟩, rfl⟩

theorem pop_view : es.pop.view = contextPop es.view := by
  unfold Coding.view Coding.pop Coding.mapContexts
  dsimp only
  match es.contexts with
  | [] => rfl
  | [_] => rfl
  | c :: p :: cs =>
    obtain ⟨type, xblock, flags, level, startpos, events, branches, endjumps, contjumps⟩ := c
    obtain ⟨conditional, breakable, continuable, repeatable, keep⟩ := flags
    cases type <;> cases xblock <;> cases conditional <;> rfl

/-- What has changed in a context that was pushed. -/
theorem Steps.child (h : Steps results (es.push type xblock flags) es₁) :
    ∃ level pos e, es₁.view = ⟨type, xblock, flags, level, pos, e, [], [], []⟩ :: es.view ∧ es.labels <+: es₁.labels ∧
      (results = true → e.Balanced) := by
  obtain ⟨c', cs', e, hpushed, hview₁, hlabels, hbalanced⟩ := h
  obtain ⟨level, pos, hlevel⟩ : ∃ level pos, (es.push type xblock flags).view = ⟨type, xblock, flags, level, pos, .opened, [], [], []⟩ :: es.view :=
    push_view
  rw [hlevel] at hpushed
  cases hpushed
  exact ⟨level, pos, e, hview₁, hlabels, fun hr => hbalanced hr rfl⟩

/-- Control that comes out of a branch. -/
def ComesOut (es : Coding L) : Prop := ∃ c cs, es.view = c :: cs ∧ c.events.events .ret ≠ .yes ∧ c.events.breakto ≤ 1

theorem Live.comesOut (h : Live es) : ComesOut es := by
  obtain ⟨c, cs, hview, hlive⟩ := h
  exact ⟨c, cs, hview, hlive.ret.1, hlive.breakto.le.trans (by decide)⟩

/-- A conditional context is a branch of the previous one when it is popped. -/
theorem Steps.branch (h : Steps results (es.push type xblock flags) es₁) (htype : type ≠ .function)
    (hflags : flags.conditional = true) (hne : es.view ≠ [])
    (hvisits : Live es → ∀ l, P.Visits l → l ∈ es₁.labels) (hout : Live es → P.Ends .next → ComesOut es₁) :
    ∃ e, Adds results P es es₁.pop [e] := by
  obtain ⟨c, cs, hview⟩ := List.exists_cons_of_ne_nil hne
  obtain ⟨level, pos, e, hview₁, hlabels, hbalanced⟩ := h.child
  rw [hview] at hview₁
  refine ⟨e.movedUp type, hlabels, ⟨c, cs, hview, ?_⟩, ?_, hvisits, fun hlive hends => ?_⟩
  · rw [pop_view, hview₁]
    cases type with
    | function => exact (htype rfl).elim
    | _ => exact congrArg (· :: cs) (if_pos hflags)
  · intro hr _ he
    rw [List.mem_singleton.mp he]
    exact hbalanced hr
  · obtain ⟨_, _, hc, hret, hbreakto⟩ := hout hlive hends
    rw [hview₁] at hc
    cases hc
    refine ⟨_, List.mem_singleton_self _, hret, ?_⟩
    show (if e.breakto ≠ 0 then e.breakto - 1 else e.breakto) ≤ 0
    dsimp only at hbreakto
    split <;> omega

theorem Meets.branch (h : Meets results P (es.push type xblock flags) es₁) (htype : type ≠ .function)
    (hflags : flags.conditional = true) (hne : es.view ≠ []) : ∃ e, Adds results P es es₁.pop [e] :=
  h.steps.branch htype hflags hne (fun hlive => h.visits hlive.push) fun hlive hends => (h.live hlive.push hends).comesOut

/-- What has happened in another context has happened in the previous one when it is popped. -/
theorem Meets.scoped (h : Meets results P (es.push type xblock flags) es₁) (htype : type ≠ .function)
    (hflags : flags.conditional = false) (hne : es.view ≠ []) : Meets results P es es₁.pop := by
  obtain ⟨c, cs, hview⟩ := List.exists_cons_of_ne_nil hne
  obtain ⟨level, pos, e, hview₁, hlabels, hbalanced⟩ := h.steps.child
  rw [hview] at hview₁
  have hpop : es₁.pop.view = { c with events := e.mergedUp type c.events } :: cs := by
    rw [pop_view, hview₁]
    cases type with
    | function => exact (htype rfl).elim
    | _ => exact congrArg (· :: cs) (if_neg (Bool.eq_false_iff.mp hflags))
  refine ⟨⟨c, cs, _, hview, hpop, hlabels, fun hr hb => ?_⟩, fun hlive => h.visits hlive.push, fun hlive hends => ?_⟩
  · show Cestate.bump _ _ = Cestate.bump _ _
    rw [show c.events.events .ret = c.events.events .result from hb,
      show e.events .ret = e.events .result from hbalanced hr]
  · have hlive' := (live_iff hview₁).mp (h.live hlive.push hends)
    have hlive := (live_iff hview).mp hlive
    exact ⟨_, _, hpop, ⟨Cestate.bump_ne_yes.mpr ⟨hlive.exit.1, hlive'.exit.1⟩, hlive.exit.2⟩,
      ⟨Cestate.bump_ne_yes.mpr ⟨hlive.ret.1, hlive'.ret.1⟩, hlive.ret.2⟩, hlive.breakto⟩

/-- A block that is a function of its own is a branch, and has its own code. -/
theorem xblock_adds {f : Coding L → Option (Coding L)} {tf : List (Instr L)} (hne : es.view ≠ [])
    (h : es.xblock f = some (es', tf))
    (hf : ∀ fs, f (({ es with coded := [] } : Coding L).push .function true Coding.noFlags) = some fs →
      Meets results P (({ es with coded := [] } : Coding L).push .function true Coding.noFlags) fs) :
    (∀ l, P.Visits l → l ∈ Instr.labelsOf tf) ∧ ∃ e, Adds results (ending P) es es' [e] := by
  obtain ⟨fs, hfs, heq⟩ := Option.map_eq_some_iff.mp h
  cases heq
  have hmeets := hf fs hfs
  obtain ⟨c, cs, hview⟩ := List.exists_cons_of_ne_nil hne
  obtain ⟨level, pos, e, hview₁, -, hbalanced⟩ := hmeets.steps.child
  rw [show ({ es with coded := [] } : Coding L).view = es.view from rfl, hview] at hview₁
  refine ⟨fun l hl => (code_labels .ret).subset (hmeets.visits live_function l hl), e.movedUpXblock,
    List.prefix_refl _, ⟨c, cs, hview, ?_⟩, ?_, fun _ l hl => (visits_ending hl).elim, fun _ hends => ?_⟩
  · show fs.pop.view = _
    rw [pop_view, hview₁]
    rfl
  · intro hr _ he
    rw [List.mem_singleton.mp he]
    exact hbalanced hr
  · have hlive := (live_iff hview₁).mp (hmeets.live live_function (ends_ending.mp hends))
    exact ⟨_, List.mem_singleton_self _, hlive.ret.1, hlive.breakto.le⟩

end Child

end Events

end Eel
