-- SUMMARY: Every instruction on a path through a function is coded, and no function is left without its result.
import Eel.Compiler.DeadCode

/-!
# Reached code

Each statement is coded with all that control can get to in it, if its parts are. So this
holds of every function, by induction on its statements.
-/

namespace Eel

namespace Events

open Traces Behaviour Paths Coding

variable {L : Type} {results : Bool} {es es₁ es₂ es₃ es' : Coding L} {P Q : Paths L} {l : L} {s s' : Stat L} {x : Expr L}
  {bs : List Cevlist}

/-! ## Parts of statements -/

theorem Meets.quiet (h : Meets results P es es₁) (h' : Quiet es₁ es') : Meets results P es es' where
  steps := h.steps.trans (h'.meets (P := done .next) fun _ => visits_done).steps
  visits hlive l hl := by
    obtain ⟨c, cs, e, -, -, hcoded, -⟩ := h'
    exact hcoded.subset (h.visits hlive l hl)
  live hlive hends := h'.live (h.live hlive hends)

theorem Meets.same (h : Meets results P es es₁) (h' : Same es₁ es') : Meets results P es es' :=
  h.quiet (.of_same h.steps.ne_nil h')

theorem Quiet.meets_jump {i : Instr L} {y : Exit} (h : Quiet es es₁) (hi : i.labels = [l]) :
    Meets results (jump l y) es (es₁.code i) := by
  refine h.meets_code i fun l' hl => ?_
  rw [hi, visits_jump.mp hl]
  exact List.mem_singleton_self l

theorem Meets.code {i : Instr L} (h : Meets results P es es₁) (hi : i.labels = [l]) :
    Meets results (seq P (jump l .next)) es (es₁.code i) :=
  h.trans ((Quiet.of_same h.steps.ne_nil .refl).meets_jump hi)

theorem Ready.ne_nil (h : Ready es) : es.view ≠ [] := by
  obtain ⟨c, cs, hview, -⟩ := h
  rw [hview]
  exact List.cons_ne_nil _ _

/-- Where there are no branches, nothing is merged. -/
theorem merge_view {m : Cestate} (h : Ready es) : (es.merge m).view = es.view := by
  obtain ⟨c, cs, hview, hbranches⟩ := h
  unfold Coding.view at hview
  unfold Coding.view Coding.merge Coding.mapContexts
  dsimp only
  cases hes : es.contexts with
  | nil => rfl
  | cons c₀ cs₀ =>
    rw [hes] at hview
    obtain ⟨hc₀, -⟩ := List.cons_eq_cons.mp hview
    have hnone : c₀.branches = [] := (congrArg Context.branches hc₀).trans hbranches
    obtain ⟨type, xblock, flags, level, startpos, events, branches, endjumps, contjumps⟩ := c₀
    obtain rfl : branches = [] := hnone
    rfl

theorem merge_quiet {m : Cestate} (h : Ready es) : Quiet es (es.merge m) :=
  .of_same h.ne_nil ⟨merge_view h, List.prefix_refl _⟩

theorem Adds.same (h : Adds results P es es₁ bs) (h' : Same es₁ es') : Adds results P es es' bs where
  labels := h.labels.trans h'.labels
  view := by
    rw [h'.view]
    exact h.view
  balanced := h.balanced
  visits hlive l hl := h'.labels.subset (h.visits hlive l hl)
  passes := h.passes

theorem Same.live (h : Same es es') (hlive : Live es) : Live es' := by
  unfold Live
  rw [h.view]
  exact hlive

theorem Adds.of_same (h : Adds results P es₁ es' bs) (h' : Same es es₁) : Adds results P es es' bs where
  labels := h'.labels.trans h.labels
  view := by
    rw [← h'.view]
    exact h.view
  balanced := h.balanced
  visits hlive := h.visits (h'.live hlive)
  passes hlive := h.passes (h'.live hlive)

theorem Adds.code {i : Instr L} (h : Adds results P es es₁ bs)
    (hvisits : ∀ l, Q.Visits l → l ∈ i.labels ∨ P.Visits l) (hends : Q.Ends .next → P.Ends .next) :
    Adds results Q es (es₁.code i) bs where
  labels := h.labels.trans (code_labels _)
  view := by
    rw [code_view]
    exact h.view
  balanced := h.balanced
  visits hlive l hl := by
    rcases hvisits l hl with hl | hl
    · exact (h.live hlive).labels_code i hl
    · exact (code_labels _).subset (h.visits hlive l hl)
  passes hlive hq := h.passes hlive (hends hq)

theorem enter_conditional (es : Coding L) (isBody : Bool) {flags : Flags} (hflags : flags.conditional = true) :
    ∃ type, type ≠ .function ∧ es.enter isBody flags = es.push type false flags := by
  unfold Coding.enter
  cases isBody with
  | true => exact ⟨.body, by decide, rfl⟩
  | false => exact ⟨.block, by decide, if_pos hflags⟩

theorem leave_conditional {isBody : Bool} (h : es.leave isBody conditional = some es') :
    ∃ es₁, es.leaveContext 0 = some es₁ ∧ es₁.pop = es' := by
  unfold Coding.leave at h
  rw [if_pos ⟨.inr rfl, by decide⟩] at h
  exact Option.map_eq_some_iff.mp h

/-! ## Statements -/

/-- The statement is coded with all that control can get to. -/
def Codes (results : Bool) (s : Stat L) : Prop :=
  ∀ {es es'}, inner results s es = some es' → Ready es → Meets results s.paths es es'

theorem Codes.branch (hs : Codes results s) {flags : Flags} (hflags : flags.conditional = true)
    (h : inner results s (es.enter s.isBody flags) = some es₁) :
    ∃ type, type ≠ .function ∧ Meets results s.paths (es.push type false flags) es₁ := by
  obtain ⟨type, htype, henter⟩ := enter_conditional es s.isBody hflags
  rw [henter] at h
  exact ⟨type, htype, hs h push_ready⟩

theorem ifstat_codes (hs : Codes results s) : Codes results (.ifstat x s) := by
  intro es es' h hr
  obtain ⟨⟨es₁, jumpFalse⟩, h₁, h⟩ := Option.bind_eq_some_iff.mp h
  obtain ⟨es₂, h₂, h⟩ := Option.bind_eq_some_iff.mp h
  obtain ⟨es₃, h₃, h⟩ := Option.bind_eq_some_iff.mp h
  obtain ⟨es₄, h₄, h⟩ := Option.bind_eq_some_iff.mp h
  rw [checkInits_eq h]
  have hexpr : Meets results (instr x.label) es es₁ := codeExpr_meets rfl hr.ne_nil h₁
  obtain ⟨type, htype, hbody⟩ := hs.branch rfl h₂
  obtain ⟨e, hadds⟩ := (hbody.quiet (leaveContext_quiet hbody.steps.ne_nil h₃)).branch htype rfl hexpr.steps.ne_nil
  refine hexpr.trans ((hadds.same (setjump_same h₄)).merge (hexpr.steps.ready hr) (fun l hl => ?_) nofun)
  exact (visits_choice.mp hl).resolve_left visits_done

theorem ifelse_codes {out : L} (hs : Codes results s) (hs' : Codes results s') : Codes results (.ifelse x s out s') := by
  intro es es' h hr
  obtain ⟨⟨es₁, jumpFalse⟩, h₁, h⟩ := Option.bind_eq_some_iff.mp h
  obtain ⟨es₂, h₂, h⟩ := Option.bind_eq_some_iff.mp h
  obtain ⟨es₃, h₃, h⟩ := Option.bind_eq_some_iff.mp h
  obtain ⟨es₄, h₄, h⟩ := Option.bind_eq_some_iff.mp h
  obtain ⟨es₅, h₅, h⟩ := Option.bind_eq_some_iff.mp h
  obtain ⟨es₆, hleave, h⟩ := Option.bind_eq_some_iff.mp h
  obtain ⟨es₇, h₇, h⟩ := Option.bind_eq_some_iff.mp h
  rw [checkInits_eq h]
  obtain ⟨es₈, h₈, rfl⟩ := leave_conditional hleave
  have hexpr : Meets results (instr x.label) es es₁ := codeExpr_meets rfl hr.ne_nil h₁
  obtain ⟨type, htype, hbody⟩ := hs.branch rfl h₂
  obtain ⟨e, hadds⟩ := ((hbody.quiet (leaveContext_quiet hbody.steps.ne_nil h₃)).code (i := .jump out 0) rfl).branch htype
    rfl hexpr.steps.ne_nil
  have hjump := hadds.same (setjump_same h₄)
  obtain ⟨type', htype', hbody'⟩ := hs'.branch rfl h₅
  obtain ⟨e', hadds'⟩ := (hbody'.quiet (leaveContext_quiet hbody'.steps.ne_nil h₈)).branch htype' rfl hjump.ne_nil
  have hboth := (hjump.append hadds').same (setjump_same h₇)
  exact hexpr.trans (hboth.merge (hexpr.steps.ready hr) (fun _ hl => hl) fun _ hends => hends)

/-! ## Loops -/

/-- The body of a loop, up to where `continue` goes. -/
theorem Codes.loop_body {flags : Flags} (hs : Codes results s) (hflags : flags.conditional = true)
    (h₁ : inner results s (es.enter s.isBody flags) = some es₁) (h₂ : es₁.leaveContext 0 = some es₂)
    (h₃ : es₂.fixupContinuations = some es₃) :
    ∃ type, type ≠ .function ∧ Meets results s.paths (es.push type false flags) es₃ := by
  obtain ⟨type, htype, hbody⟩ := hs.branch hflags h₁
  have hleft := hbody.quiet (leaveContext_quiet hbody.steps.ne_nil h₂)
  exact ⟨type, htype, hleft.quiet (fixupContinuations_quiet hleft.steps.ne_nil h₃)⟩

/-- A loop, up to where `break` goes. -/
theorem Meets.loop_end {type : ContextType} {flags : Flags} (h : Meets results P (es.push type false flags) es₁)
    (h' : es₁.fixupBreaks = some es') (htype : type ≠ .function) (hflags : flags.conditional = true) (hne : es.view ≠ []) :
    ∃ e, Adds results P es es'.pop [e] :=
  (h.quiet (fixupBreaks_quiet h.steps.ne_nil h')).branch htype hflags hne

/-- A round of a loop does what its body does, if `continue` is not the only way to its end. -/
theorem visits_round {repeatable : Bool} {R : Paths L} (hcont : EndsToo P .cont) (hR : ∃ y, R.Ends y)
    (hQ : ∀ l, Q.Visits l → R.Visits l) (h : (turn P Q repeatable).Visits l) : (seq P R).Visits l :=
  visits_seq hR ((visits_of_turn h).imp_right fun ⟨hends, hl⟩ => ⟨hends.elim id hcont, hQ l hl⟩)

theorem whilestat_codes {t : Test L} (hs : Codes results s) (hregular : (Stat.whilestat t s l).Regular) :
    Codes results (.whilestat t s l) := by
  intro es es' h hr
  obtain ⟨⟨es₁, jumpOut, evstate⟩, h₁, h⟩ := Option.bind_eq_some_iff.mp h
  obtain ⟨es₂, h₂, h⟩ := Option.bind_eq_some_iff.mp h
  obtain ⟨es₃, h₃, h⟩ := Option.bind_eq_some_iff.mp h
  obtain ⟨es₄, h₄, h⟩ := Option.bind_eq_some_iff.mp h
  obtain ⟨es₅, h₅, h⟩ := Option.bind_eq_some_iff.mp h
  obtain ⟨es₆, h₆, h⟩ := Option.bind_eq_some_iff.mp h
  obtain ⟨es₇, h₇, h⟩ := Option.bind_eq_some_iff.mp h
  rw [checkInits_eq h]
  obtain ⟨type, htype, hbody⟩ := hs.loop_body rfl h₂ h₃ h₄
  have hends (hne : es₁.view ≠ []) :=
    (((hbody.code (i := .jump l 0) rfl).same (setjump_same h₅)).same (setjump_same h₆)).loop_end h₇ htype rfl hne
  have hjump : ∃ y, (jump l .next).Ends y := ⟨.cut, ends_jump.mpr (.inl rfl)⟩
  have hround {repeatable : Bool} (hcont : EndsToo s.paths .cont) {l' : L} :
      (turn s.paths (jump l .cont) repeatable).Visits l' → (seq s.paths (jump l .next)).Visits l' :=
    visits_round hcont hjump fun _ h => visits_jump.mpr (visits_jump.mp h)
  cases t with
  | never out =>
    cases h₁
    have hout : Meets results (jump out .next) es (es.code (.jump out 0)) :=
      (Quiet.of_same hr.ne_nil .refl).meets_jump rfl
    obtain ⟨e, hadds⟩ := hends hout.steps.ne_nil
    -- What is in the loop does not matter.
    have hmerge := hadds.merge (m := .no) (Q := done .next) (hout.steps.ready hr) (fun _ hl => (visits_done hl).elim) nofun
    exact (hout.trans hmerge).mono (fun l' hl' => visits_seq ⟨.next, ends_done.mpr rfl⟩ (.inl hl')) fun h =>
      ends_seq_next.mpr ⟨h, ends_done.mpr rfl⟩
  | always =>
    cases h₁
    obtain ⟨-, hcont, hbrk⟩ := hregular
    obtain ⟨e, hadds⟩ := hends hr.ne_nil
    refine hadds.merge hr (fun l' hl' => hround hcont (visits_of_rounds hl')) fun _ hloop => ?_
    -- The only way out is a `break`.
    have hout := (ends_of_turn (ends_of_rounds hloop).1).resolve_right fun h => (ends_jump.mp h).elim nofun nofun
    exact ends_seq_next.mpr ⟨hbrk hout, ends_jump.mpr (.inr rfl)⟩
  | expr x =>
    obtain ⟨⟨es₀, p⟩, h₀, heq⟩ := Option.map_eq_some_iff.mp h₁
    cases heq
    have hexpr : Meets results (instr x.label) es es₁ := codeExpr_meets rfl hr.ne_nil h₀
    obtain ⟨e, hadds⟩ := hends hexpr.steps.ne_nil
    have hmerge := hadds.merge (m := .maybe) (Q := choice (done .next) (turn s.paths (jump l .cont) false))
      (hexpr.steps.ready hr) (fun l' hl' => hround hregular.2 ((visits_choice.mp hl').resolve_left visits_done)) nofun
    exact (hexpr.trans hmerge).mono (fun _ => visits_of_rounds) fun h => (ends_of_rounds h).1

/-- A test at the end of a round. -/
theorem visits_test {y : Exit} (h : (seq (instr l) (choice (done .next) (done y))).Visits l') : l' = l := by
  rcases visits_of_seq h with hl | ⟨-, hl⟩
  · exact visits_instr.mp hl
  · exact ((visits_choice.mp hl).elim visits_done visits_done).elim

theorem dostat_codes (hs : Codes results s) (hcont : EndsToo s.paths .cont) : Codes results (.dostat s x) := by
  intro es es' h hr
  obtain ⟨es₁, h₁, h⟩ := Option.bind_eq_some_iff.mp h
  obtain ⟨es₂, h₂, h⟩ := Option.bind_eq_some_iff.mp h
  obtain ⟨es₃, h₃, h⟩ := Option.bind_eq_some_iff.mp h
  obtain ⟨⟨es₄, loopjump⟩, h₄, h⟩ := Option.bind_eq_some_iff.mp h
  obtain ⟨es₅, h₅, h⟩ := Option.bind_eq_some_iff.mp h
  obtain ⟨es₆, h₆, h⟩ := Option.bind_eq_some_iff.mp h
  rw [checkInits_eq h]
  obtain ⟨type, htype, hbody⟩ := hs.loop_body rfl h₁ h₂ h₃
  obtain ⟨e, hadds⟩ := ((hbody.trans (codeExpr_meets rfl hbody.steps.ne_nil h₄)).same (setjump_same h₅)).loop_end h₆ htype
    rfl hr.ne_nil
  refine hadds.merge hr (fun l' hl' => ?_) nofun
  exact visits_round hcont ⟨.cut, ends_instr.mpr (.inl rfl)⟩ (fun l hl => visits_instr.mpr (visits_test hl))
    (visits_of_rounds hl')

theorem forstat_codes (hs : Codes results s) (hcont : EndsToo s.paths .cont) : Codes results (.forstat x s l) := by
  intro es es' h hr
  obtain ⟨⟨es₁, preloop⟩, h₁, h⟩ := Option.bind_eq_some_iff.mp h
  obtain ⟨es₂, h₂, h⟩ := Option.bind_eq_some_iff.mp h
  obtain ⟨es₃, h₃, h⟩ := Option.bind_eq_some_iff.mp h
  obtain ⟨es₄, h₄, h⟩ := Option.bind_eq_some_iff.mp h
  obtain ⟨es₅, h₅, h⟩ := Option.bind_eq_some_iff.mp h
  obtain ⟨es₆, h₆, h⟩ := Option.bind_eq_some_iff.mp h
  obtain ⟨es₇, h₇, h⟩ := Option.bind_eq_some_iff.mp h
  obtain ⟨es₈, h₈, rfl⟩ := Option.map_eq_some_iff.mp h
  have hexpr : Meets results (instr x.label) (es.push .body false noFlags) es₁ := codeExpr_meets rfl push_ne_nil h₁
  obtain ⟨type, htype, hbody⟩ := hs.loop_body rfl h₂ h₃ h₄
  obtain ⟨e, hadds⟩ := (((hbody.code (i := .branch l 0) rfl).same (setjump_same h₅)).same (setjump_same h₆)).loop_end h₇
    htype rfl hexpr.steps.ne_nil
  have hmerge := hadds.merge (m := .maybe)
    (Q := choice (done .next) (loop (turn s.paths (seq (instr l) (choice (done .next) (done .cont))) true)))
    (hexpr.steps.ready push_ready) (fun l' hl' => ?_) nofun
  · exact ((hexpr.trans hmerge).quiet (leaveContext_quiet (hexpr.trans hmerge).steps.ne_nil h₈)).scoped (by decide) rfl
      hr.ne_nil
  · exact visits_round hcont ⟨.cut, ends_jump.mpr (.inl rfl)⟩ (fun l hl => visits_jump.mpr (visits_test hl))
      (visits_of_rounds ((visits_choice.mp hl').resolve_left visits_done))

/-! ## Switches -/

theorem moveBreaksUp_view : es.moveBreaksUp.view = es.view := by
  unfold Coding.view Coding.moveBreaksUp Coding.mapContexts
  dsimp only
  match es.contexts with
  | [] => rfl
  | [_] => rfl
  | c :: p :: cs => rfl

theorem moveBreaksUp_same : Same es es.moveBreaksUp := ⟨moveBreaksUp_view, List.prefix_refl _⟩

/-- The cases add branches to the context of the `switch`. -/
def CodesCases (results : Bool) (cs : Cases L) : Prop :=
  ∀ {pos es es'}, caselist results pos cs es = some es' → es.view ≠ [] → ∃ bs, Adds results cs.paths es es' bs

/-- Behind a jump to the end of its own context, a branch still has control come out of it. -/
theorem codeBreak_comesOut {out : L} (hlive : Live es) (h : es.codeBreak out 0 = some es') : ComesOut es' := by
  unfold Coding.codeBreak Coding.codeJumpOut at h
  dsimp only at h
  have hne : (testExit es.contexts).not ≠ .no := by
    have hexit := hlive.testExit
    cases hx : testExit es.contexts with
    | yes => exact (hexit hx).elim
    | _ => decide
  rw [if_neg hne] at h
  obtain ⟨es₁, h₁, rfl⟩ := Option.map_eq_some_iff.mp h
  have hview : es.view ≠ [] := by
    obtain ⟨c, cs, hview, -⟩ := hlive
    rw [hview]
    exact List.cons_ne_nil _ _
  obtain ⟨c, cs, hview₁, hlive₁⟩ := (leaveContext_quiet hview h₁).live hlive
  have hcode : (es₁.code (.jump out 0)).view = c :: cs := (code_view _).trans hview₁
  unfold Coding.view at hcode
  unfold ComesOut Coding.view Coding.mapContexts
  dsimp only
  cases hes : (es₁.code (.jump out 0)).contexts with
  | nil => rw [hes] at hcode; cases hcode
  | cons c₀ cs₀ =>
    rw [hes] at hcode
    obtain ⟨rfl, rfl⟩ := List.cons_eq_cons.mp hcode
    refine ⟨_, _, rfl, ?_, ?_⟩
    · show (if c₀.events.breakto < _ then ({ c₀.events with breakto := _ } : Cevlist) else c₀.events).events .ret ≠ .yes
      split <;> exact hlive₁.ret.1
    · show (if c₀.events.breakto < c₀.level - c₀.level + 1 then
        ({ c₀.events with breakto := c₀.level - c₀.level + 1 } : Cevlist) else c₀.events).breakto ≤ 1
      have hzero : c₀.events.breakto = 0 := hlive₁.breakto
      split
      · show c₀.level - c₀.level + 1 ≤ 1
        omega
      · omega

/-- A case is a branch, with a jump to its end. -/
theorem Codes.case {out : L} (hs : Codes results s) (hne : es.view ≠ [])
    (h₁ : inner results s (es.enter s.isBody { conditional with keep := true }) = some es₁)
    (h₂ : es₁.codeBreak out 0 = some es₂) :
    (Live es → s.paths.Ends .next → Live es₁) ∧
      ∃ e, Adds results (seq s.paths (jump out .next)) es es₂.moveBreaksUp.pop [e] := by
  obtain ⟨type, htype, hbody⟩ := hs.branch rfl h₁
  have hout : Meets results (jump out .brk) es₁ es₂ := codeBreak_meets hbody.steps.ne_nil h₂
  have hsteps := (hbody.trans hout).same moveBreaksUp_same
  have hvisits (hlive : Live es) (l : L) (hl : (seq s.paths (jump out .next)).Visits l) :
      l ∈ es₂.moveBreaksUp.labels := by
    rcases visits_of_seq hl with hl | ⟨hnext, hl⟩
    · exact hout.steps.labels.subset (hbody.visits hlive.push l hl)
    · exact hout.visits (hbody.live hlive.push hnext) l (visits_jump.mpr (visits_jump.mp hl))
  have hcomes (hlive : Live es) (hends : (seq s.paths (jump out .next)).Ends .next) : ComesOut es₂.moveBreaksUp := by
    obtain ⟨c, cs, hview, hpasses⟩ := codeBreak_comesOut (hbody.live hlive.push (ends_seq_next.mp hends).1) h₂
    exact ⟨c, cs, moveBreaksUp_view.trans hview, hpasses⟩
  exact ⟨fun hlive => hbody.live hlive.push, hsteps.steps.branch htype rfl hne hvisits hcomes⟩

theorem caselist_cons {out : L} {cs : Cases L} (hs : Codes results s) (hcs : CodesCases results cs) :
    CodesCases results (.cons s out cs) := by
  intro pos es es' h hne
  obtain ⟨es₁, h₁, h⟩ := Option.bind_eq_some_iff.mp h
  obtain ⟨es₂, h₂, h⟩ := Option.bind_eq_some_iff.mp h
  have hcase : Same es (es.addCase pos) := addCase_same pos
  have hne' : (es.addCase pos).view ≠ [] := by rwa [hcase.view]
  obtain ⟨-, e, hadds⟩ := hs.case hne' h₁ h₂
  obtain ⟨bs, hadds'⟩ := hcs h hadds.ne_nil
  exact ⟨_, (hadds.of_same hcase).append hadds'⟩

/-- What is behind the branches of a `switch`, in its own context and then in the previous one. -/
theorem switch_end (h : Meets results P (es.push .block false noFlags) es₁) (h' : es₁.fixupBreaks = some es')
    (hr : Ready es) : Meets results P es (es'.pop.merge .yes) := by
  have hpop := (h.quiet (fixupBreaks_quiet h.steps.ne_nil h')).scoped (by decide) rfl hr.ne_nil
  exact hpop.quiet (merge_quiet (hpop.steps.ready hr))

theorem switchstat_codes {cs : Cases L} (hcs : CodesCases results cs) : Codes results (.switchstat x cs) := by
  intro es es' h hr
  obtain ⟨⟨es₁, jumpElse⟩, h₁, h⟩ := Option.bind_eq_some_iff.mp h
  obtain ⟨es₂, h₂, h⟩ := Option.bind_eq_some_iff.mp h
  obtain ⟨es₃, h₃, h⟩ := Option.bind_eq_some_iff.mp h
  obtain ⟨es₄, h₄, h⟩ := Option.bind_eq_some_iff.mp h
  rw [checkInits_eq h]
  have hexpr : Meets results (instr x.label) (es.push .block false noFlags) es₁ := codeExpr_meets rfl push_ne_nil h₁
  obtain ⟨bs, hadds⟩ := hcs h₂ hexpr.steps.ne_nil
  have hmerge := (hadds.same (setjump_same h₃)).merge (m := .maybe) (Q := choice (done .next) cs.paths)
    (hexpr.steps.ready push_ready) (fun l hl => (visits_choice.mp hl).resolve_left visits_done) nofun
  exact switch_end (hexpr.trans hmerge) h₄ hr

theorem switchdefault_codes {cs : Cases L} (hcs : CodesCases results cs) (hs : Codes results s) :
    Codes results (.switchdefault x cs s) := by
  intro es es' h hr
  obtain ⟨⟨es₁, jumpElse⟩, h₁, h⟩ := Option.bind_eq_some_iff.mp h
  obtain ⟨es₂, h₂, h⟩ := Option.bind_eq_some_iff.mp h
  obtain ⟨es₃, h₃, h⟩ := Option.bind_eq_some_iff.mp h
  obtain ⟨es₄, h₄, h⟩ := Option.bind_eq_some_iff.mp h
  obtain ⟨es₅, h₅, h⟩ := Option.bind_eq_some_iff.mp h
  rw [checkInits_eq h]
  have hexpr : Meets results (instr x.label) (es.push .block false noFlags) es₁ := codeExpr_meets rfl push_ne_nil h₁
  obtain ⟨bs, hcases⟩ := hcs h₂ hexpr.steps.ne_nil
  have hadds := hcases.same (setjump_same h₃)
  obtain ⟨type, htype, hbody⟩ := hs.branch rfl h₄
  obtain ⟨e, hadds'⟩ := (hbody.same moveBreaksUp_same).branch htype rfl hadds.ne_nil
  have hmerge := (hadds.append hadds').merge (m := .yes) (hexpr.steps.ready push_ready) (fun _ hl => hl) fun _ h => h
  exact switch_end (hexpr.trans hmerge) h₅ hr

/-! ## Jumps and returns -/

theorem breakstat_codes : Codes results (.breakstat l) := by
  intro es es' h hr
  obtain ⟨d, -, h⟩ := Option.bind_eq_some_iff.mp h
  exact codeBreak_meets hr.ne_nil h

theorem contstat_codes : Codes results (.contstat l) := by
  intro es es' h hr
  obtain ⟨d, -, h⟩ := Option.bind_eq_some_iff.mp h
  exact codeNext_meets hr.ne_nil h

theorem repeatstat_codes : Codes results (.repeatstat l) := by
  intro es es' h hr
  obtain ⟨d, -, h⟩ := Option.bind_eq_some_iff.mp h
  obtain ⟨es₁, h₁, h⟩ := Option.bind_eq_some_iff.mp h
  obtain ⟨c, -, h⟩ := Option.bind_eq_some_iff.mp h
  obtain ⟨es₂, h₂, rfl⟩ := Option.map_eq_some_iff.mp h
  have hcode : Meets results (jump l .rep) es es₂ :=
    ((leaveContext_quiet hr.ne_nil h₁).meets_jump (i := .jump l 0) rfl).same (setjump_same h₂)
  exact ⟨hcode.steps.trans (eBreak_steps hcode.steps.ne_nil), hcode.visits, fun _ h => ((ends_jump.mp h).elim nofun nofun)⟩

/-- Instructions that control does not come out of at the end. -/
theorem Meets.leaves {y : Exit} {f : Cevlist → Cevlist} (h : Meets results P es es₁) (hy : y ≠ .next)
    (hf : results = true → ∀ e : Cevlist, e.Balanced → (f e).Balanced) :
    Meets results (seq P (done y)) es (es₁.mapContexts (mapEvents f)) where
  steps := by
    obtain ⟨c, cs, e, hview, hview₁, hcoded, hbalanced⟩ := h.steps
    refine ⟨c, cs, f e, hview, ?_, hcoded, fun hr hb => hf hr e (hbalanced hr hb)⟩
    rw [mapEvents_view, hview₁]
    rfl
  visits hlive l hl := by
    rcases visits_of_seq hl with hl | ⟨-, hl⟩
    · exact h.visits hlive l hl
    · exact (visits_done hl).elim
  live _ hends := (hy (ends_done.mp (ends_seq_next.mp hends).2).symm).elim

theorem throwstat_codes : Codes results (.throwstat x) := by
  intro es es' h hr
  obtain ⟨⟨es₁, p⟩, h₁, rfl⟩ := Option.map_eq_some_iff.mp h
  have hexpr : Meets results (instr x.label) es es₁ := codeExpr_meets rfl hr.ne_nil h₁
  have hthrow : Exit.thrown ≠ .next := by decide
  dsimp only
  rw [occurs_occurs]
  exact hexpr.leaves (f := fun e => (e.set .ret .yes).set .result .yes) hthrow fun _ _ _ => rfl

theorem returnstat_codes : Codes results (.returnstat x) := by
  intro es es' h hr
  obtain ⟨es₁, h₁, h⟩ := Option.bind_eq_some_iff.mp h
  obtain ⟨⟨es₂, p⟩, h₂, rfl⟩ := Option.map_eq_some_iff.mp h
  rw [checkInits_eq h₁] at h₂
  have hexpr : Meets results (instr x.label) es es₂ := codeExpr_meets rfl hr.ne_nil h₂
  have hret : Exit.ret ≠ .next := by decide
  dsimp only
  cases results with
  | true =>
    rw [if_pos rfl, occurs_occurs]
    exact hexpr.leaves (f := fun e => (e.set .result .yes).set .ret .yes) hret fun _ _ _ => rfl
  | false => exact hexpr.leaves (f := fun e => e.set .ret .yes) hret nofun

/-! ## Blocks -/

/-- Two blocks, which the instruction behind them starts. -/
theorem tries_codes {tf xf : List (Instr L)} (hr : Ready es) {e e' : Cevlist}
    (hP : ∀ l, P.Visits l → l ∈ Instr.labelsOf tf) (hQ : ∀ l, Q.Visits l → l ∈ Instr.labelsOf xf)
    (h : Adds results (ending P) es es₁ [e]) (h' : Adds results (ending Q) es₁ es₂ [e']) :
    Meets results (tries P Q l) es ((es₂.code (.tries l tf xf)).merge .yes) := by
  refine ((h.append h').code (Q := tries P Q l) (fun l' hl' => .inl ?_) fun hends => ?_).merge hr (fun _ hl => hl)
    fun _ h => h
  · rw [Instr.labels, List.mem_cons, List.mem_append]
    exact (visits_of_tries hl').imp_right fun hl' => hl'.imp (hP l') (hQ l')
  · exact ends_choice.mpr ((ends_of_tries hends).imp ends_ending.mpr ends_ending.mpr)

theorem trystat_codes (hs : Codes results s) : Codes results (.trystat s l) := by
  intro es es' h hr
  obtain ⟨⟨es₁, tf⟩, h₁, h⟩ := Option.bind_eq_some_iff.mp h
  obtain ⟨⟨es₂, xf⟩, h₂, rfl⟩ := Option.map_eq_some_iff.mp h
  obtain ⟨htf, e, hadds⟩ := xblock_adds hr.ne_nil h₁ fun _ h => hs h push_ready
  -- The handler does nothing.
  have hnone (fs : Coding L) (h : Option.some (({ es₁ with coded := [] } : Coding L).push .function true noFlags) = some fs) :
      Meets results (done .next) (({ es₁ with coded := [] } : Coding L).push .function true noFlags) fs := by
    cases h
    exact (Quiet.of_same push_ne_nil .refl).meets fun _ => visits_done
  obtain ⟨hxf, e', hadds'⟩ := xblock_adds hadds.ne_nil h₂ hnone
  exact tries_codes hr htf hxf hadds hadds'

theorem tryexcept_codes (hs : Codes results s) (hs' : Codes results s') : Codes results (.tryexcept s s' l) := by
  intro es es' h hr
  obtain ⟨⟨es₁, tf⟩, h₁, h⟩ := Option.bind_eq_some_iff.mp h
  obtain ⟨⟨es₂, xf⟩, h₂, rfl⟩ := Option.map_eq_some_iff.mp h
  obtain ⟨htf, e, hadds⟩ := xblock_adds hr.ne_nil h₁ fun _ h => hs h push_ready
  obtain ⟨hxf, e', hadds'⟩ := xblock_adds hadds.ne_nil h₂ fun _ h => hs' h push_ready
  exact tries_codes hr htf hxf hadds hadds'

theorem untrystat_codes (hs : Codes results s) : Codes results (.untrystat s l) := by
  intro es es' h hr
  obtain ⟨⟨es₁, tf⟩, h₁, rfl⟩ := Option.map_eq_some_iff.mp h
  obtain ⟨htf, e, hadds⟩ := xblock_adds hr.ne_nil h₁ fun _ h => hs h push_ready
  refine (hadds.code (Q := seq (instr l) (bind s.paths untryExit)) (fun l' hl' => .inl ?_) fun h => ?_).merge hr
    (fun _ hl => hl) fun _ h => h
  · rw [Instr.labels, List.mem_cons]
    refine (visits_of_seq hl').imp visits_instr.mp fun hl' => htf l' ?_
    exact (visits_of_bind hl'.2).resolve_right fun ⟨_, _, hl⟩ => visits_of_untryExit hl
  · obtain ⟨y, hy, hends⟩ := ends_bind.mp (ends_seq_next.mp h).2
    obtain rfl := ends_of_untryExit hends
    exact ends_ending.mpr hy

def CodesBlock (results : Bool) (b : Block L) : Prop :=
  ∀ {es es'}, block results b es = some es' → Ready es → Meets results b.paths es es'

/-- A statement of a block, with the context of its own if it is a body. -/
theorem Codes.inBlock (hs : Codes results s) (h₁ : inner results s (es.enter s.isBody noFlags) = some es₁)
    (h₂ : es₁.leave s.isBody noFlags = some es₂) (hr : Ready es) : Meets results s.paths es es₂ := by
  unfold Coding.leave at h₂
  cases hbody : s.isBody with
  | false =>
    rw [hbody] at h₁ h₂
    cases h₂
    exact hs h₁ hr
  | true =>
    rw [hbody] at h₁ h₂
    rw [if_pos ⟨.inl rfl, by decide⟩] at h₂
    obtain ⟨es₃, h₃, rfl⟩ := Option.map_eq_some_iff.mp h₂
    have hinner : Meets results s.paths (es.push .body false noFlags) es₁ := hs h₁ push_ready
    exact (hinner.quiet (leaveContext_quiet hinner.steps.ne_nil h₃)).scoped (by decide) rfl hr.ne_nil

theorem block_cons {b : Block L} (hs : Codes results s) (hb : CodesBlock results b) : CodesBlock results (.cons s b) := by
  intro es es' h hr
  obtain ⟨es₁, h₁, h⟩ := Option.bind_eq_some_iff.mp h
  obtain ⟨es₂, h₂, h⟩ := Option.bind_eq_some_iff.mp h
  have hstat := hs.inBlock h₁ h₂ hr
  exact hstat.trans (hb h (hstat.steps.ready hr))

/-! ## All statements -/

mutual

theorem inner_codes : (s : Stat L) → s.Regular → Codes results s
  | .void, _ => fun h hr => by
    cases h
    exact (Quiet.of_same hr.ne_nil .refl).meets fun _ => visits_done
  | .assignstat x, _ => fun h hr => by
    obtain ⟨⟨es₁, p⟩, h₁, rfl⟩ := Option.map_eq_some_iff.mp h
    exact codeExpr_meets rfl hr.ne_nil h₁
  | .throwstat x, _ => throwstat_codes
  | .retrystat l, _ => fun h hr => by
    cases h
    exact (Quiet.of_same hr.ne_nil .refl).meets_jump rfl
  | .ifstat x s, h => ifstat_codes (inner_codes s h)
  | .ifelse x s out s', h => ifelse_codes (inner_codes s h.1) (inner_codes s' h.2)
  | .switchstat x cs, h => switchstat_codes (caselist_codes cs h)
  | .switchdefault x cs s, h => switchdefault_codes (caselist_codes cs h.1) (inner_codes s h.2)
  | .whilestat (.never out) s l, h => whilestat_codes (inner_codes s h) h
  | .whilestat .always s l, h => whilestat_codes (inner_codes s h.1) h
  | .whilestat (.expr x) s l, h => whilestat_codes (inner_codes s h.1) h
  | .dostat s x, h => dostat_codes (inner_codes s h.1) h.2
  | .forstat x s l, h => forstat_codes (inner_codes s h.1) h.2
  | .breakstat l, _ => breakstat_codes
  | .contstat l, _ => contstat_codes
  | .repeatstat l, _ => repeatstat_codes
  | .returnstat x, _ => returnstat_codes
  | .trystat s l, h => trystat_codes (inner_codes s h)
  | .tryexcept s s' l, h => tryexcept_codes (inner_codes s h.1) (inner_codes s' h.2)
  | .untrystat s l, h => untrystat_codes (inner_codes s h)
  | .body b, h => fun hb hr => block_codes b h hb hr

theorem block_codes : (b : Block L) → b.Regular → CodesBlock results b
  | .nil, _ => fun h hr => by
    cases h
    exact (Quiet.of_same hr.ne_nil .refl).meets fun _ => visits_done
  | .cons s b, h => block_cons (inner_codes s h.1) (block_codes b h.2)

theorem caselist_codes : (cs : Cases L) → cs.Regular → CodesCases results cs
  | .nil, _ => fun h hne => by
    cases h
    obtain ⟨c, cs, hview⟩ := List.exists_cons_of_ne_nil hne
    refine ⟨[], List.prefix_refl _, ⟨c, cs, hview, hview.trans ?_⟩, nofun, fun _ l hl => ?_, fun _ h => ?_⟩
    · rw [List.append_nil]
    · obtain ⟨t, y, h, -⟩ := hl
      exact h.elim
    · obtain ⟨t, h⟩ := h
      exact h.elim
  | .cons s out cs, h => caselist_cons (inner_codes s h.1) (caselist_codes cs h.2)

end

/-! ## Functions -/

theorem function_meets {b : Block L} {contexts : List Context} (hb : b.Regular)
    (h : block results b (Coding.push ⟨contexts, []⟩ .function false noFlags) = some es') :
    Meets results b.paths (Coding.push ⟨contexts, []⟩ .function false noFlags) es' :=
  block_codes b hb h push_ready

/-- Every instruction that a path through a function comes to is coded. When it comes to the end of the function, so is
the instruction that returns. -/
theorem function_codes_paths {b : Block L} {contexts : List Context} {es : Coding L} (hb : b.Regular)
    (h : function results b contexts = some es) {t : List L} {x : Exit} (ht : b.paths t x) :
    (∀ l ∈ t, l ∈ es.labels) ∧ (x = .next → .ret ∈ es.coded) := by
  obtain ⟨es₁, h₁, h⟩ := Option.bind_eq_some_iff.mp h
  have hmeets := function_meets hb h₁
  unfold procreturn at h
  split at h
  · cases h
  · cases h
    refine ⟨fun l hl => (code_labels _).subset (hmeets.visits live_function l ⟨t, x, ht, hl⟩), ?_⟩
    rintro rfl
    exact (hmeets.live live_function ⟨t, ht⟩).mem_code _

theorem regular_do : (Block.cons (.dostat (.assignstat ⟨1, []⟩) ⟨1, []⟩)
    (.cons (.returnstat ⟨2, []⟩) .nil) : Block Nat).Regular := by
  refine ⟨⟨trivial, fun hcont => ?_⟩, trivial, trivial⟩
  rcases ends_instr.mp hcont with h | h | h <;> cases h

/-- A loop with one instruction in it, which returns behind it. -/
theorem function_codes_paths_do :
    ∃ es, function true (.cons (.dostat (.assignstat ⟨1, []⟩) ⟨1, []⟩) (.cons (.returnstat ⟨2, []⟩) .nil)) [] = some es ∧
      (1 ∈ es.labels ∧ 2 ∈ es.labels) := by
  obtain ⟨es, hes⟩ := Option.isSome_iff_exists.mp (show (function true (.cons (.dostat (.assignstat ⟨1, []⟩) ⟨1, []⟩)
    (.cons (.returnstat ⟨2, []⟩) .nil)) []).isSome = true by decide +kernel)
  have hpath (l : Nat) : (instr l) [l] .next := .inr (.inl ⟨rfl, rfl⟩)
  have hround : (loop (turn (instr 1) (seq (instr 1) (choice (done .next) (done .cont))) false)) [1, 1] .next :=
    .last ⟨[1], [1], .next, rfl, hpath 1, [1], [], .next, rfl, hpath 1, .inl ⟨rfl, rfl⟩⟩ (by decide)
  have hret : (seq (instr 2) (done .ret)) [2] .ret := ⟨[2], [], .next, rfl, hpath 2, rfl, rfl⟩
  have hcoded := (function_codes_paths regular_do hes (t := [1, 1, 2]) (x := .ret)
    ⟨[1, 1], [2], .next, rfl, hround, [2], [], .ret, rfl, hret, rfl, rfl⟩).1
  exact ⟨es, hes, hcoded 1 (by decide), hcoded 2 (by decide)⟩

/-- A loop that is only left by a `break` in front of a `return`. What is behind it is left out, although control gets
there. -/
example : (function true (.cons (.whilestat .always (.body (.cons (.ifstat ⟨1, []⟩ (.breakstat 2))
    (.cons (.returnstat ⟨3, []⟩) .nil))) 4) (.cons (.returnstat ⟨5, []⟩) .nil)) []).map Coding.labels =
    some [1, 2, 3] := by
  decide +kernel

/-- No path comes to the end of a function that should return a value. -/
theorem function_returns_result {b : Block L} {contexts : List Context} {es : Coding L} (hb : b.Regular)
    (h : function true b contexts = some es) (t : List L) : ¬ b.paths t .next := by
  intro ht
  obtain ⟨es₁, h₁, h⟩ := Option.bind_eq_some_iff.mp h
  have hmeets := function_meets hb h₁
  obtain ⟨level, pos, e, hview₁, -, hbalanced⟩ := hmeets.steps.child
  have hlive := (live_iff hview₁).mp (hmeets.live live_function ⟨t, ht⟩)
  -- The events of the function are all that is looked at, and returns have results.
  have hresult : testResult es₁.contexts ≠ .yes := by
    unfold testResult testEv
    rw [← testEvFrom_core, show es₁.contexts.map Context.core = _ from hview₁, testEvFrom_ne_yes]
    refine ⟨by decide, ?_, .inl rfl⟩
    show e.events .result ≠ .yes
    rw [← show e.events .ret = e.events .result from hbalanced rfl]
    exact hlive.ret.1
  unfold procreturn at h
  rw [if_pos ⟨rfl, hresult⟩] at h
  cases h

theorem function_returns_result_do : ¬ (Block.cons (.dostat (.assignstat ⟨1, []⟩) ⟨1, []⟩)
    (.cons (.returnstat ⟨2, []⟩) .nil)).paths [1, 1] .next := by
  obtain ⟨es, hes⟩ := Option.isSome_iff_exists.mp (show (function true (.cons (.dostat (.assignstat ⟨1, []⟩) ⟨1, []⟩)
    (.cons (.returnstat ⟨2, []⟩) .nil)) []).isSome = true by decide +kernel)
  exact function_returns_result regular_do hes [1, 1]

end Events

end Eel
