-- SUMMARY: The code of switches has the paths of their cases, which are come to by tables of positions.
import Eel.Compiler.CodeLoops

/-!
# Switches in code

The cases of a `switch` are coded one behind the other, and each is added to the table of the
instruction in front of them. Their jumps to the end are those of the context around them.
-/

namespace Eel

namespace Events

open Traces Behaviour Paths Coding

section

variable {L : Type} {results : Bool} {es es₁ es₂ es₃ es₄ es₅ es' : Coding L} {F : List (Instr L)} {X : List Nat} {T : Nat → Aim}
  {a : Aim} {m m' c : Marks} {ms ms' : List Marks} {n p q w : Nat} {b : Bool} {P Q R : Paths L} {l out : L}
  {s : Stat L} {x : Expr L} {loop rep : Bool} {type : ContextType} {flags : Flags}

/-! ## Marks that are moved up -/

theorem moveBreaksUp_marks (h : es.marks = c :: m :: ms) :
    es.moveBreaksUp.marks = { c with ends := [] } :: { m with ends := m.ends ++ c.ends } :: ms := by
  unfold Coding.marks at h
  obtain ⟨c₀, cs, hcs, rfl, hms⟩ := List.map_eq_cons_iff.mp h
  obtain ⟨m₀, cs, rfl, rfl, rfl⟩ := List.map_eq_cons_iff.mp hms
  unfold Coding.marks Coding.moveBreaksUp Coding.mapContexts
  rw [hcs]
  simp only [Context.marks, List.map_cons, List.filterMap_append, List.filterMap_nil]

theorem pending_moved (hf : c.type ≠ .function) :
    (pending (c :: m :: ms)).Perm (pending ({ c with ends := [] } :: { m with ends := m.ends ++ c.ends } :: ms)) := by
  rw [pending, pending, pending, pending, if_neg hf, if_neg hf]
  dsimp only
  rw [List.nil_append]
  refine (List.perm_iff_count.mpr fun q => ?_)
  simp only [List.count_append]
  omega

/-- They go to the end of the previous context. -/
theorem waiting_moved {v : Nat} (hf : c.type ≠ .function) (h : (q, v) ∈ waiting (under ⟨(T 0).brk, w⟩ T) (c :: m :: ms)) :
    (q, v) ∈ waiting (under ⟨(T 0).brk, w⟩ T) ({ c with ends := [] } :: { m with ends := m.ends ++ c.ends } :: ms) := by
  rw [waiting, waiting, if_neg hf] at h
  rw [waiting, waiting, if_neg hf]
  dsimp only [under] at h ⊢
  simp only [List.map_append, List.mem_append, List.map_nil, List.not_mem_nil, false_or] at h ⊢
  tauto

theorem Into.moved (h : Into F X (under ⟨(T 0).brk, w⟩ T) es.moveBreaksUp) (hm : es.marks = c :: m :: ms)
    (hf : c.type ≠ .function) : Into F X (under ⟨(T 0).brk, w⟩ T) es where
  coded q i hi hX hq := by
    refine h.coded q i hi hX ?_
    rwa [moveBreaksUp_marks hm, ← (pending_moved hf).mem_iff, ← hm]
  aimed q v i hi hX hq := by
    refine h.aimed q v i hi hX ?_
    rw [hm] at hq
    rw [moveBreaksUp_marks hm]
    exact waiting_moved hf hq

/-! ## Cases -/

/-- A jump to the end of the current context, if control may be here. -/
structure BreaksOut (out : L) (es es' : Coding L) (c : Marks) (ms : List Marks) (ps : List Nat) : Prop where
  marks : es'.marks = { c with ends := ps } :: ms
  ends : ∀ q ∈ ps, es.coded.length ≤ q
  length : es.coded.length ≤ es'.coded.length
  coded : ∀ q < es.coded.length, es'.coded[q]? = es.coded[q]?
  tidy : Tidy es → Tidy es'
  into : ∀ {F X T}, Into F X T es' → Into F X T es
  paths : Live es → Tidy es → ∀ {F X T}, (∀ q ∈ X, q < es.coded.length) → Into F X T es' →
    exec F es.coded.length = seq (jump out .next) (exec F (T 0).brk)

theorem codeBreak_breaksOut (h : es.codeBreak out 0 = some es') (hm : es.marks = c :: ms) (hends : c.ends = []) :
    ∃ ps, BreaksOut out es es' c ms ps := by
  rcases codeBreak_cases h with ⟨rfl, hdead⟩ | ⟨es₁, hjump⟩
  · refine ⟨[], ?_, nofun, le_rfl, fun _ _ => rfl, id, id, fun hlive => (hdead hlive).elim⟩
    rw [hm, ← hends]
  · have hmarks : es'.marks = { c with ends := [es₁.coded.length] } :: ms := by
      rw [hjump.marks, hm]
      show { c with ends := c.ends ++ [es₁.coded.length] } :: ms = _
      rw [hends]
      rfl
    have hat : At 0 es.marks c := by
      rw [hm]
      rfl
    have hkeeps : KeepsAll es₁.coded.length true es.marks es'.marks := by
      rw [hjump.marks, hm]
      refine ⟨addEnd_keeps le_rfl (.inr rfl), ?_⟩
      split
      · rfl
      · exact .refl
    have hle := hjump.idle.frame.length
    refine ⟨[es₁.coded.length], hmarks, fun q hq => ?_, ?_, fun q hq => ?_, fun ht => hjump.tidy ht ?_, fun hi => ?_,
      fun _ ht F X T hX hi => hjump.exec ht hX hkeeps hi ?_⟩
    · rw [List.mem_singleton.mp hq]
      exact hle
    · rw [hjump.length]
      exact hle.trans (Nat.le_succ _)
    · exact (hjump.kept (hq.trans_le hle)).trans (hjump.idle.frame.coded q hq nofun)
    · rw [hjump.marks]
      exact At.pending_modify hat rfl addEnd_perm
    · rw [← hjump.marks₁] at hkeeps
      exact hjump.idle.frame.back (hi.of_kept (fun q hq _ => hjump.kept hq) hkeeps)
    · rw [hmarks, waiting]
      exact List.mem_append_left _ (List.mem_append_left _ (List.mem_singleton_self _))

/-- A case, with the jump to the end of the `switch`. -/
structure FollowsCase (P : Paths L) (es es' : Coding L) : Prop where
  length : es.coded.length ≤ es'.coded.length
  coded : ∀ q < es.coded.length, es'.coded[q]? = es.coded[q]?
  marks : KeepsAll es.coded.length true es.marks es'.marks
  tidy : Tidy es → Tidy es'
  paths : Live es → Tidy es → ∀ {F X T}, (∀ q ∈ X, q < es.coded.length) → Into F X T es' →
    exec F es.coded.length = bind P (exits F T es.marks (T 0).brk)

theorem FollowsStat.case (hs : FollowsStat results loop rep s) (hloops : Loops loop rep es.marks) (hne : es.marks ≠ [])
    (hlive₁ : Live es → s.paths.Ends .next → Live es₁)
    (h₁ : inner results s (es.enter s.isBody { conditional with keep := true }) = some es₁)
    (h₂ : es₁.codeBreak out 0 = some es₂) :
    FollowsCase (seq s.paths (jump out .next)) es es₂.moveBreaksUp.pop := by
  obtain ⟨type, htype, -, hbody⟩ := hs.branch rfl hloops h₁
  obtain ⟨c, ms₁, hopen⟩ := opened hbody.frame.marks htype rfl rfl hne
  obtain ⟨m₁, ms₂, rfl⟩ := List.exists_cons_of_ne_nil hopen.ne_nil
  obtain ⟨ps, hout⟩ := codeBreak_breaksOut h₂ hopen.marks hopen.ends
  have hmoved := moveBreaksUp_marks hout.marks
  -- The context of the case is left with nothing in it.
  have hopen' : Opened 0 es₂.moveBreaksUp.pop es₂.moveBreaksUp { c with ends := [] }
      ({ m₁ with ends := m₁.ends ++ ps } :: ms₂) := by
    refine ⟨hmoved, hopen.type, rfl, hopen.conts, List.cons_ne_nil _ _, ?_⟩
    rw [pop_marks (List.cons_ne_nil _ _) hmoved]
    exact .refl
  refine ⟨hbody.frame.length.trans hout.length, fun q hq => ?_, ?_, fun ht => hopen'.tidy ?_, fun hlive ht F X T hX hi => ?_⟩
  · exact (hout.coded q (hq.trans_le hbody.frame.length)).trans (hbody.frame.coded q hq nofun)
  · rw [hopen'.pop_marks]
    have hkeeps := hopen.keeps
    obtain ⟨m, ms, hms⟩ := List.exists_cons_of_ne_nil hne
    rw [hms] at hkeeps ⊢
    obtain ⟨hm, hms⟩ := hkeeps
    refine ⟨⟨hm.type, hm.flags, hm.startpos, fun q hq => ?_, hm.conts, nofun, hm.noConts⟩, hms⟩
    rw [← hm.ends q hq]
    dsimp only
    rw [List.mem_append, or_iff_left]
    exact fun hmem => (hbody.frame.length.trans (hout.ends q hmem)).not_gt hq
  · have ht₂ := hout.tidy (hbody.tidy (ht.push htype))
    have hperm : (pending es₂.marks).Perm
        (pending ({ c with ends := [] } :: { m₁ with ends := m₁.ends ++ ps } :: ms₂)) := by
      rw [hout.marks]
      exact pending_moved hopen.type
    refine ⟨?_, fun q hq => ht₂.lt q ?_⟩
    · rw [hmoved]
      exact hperm.nodup ht₂.nodup
    · rw [hmoved] at hq
      exact hperm.mem_iff.mpr hq
  · have hi₂ := (hopen'.into (a := ⟨(T 0).brk, 0⟩) hi).moved hout.marks hopen.type
    refine hbody.out htype rfl rfl rfl hne (hlive₁ hlive) hlive ht hX (hout.into hi₂) fun hlive₁ => ?_
    have hX₁ (q : Nat) (hq : q ∈ X) := (hX q hq).trans_le hbody.frame.length
    have hjump := hout.paths hlive₁ (hbody.tidy (ht.push htype)) hX₁ hi₂
    exact hjump

/-- The cases, whose positions are behind those in the table of the `switch` at `p`. -/
structure FollowsTable (P : Paths L) (pos : Option Nat) (p : Nat) (es es' : Coding L) : Prop where
  frame : Frame (some p) es.coded.length es es'
  tidy : Tidy es → Tidy es'
  paths : pos = some p → Live es → Tidy es → ∀ {l table}, es.coded[p]? = some (.switch l table 0) →
    ∃ qs, es'.coded[p]? = some (.switch l (table ++ qs) 0) ∧
      ∀ {F X T}, p ∈ X → (∀ q ∈ X, q < es.coded.length) → Into F X T es' →
        oneOf (qs.map (exec F)) = bind P (exits F T es.marks (T 0).brk)

def FollowsCases (results loop rep : Bool) (cs : Cases L) : Prop :=
  ∀ {pos p es es'}, caselist results pos cs es = some es' → es.view ≠ [] → es.marks ≠ [] → Loops loop rep es.marks →
    (∀ q, pos = some q → q = p) → FollowsTable cs.paths pos p es es'

theorem caselist_nil_follows : FollowsCases results loop rep (.nil : Cases L) := by
  intro pos p es es' h _ _ _ _
  cases h
  refine ⟨.of_eq rfl rfl, id, fun _ _ _ l table hentry => ⟨[], ?_, fun _ _ _ => ?_⟩⟩
  · rwa [List.append_nil]
  · rw [Cases.paths, bind_never]
    exact oneOf_nil

theorem addCase_length (pos : Option Nat) : (es.addCase pos).coded.length = es.coded.length := by
  cases pos with
  | none => rfl
  | some p => exact List.length_modify ..

theorem caselist_cons_follows {cs : Cases L} (hcodes : Codes results s) (hs : FollowsStat results loop rep s)
    (hcs : FollowsCases results loop rep cs) : FollowsCases results loop rep (.cons s out cs) := by
  intro pos p es es' h hview hne hloops hpos
  obtain ⟨es₁, h₁, h⟩ := Option.bind_eq_some_iff.mp h
  obtain ⟨es₂, h₂, h⟩ := Option.bind_eq_some_iff.mp h
  have hadded : Same es (es.addCase pos) := addCase_same pos
  have hmarks : (es.addCase pos).marks = es.marks := addCase_marks pos
  have hlen : (es.addCase pos).coded.length = es.coded.length := addCase_length pos
  obtain ⟨hlive₁, e, hadds⟩ := hcodes.case (by rwa [hadded.view]) h₁ h₂
  have hcase := hs.case (hmarks ▸ hloops) (by rwa [hmarks]) hlive₁ h₁ h₂
  have hkeeps := hcase.marks
  rw [hmarks] at hkeeps
  have htable := hcs h hadds.ne_nil (hkeeps.ne_nil hne) (hloops.keeps hkeeps) hpos
  have hframe : Frame (some p) es.coded.length es (es.addCase pos) := by
    cases pos with
    | none => exact .of_eq rfl rfl
    | some q =>
      obtain rfl := hpos q rfl
      exact .addCase
  have hframe' : Frame (some p) es.coded.length (es.addCase pos) es₂.moveBreaksUp.pop := by
    rw [← hlen]
    exact ⟨hcase.length, fun q hq _ => hcase.coded q hq, hcase.marks⟩
  have hle := hlen.symm.le.trans hcase.length
  refine ⟨(hframe.trans hframe').trans (htable.frame.le hle), fun ht => htable.tidy (hcase.tidy ?_),
    fun hp hlive ht l table hentry => ?_⟩
  · exact ht.of_marks hmarks hlen.ge
  · subst hp
    have hplt : p < es.coded.length := (List.getElem?_eq_some_iff.mp hentry).1
    have hliveCase := hadded.live hlive
    have htCase : Tidy (es.addCase (some p)) := ht.of_marks hmarks hlen.ge
    have hentry' : es₂.moveBreaksUp.pop.coded[p]? = some (.switch l (table ++ [es.coded.length]) 0) := by
      rw [hcase.coded p (by rwa [hlen])]
      show (es.coded.modify p (Instr.addCase es.coded.length))[p]? = _
      rw [List.getElem?_modify, hentry]
      exact congrArg some (if_pos rfl)
    obtain ⟨qs, hqs, hrest⟩ := htable.paths rfl (hadds.live hliveCase) (hcase.tidy htCase) hentry'
    refine ⟨es.coded.length :: qs, ?_, fun {F X T} hp hX hi => ?_⟩
    · rw [hqs, List.append_assoc]
      rfl
    · have hi' := hi.back htable.frame fun p' hp' => Option.some.inj hp' ▸ hp
      have hfirst := hcase.paths hliveCase htCase (by rwa [hlen]) hi'
      rw [hlen, hmarks] at hfirst
      rw [List.map_cons, oneOf_cons, hfirst, hrest hp (fun q hq => (hX q hq).trans_le hle) hi, Cases.paths, bind_choice,
        hkeeps.exits_eq]

/-! ## Switches -/

/-- What is behind a `switch`, whose context has all jumps to there. -/
theorem switch_end_follows (hframe : Frame (some es.coded.length) es.coded.length (es.push .block false noFlags) es₁)
    (hne : es.marks ≠ []) (hfix : es₁.fixupBreaks = some es₂) : LoopEnd es.coded.length es es₁ es₂.pop := by
  obtain ⟨pos, hpushed, -⟩ := push_marks es .block false noFlags
  have hkeeps := hframe.marks
  rw [hpushed] at hkeeps
  have hblock : ContextType.block ≠ .function := by decide
  obtain ⟨m, ms, hm₁, hm, hms⟩ := hkeeps.cons_inv hblock
  have hfixed := fixupBreaks_fixedUp hm₁ hfix
  have hpending : (pending es₁.marks).Perm (m.ends ++ pending ({ m with ends := [] } :: ms)) := by
    rw [hm₁]
    exact pending_ends
  have hold (q : Nat) (hq : q ∈ m.ends) : es.coded.length ≤ q := by
    by_contra hlt
    exact List.not_mem_nil ((hm.ends q (not_le.mp hlt)).mp hq)
  have hopen : Opened es.coded.length es es₂ { m with ends := [] } ms :=
    ⟨hfixed.marks, hm.type.trans_ne hblock, rfl, hm.noConts rfl, hms.ne_nil hne, hms⟩
  have hframe' : Frame none es.coded.length (es.push .block false noFlags) es₂ := by
    refine ⟨hframe.length.trans hfixed.length.ge, fun q hq _ => ?_, ?_⟩
    · rw [hfixed.kept q fun hmem => (hold q hmem).not_gt hq]
      exact hframe.coded q hq fun hp => hq.ne' (Option.some.inj hp)
    · rw [hpushed, hfixed.marks]
      refine ⟨⟨hm.type, hm.flags, hm.startpos, fun _ _ => .rfl, hm.conts, fun _ _ => rfl, hm.noConts⟩, ?_⟩
      rwa [if_neg hblock]
  refine ⟨hfixed.length, hopen.frame hframe', fun ht => hopen.tidy (hfixed.tidy ht hpending), fun {F X T c} ht hi => ?_⟩
  refine hfixed.into ht (hopen.into (a := ⟨0, c⟩) hi) hpending fun q v hq => ?_
  rw [hm₁, show es₂.pop.coded.length = es₁.coded.length from hfixed.length] at hq
  exact waiting_ends (a := ⟨0, c⟩) hq

/-- A `switch`, with `Q` behind its cases. -/
theorem switch_follows {cs : Cases L} {jumpElse : Option Nat} (hcodes : CodesCases results cs)
    (hcs : FollowsCases results loop rep cs) (hready : Ready es) (hloops : Loops loop rep es.marks)
    (h₁ : (es.push .block false noFlags).codeExpr (.switch · [] 0) x = some (es₁, jumpElse))
    (h₂ : caselist results jumpElse cs es₁ = some es₂) (h₃ : es₂.jumpHere jumpElse = some es₃)
    (hQ : es₃.marks ≠ [] → Loops loop rep es₃.marks → Follows Q es₃ es₄) (h₅ : es₄.fixupBreaks = some es₅) : Follows (seq (instr x.label) (choice Q cs.paths)) es es₅.pop := by
  obtain ⟨pos, hpushed, -⟩ := push_marks es .block false noFlags
  have hblock : ContextType.block ≠ .function := by decide
  have hat := codeExpr_codedAt push_ne_nil h₁
  have hloops₁ : Loops loop rep es₁.marks := by
    rw [hat.marks, hpushed]
    exact hloops.under hblock
  have hexpr : Meets results (instr x.label) (es.push .block false noFlags) es₁ := codeExpr_meets rfl push_ne_nil h₁
  have hview₁ := hexpr.steps.ne_nil
  have hpos (q : Nat) (hq : jumpElse = some q) : q = es.coded.length := by
    have hmark := (hat.marked (hq ▸ nofun)).1
    rw [hq] at hmark
    exact Option.some.inj hmark
  have htable := hcs h₂ hview₁ (hat.marks_ne_nil push_ready) hloops₁ hpos
  have hlen₃ : es₃.coded.length = es₂.coded.length := jumpHere_length h₃
  have hmarks₃ : es₃.marks = es₂.marks := setjump_marks h₃
  have hframe₂ := (hat.frame.mono le_rfl).trans (htable.frame.le hat.frame.length)
  have hframe₃ := hframe₂.trans (.setjump h₃ fun q hq => (hpos q hq).ge)
  have hkeeps₃ : KeepsAll es₁.coded.length true es₁.marks es₃.marks := by
    rw [hmarks₃]
    exact htable.frame.marks
  have hQ := hQ (hkeeps₃.ne_nil (hat.marks_ne_nil push_ready)) (hloops₁.keeps hkeeps₃)
  have hend := switch_end_follows (hframe₃.trans (hQ.frame.mono hframe₃.length)) hready.marks_ne_nil h₅
  have htidy₃ (ht : Tidy es) : Tidy es₃ := (htable.tidy (hat.tidy (ht.push hblock))).of_marks hmarks₃ hlen₃.ge
  refine ⟨hend.frame, fun ht => hend.tidy (hQ.tidy (htidy₃ ht)), fun hlive ht F X T hX hi => ?_⟩
  have hlive₁ := codeExpr_live rfl push_ready h₁ hlive.push
  obtain ⟨bs, hadds⟩ := hcodes h₂ hview₁
  have hlive₃ : Live es₃ := (setjump_same h₃).live (hadds.live hlive₁)
  have hmark := hat.live hlive.push
  have hsome := (hat.marked hmark).1
  have hexits (pos' : Nat) (T : Nat → Aim) (a : Aim) :
      exits F (under a T) es₁.marks pos' = exits F T es.marks pos' := by
    rw [hat.marks, hpushed]
    exact exits_under hready.marks_ne_nil hblock rfl rfl rfl
  have hlt₁ : es.coded.length < es₁.coded.length := by
    rw [hat.length_eq hmark]
    exact Nat.lt_succ_self _
  -- What is behind the cases, and the cases in front of that.
  have hi₄ := hend.into (c := 0) (hQ.tidy (htidy₃ ht)) hi
  have hi₃ := hQ.frame.back hi₄
  have helse := hQ.paths hlive₃ (htidy₃ ht) (fun q hq => (hX q hq).trans_le hframe₃.length) hi₄
  rw [hmarks₃, htable.frame.marks.exits_eq, hexits, ← hend.length, hlen₃] at helse
  rw [hsome] at h₃
  have hentry : es₁.coded[es.coded.length]? = some (.switch x.label [] 0) := by
    rw [(hat.marked hmark).2]
    exact List.getElem?_concat_length
  obtain ⟨qs, hqs, hcases⟩ := htable.paths hsome hlive₁ (hat.tidy (ht.push hblock)) hentry
  have hcases := hcases List.mem_cons_self (fun q hq => ?_) (hi₃.setjump h₃)
  · rw [hexits] at hcases
    -- The instruction itself.
    obtain ⟨i, hi', haimed⟩ := hi₃.aimed_setjump h₃ (fun hmem => (hX _ hmem).false)
      (hat.not_pending hmark (ht.push hblock) htable.frame.marks)
    obtain rfl := Option.some.inj (hqs.symm.trans hi')
    rw [straight_instr.bind_seq_exits, bind_choice, ← helse]
    refine haimed.switch.trans ?_
    rw [List.nil_append, hcases]
    rfl
  · rcases List.mem_cons.mp hq with rfl | hq
    · exact hlt₁
    · exact (hX q hq).trans hlt₁

theorem switchstat_follows {cs : Cases L} (hcodes : CodesCases results cs) (hcs : FollowsCases results loop rep cs) :
    FollowsStat results loop rep (.switchstat x cs) := by
  intro es es' h hready hloops
  obtain ⟨⟨es₁, jumpElse⟩, h₁, h⟩ := Option.bind_eq_some_iff.mp h
  obtain ⟨es₂, h₂, h⟩ := Option.bind_eq_some_iff.mp h
  obtain ⟨es₃, h₃, h⟩ := Option.bind_eq_some_iff.mp h
  obtain ⟨es₄, h₄, h⟩ := Option.bind_eq_some_iff.mp h
  rw [checkInits_eq h]
  have hmerged : Idle es₃ (es₃.merge .maybe) := .of_eq rfl merge_marks
  exact (switch_follows hcodes hcs hready hloops h₁ h₂ h₃ (fun _ _ => hmerged.follows) h₄).idle (.of_eq rfl merge_marks)

theorem switchdefault_follows {cs : Cases L} (hcodes : CodesCases results cs) (hcs : FollowsCases results loop rep cs)
    (hs : FollowsStat results loop rep s) : FollowsStat results loop rep (.switchdefault x cs s) := by
  intro es es' h hready hloops
  obtain ⟨⟨es₁, jumpElse⟩, h₁, h⟩ := Option.bind_eq_some_iff.mp h
  obtain ⟨es₂, h₂, h⟩ := Option.bind_eq_some_iff.mp h
  obtain ⟨es₃, h₃, h⟩ := Option.bind_eq_some_iff.mp h
  obtain ⟨es₄, h₄, h⟩ := Option.bind_eq_some_iff.mp h
  obtain ⟨es₅, h₅, h⟩ := Option.bind_eq_some_iff.mp h
  rw [checkInits_eq h]
  have hdefault (hne : es₃.marks ≠ []) (hloops₃ : Loops loop rep es₃.marks) :
      Follows s.paths es₃ (es₄.moveBreaksUp.pop.merge .yes) := by
    obtain ⟨type, htype, -, hbody⟩ := hs.branch rfl hloops₃ h₄
    obtain ⟨c, ms, hopen⟩ := opened hbody.frame.marks htype rfl rfl hne
    obtain ⟨m, ms, rfl⟩ := List.exists_cons_of_ne_nil hopen.ne_nil
    -- Nothing is moved.
    have hmoved : es₄.moveBreaksUp.marks = es₄.marks := by
      rw [moveBreaksUp_marks hopen.marks, hopen.marks, hopen.ends, List.append_nil, ← hopen.ends]
    have hidle : Idle es₄ es₄.moveBreaksUp := .of_eq rfl hmoved
    exact ((hbody.idle hidle).scoped htype rfl rfl rfl hne).idle (.of_eq rfl merge_marks)
  rw [Stat.paths, choice_comm]
  exact (switch_follows hcodes hcs hready hloops h₁ h₂ h₃ hdefault h₅).idle (.of_eq rfl merge_marks)

end

end Events

end Eel
