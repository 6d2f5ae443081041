-- SUMMARY: The code of a function does what its statements say: it has the paths of these, and no others.
import Eel.Compiler.CodeFollows

/-!
# The paths of code

Statements are coded one instruction after another, with jumps that are set when their targets
are known, and without what is found to be dead. The code that becomes of a function has exactly
the paths of its statements, when these do not jump out of functions.
-/

namespace Eel

namespace Events

open Traces Behaviour Paths Coding

section

variable {L : Type} {results : Bool} {es es₁ es₂ es₃ es' : Coding L} {F : List (Instr L)} {X : List Nat} {T : Nat → Aim}
  {a : Aim} {m m' : Marks} {ms ms' : List Marks} {n p q w k : Nat} {b : Bool} {P Q : Paths L} {l out : L} {s s' : Stat L}
  {x : Expr L} {loop rep : Bool}

/-! ## Jumps -/

/-- The loops that jumps may go to are of this function. -/
structure Loops (loop rep : Bool) (ms : List Marks) : Prop where
  brk : loop = true → Within Flags.breakable ms
  cont : loop = true → Within Flags.continuable ms
  rep : rep = true → Within Flags.repeatable ms

theorem Loops.keeps (h : Loops loop rep ms) (hkeeps : KeepsAll n b ms ms') : Loops loop rep ms' :=
  ⟨fun hl => hkeeps.within (h.brk hl), fun hl => hkeeps.within (h.cont hl), fun hr => hkeeps.within (h.rep hr)⟩

theorem Loops.under (h : Loops loop rep ms) (htype : m.type ≠ .function) : Loops loop rep (m :: ms) :=
  ⟨fun hl => (h.brk hl).under htype, fun hl => (h.cont hl).under htype, fun hr => (h.rep hr).under htype⟩

/-- What is coded for the statement follows its paths. -/
def FollowsStat (results loop rep : Bool) (s : Stat L) : Prop :=
  ∀ {es es'}, inner results s es = some es' → Ready es → Loops loop rep es.marks → Follows s.paths es es'

theorem marks_ne_nil (h : es.view ≠ []) : es.marks ≠ [] := by
  intro hnil
  unfold Coding.marks at hnil
  refine h ?_
  unfold Coding.view
  rw [List.map_eq_nil_iff.mp hnil]
  rfl

theorem Ready.marks_ne_nil (h : Ready es) : es.marks ≠ [] := Events.marks_ne_nil h.ne_nil

theorem addEnd_keeps (hp : n ≤ p) (hflag : m.flags.breakable = true ∨ b = true) : m.Keeps n b (m.addEnd p) where
  type := rfl
  flags := rfl
  startpos := rfl
  ends q hq := by
    show q ∈ m.ends ++ [p] ↔ q ∈ m.ends
    rw [List.mem_append, List.mem_singleton, or_iff_left (hq.trans_le hp).ne]
  conts _ _ := .rfl
  noEnds hbrk hb := by
    rw [hbrk, hb] at hflag
    exact (hflag.elim Bool.false_ne_true Bool.false_ne_true).elim
  noConts _ := rfl

theorem addCont_keeps (hp : n ≤ p) (hflag : m.flags.continuable = true) : m.Keeps n b (m.addCont p) where
  type := rfl
  flags := rfl
  startpos := rfl
  ends _ _ := .rfl
  conts q hq := by
    show q ∈ m.conts ++ [p] ↔ q ∈ m.conts
    rw [List.mem_append, List.mem_singleton, or_iff_left (hq.trans_le hp).ne]
  noEnds _ _ := rfl
  noConts hcont := by
    rw [hcont] at hflag
    exact (Bool.false_ne_true hflag).elim

theorem addEnd_perm : ((m.addEnd p).ends ++ (m.addEnd p).conts).Perm (p :: (m.ends ++ m.conts)) := by
  show ((m.ends ++ [p]) ++ m.conts).Perm (p :: (m.ends ++ m.conts))
  rw [List.append_assoc, List.singleton_append]
  exact List.perm_middle

theorem addCont_perm : ((m.addCont p).ends ++ (m.addCont p).conts).Perm (p :: (m.ends ++ m.conts)) := by
  show (m.ends ++ (m.conts ++ [p])).Perm (p :: (m.ends ++ m.conts))
  rw [← List.append_assoc]
  exact List.perm_append_singleton p _

/-- A jump that may not be left out is not coded where control is not. -/
theorem dead_follows (h : ¬ Live es) : Follows P es es :=
  ⟨.of_eq rfl rfl, id, fun hlive => (h hlive).elim⟩

theorem breakstat_follows : FollowsStat results true rep (.breakstat l) := by
  intro es es' h hready hloops
  obtain ⟨d, hd, h⟩ := Option.bind_eq_some_iff.mp h
  rcases codeBreak_cases h with ⟨rfl, hdead⟩ | ⟨es₁, hjump⟩
  · exact dead_follows hdead
  · obtain ⟨m, hat, hflag, htarget⟩ := find_target (hloops.brk rfl) hd
    have hkeeps {n : Nat} {b : Bool} (hn : n ≤ es₁.coded.length) : KeepsAll n b es.marks es'.marks := by
      rw [hjump.marks]
      exact At.keepsAll hat (addEnd_keeps hn (.inl hflag))
    refine ⟨hjump.frame (hkeeps le_rfl), fun ht => hjump.tidy ht ?_, fun _ ht F X T hX hi => ?_⟩
    · rw [hjump.marks]
      exact At.pending_modify hat rfl addEnd_perm
    · have hw : (es₁.coded.length, (T d).brk) ∈ waiting T es'.marks := by
        rw [hjump.marks]
        exact At.waiting_modify hat (.inl ⟨List.mem_append_right _ (List.mem_singleton_self _), rfl⟩)
      rw [Stat.paths, jump_exits, hjump.exec ht hX (hkeeps (b := false) le_rfl) hi hw]
      exact (congrArg (fun w => seq (jump l .next) (goesTo F w)) (htarget (fun _ a => a.brk) T)).symm

theorem contstat_follows : FollowsStat results true rep (.contstat l) := by
  intro es es' h hready hloops
  obtain ⟨d, hd, h⟩ := Option.bind_eq_some_iff.mp h
  rcases codeNext_cases h with ⟨rfl, hdead⟩ | ⟨es₁, hjump⟩
  · exact dead_follows hdead
  · obtain ⟨m, hat, hflag, htarget⟩ := find_target (hloops.cont rfl) hd
    have hkeeps {n : Nat} {b : Bool} (hn : n ≤ es₁.coded.length) : KeepsAll n b es.marks es'.marks := by
      rw [hjump.marks]
      exact At.keepsAll hat (addCont_keeps hn hflag)
    refine ⟨hjump.frame (hkeeps le_rfl), fun ht => hjump.tidy ht ?_, fun _ ht F X T hX hi => ?_⟩
    · rw [hjump.marks]
      exact At.pending_modify hat rfl addCont_perm
    · have hw : (es₁.coded.length, (T d).cont) ∈ waiting T es'.marks := by
        rw [hjump.marks]
        exact At.waiting_modify hat (.inr ⟨List.mem_append_right _ (List.mem_singleton_self _), rfl⟩)
      rw [Stat.paths, jump_exits, hjump.exec ht hX (hkeeps (b := false) le_rfl) hi hw]
      exact (congrArg (fun w => seq (jump l .next) (goesTo F w)) (htarget (fun _ a => a.cont) T)).symm

theorem At.getElem? {d : Nat} (h : At d ms m) : ms[d]? = some m := by
  induction d generalizing ms with
  | zero =>
    obtain ⟨m', ms, rfl⟩ := h.exists_cons
    exact congrArg some (show m' = m from h)
  | succ d ih =>
    obtain ⟨m', ms, rfl⟩ := h.exists_cons
    obtain ⟨_, h⟩ := h
    exact ih h

theorem repeatstat_follows : FollowsStat results loop true (.repeatstat l) := by
  intro es es' h hready hloops
  obtain ⟨d, hd, h⟩ := Option.bind_eq_some_iff.mp h
  obtain ⟨es₁, h₁, h⟩ := Option.bind_eq_some_iff.mp h
  obtain ⟨c, hc, h⟩ := Option.bind_eq_some_iff.mp h
  obtain ⟨es₂, h₂, rfl⟩ := Option.map_eq_some_iff.mp h
  have hidle := leaveContext_idle h₁
  have hquiet := leaveContext_quiet hready.ne_nil h₁
  obtain ⟨m, hat, hflag, htarget⟩ := find_target (hloops.rep rfl) hd
  have hcontexts : es₁.contexts = es.contexts := by
    rcases leaveContext_eq h₁ with rfl | ⟨k, rfl⟩
    · rfl
    · unfold Coding.code
      split <;> rfl
  have hstart : c.startpos = m.startpos := by
    have hm := At.getElem? hat
    rw [← hcontexts, List.getElem?_map, hc] at hm
    exact congrArg Marks.startpos (Option.some.inj hm)
  have hcode := code_codedAt es₁ (.jump l 0)
  have hcore : Follows (jump l .rep) es₁ es₂ := by
    refine ⟨hcode.frame.trans (.setjump h₂ fun p hp => hcode.le hp), fun ht => (hcode.tidy ht).of_marks (setjump_marks h₂)
      (setjump_length h₂).ge, fun hlive ht F X T hX hi => ?_⟩
    rw [jump_exits, (hcode.aimed_frame (hcode.live hlive) ht (.of_eq rfl rfl) h₂ (fun h => (hX _ h).false) hi).jump]
    have hgoes := congrArg (fun w => seq (jump l .next) (goesTo F w)) (htarget (fun m _ => m.startpos) T)
    rw [← hcontexts] at hgoes
    exact (hstart ▸ hgoes).symm
  have hmarked : Follows (jump l .rep) es₁ (es₂.mapContexts (eBreak d)) := hcore.idle (.of_eq rfl eBreak_marks)
  exact hidle.before hquiet.live hmarked

/-! ## Conditional statements -/

/-- A statement in a conditional context that is no loop. -/
theorem FollowsStat.branch {flags : Flags} (hs : FollowsStat results loop rep s) (hflags : flags.conditional = true)
    (hloops : Loops loop rep es.marks) (h : inner results s (es.enter s.isBody flags) = some es₁) :
    ∃ type, type ≠ .function ∧ es.enter s.isBody flags = es.push type false flags ∧
      Follows s.paths (es.push type false flags) es₁ := by
  obtain ⟨type, htype, henter⟩ := enter_conditional es s.isBody hflags
  rw [henter] at h
  refine ⟨type, htype, henter, hs h push_ready ?_⟩
  obtain ⟨pos, hmarks, -⟩ := push_marks es type false flags
  rw [hmarks]
  exact hloops.under htype

theorem CodedAt.marks_ne_nil {i : Instr L} {mark : Option Nat} (h : CodedAt i mark es es₁) (hready : Ready es) :
    es₁.marks ≠ [] := by
  rw [h.marks]
  exact hready.marks_ne_nil

theorem CodedAt.loops {i : Instr L} {mark : Option Nat} (h : CodedAt i mark es es₁) (hloops : Loops loop rep es.marks) :
    Loops loop rep es₁.marks := by
  rw [h.marks]
  exact hloops

/-- What is behind a test is come to, if that is. -/
theorem codeExpr_live {i : L → Instr L} {mark : Option Nat} (hi : (i x.label).labels = [x.label]) (hready : Ready es)
    (h : es.codeExpr i x = some (es₁, mark)) (hlive : Live es) : Live es₁ := by
  have hmeets : Meets false (instr x.label) es es₁ := codeExpr_meets hi hready.ne_nil h
  exact hmeets.live hlive (ends_instr.mpr (.inr (.inl rfl)))

theorem ifstat_follows (hs : FollowsStat results loop rep s) : FollowsStat results loop rep (.ifstat x s) := by
  intro es es' h hready hloops
  obtain ⟨⟨es₁, jumpFalse⟩, h₁, h⟩ := Option.bind_eq_some_iff.mp h
  obtain ⟨es₂, h₂, h⟩ := Option.bind_eq_some_iff.mp h
  obtain ⟨es₃, h₃, h⟩ := Option.bind_eq_some_iff.mp h
  obtain ⟨es₄, h₄, h⟩ := Option.bind_eq_some_iff.mp h
  rw [checkInits_eq h]
  have hat := codeExpr_codedAt hready.ne_nil h₁
  obtain ⟨type, htype, -, hbody⟩ := hs.branch rfl (hat.loops hloops) h₂
  have hthen := (hbody.idle (leaveContext_idle h₃)).scoped htype rfl rfl rfl (hat.marks_ne_nil hready)
  have hcore : Follows (Stat.ifstat x s).paths es es₄ := by
    refine ⟨(hat.frame.trans (hthen.frame.mono hat.frame.length)).trans (.setjump h₄ fun p hp => hat.le hp), fun ht =>
      (hthen.tidy (hat.tidy ht)).of_marks (setjump_marks h₄) (setjump_length h₄).ge, fun hlive ht F X T hX hi => ?_⟩
    have hmark := hat.live hlive
    have haimed := hat.aimed_frame hmark ht hthen.frame h₄ (fun h => (hX _ h).false) hi
    obtain ⟨Y, hY, hi'⟩ := hat.hide h₄ hi
    have hY' (q : Nat) (hq : q ∈ Y) : q < es₁.coded.length :=
      (hY q hq).elim (fun h => (hX q h).trans_le hat.frame.length) And.right
    have hpaths := hthen.paths (codeExpr_live rfl hready h₁ hlive) (hat.tidy ht) hY' hi'
    rw [haimed.branch, ← hat.length_eq hmark, hpaths, Stat.paths, straight_instr.bind_seq_exits, bind_choice, bind_done,
      hat.marks, setjump_length h₄]
    rfl
  exact hcore.idle (.of_eq rfl merge_marks)

/-- An instruction in a branch is not changed by what is behind the branch. -/
theorem CodedAt.aimed_branch {i : Instr L} {mark pos : Option Nat} {n v w : Nat} {m : Marks} {ms : List Marks}
    {es₀ : Coding L} (h : CodedAt i mark es es₁) (hmark : mark ≠ none) (ht : Tidy es) (hopen : Opened n es₀ es₁ m ms)
    (hpos : pos ≠ some es.coded.length) (hset : es₁.pop.setjump pos v = some es₂)
    (hframe : Frame none es₂.coded.length es₂ es₃) (hset' : es₃.setjump mark w = some es') (hX : es.coded.length ∉ X)
    (hi : Into F X T es') : Aimed F es.coded.length w i := by
  have hlt : es.coded.length < es₂.coded.length :=
    calc es.coded.length < es₁.coded.length := by
          rw [h.length_eq hmark]
          exact Nat.lt_succ_self _
      _ = es₂.coded.length := (setjump_length hset).symm
  have hkept : es₃.coded[es.coded.length]? = es₁.coded[es.coded.length]? :=
    (hframe.coded _ hlt nofun).trans (setjump_getElem? hset hpos :)
  have hpending : es.coded.length ∉ pending es₃.marks := by
    rw [hframe.marks.pending_iff hlt, setjump_marks hset, hopen.pending, h.marks]
    exact fun hmem => (ht.lt _ hmem).false
  exact h.aimed hmark hkept hpending hset' hX hi

theorem ifelse_follows (hcodes : Codes results s) (hs : FollowsStat results loop rep s)
    (hs' : FollowsStat results loop rep s') : FollowsStat results loop rep (.ifelse x s out s') := by
  intro es es' h hready hloops
  obtain ⟨⟨es₁, jumpFalse⟩, h₁, h⟩ := Option.bind_eq_some_iff.mp h
  obtain ⟨es₂, h₂, h⟩ := Option.bind_eq_some_iff.mp h
  obtain ⟨es₃, h₃, h⟩ := Option.bind_eq_some_iff.mp h
  obtain ⟨es₄, h₄, h⟩ := Option.bind_eq_some_iff.mp h
  obtain ⟨es₅, h₅, h⟩ := Option.bind_eq_some_iff.mp h
  obtain ⟨es₆, hleave, h⟩ := Option.bind_eq_some_iff.mp h
  obtain ⟨es₇, h₇, h⟩ := Option.bind_eq_some_iff.mp h
  rw [checkInits_eq h]
  obtain ⟨es₈, h₈, rfl⟩ := leave_conditional hleave
  have hat := codeExpr_codedAt hready.ne_nil h₁
  have hout := code_codedAt es₃ (.jump out 0)
  have hne₁ := hat.marks_ne_nil hready
  -- The first branch, with the jump to the end.
  obtain ⟨type, htype, henter, hbody⟩ := hs.branch rfl (hat.loops hloops) h₂
  have hleft := hbody.idle (leaveContext_idle h₃)
  have hframe := hleft.frame.trans (hout.frame.mono hleft.frame.length)
  obtain ⟨m, ms, hopen⟩ := opened hframe.marks htype rfl rfl hne₁
  have hpop := hopen.frame hframe
  have hframe₄ := (hat.frame.trans (hpop.mono hat.frame.length)).trans (.setjump h₄ fun p hp => hat.le hp)
  have htidy₄ (ht : Tidy es₁) : Tidy es₄ := (hopen.tidy (hout.tidy (hleft.tidy (ht.push htype)))).of_marks
    (setjump_marks h₄) (setjump_length h₄).ge
  -- The second branch.
  obtain ⟨type', htype', -, hbody'⟩ := hs'.branch rfl (hloops.keeps hframe₄.marks) h₅
  have helse := (hbody'.idle (leaveContext_idle h₈)).scoped htype' rfl rfl rfl
    (hframe₄.marks.ne_nil hready.marks_ne_nil)
  have hlen₃ : es.coded.length ≤ es₃.coded.length := hat.frame.length.trans hleft.frame.length
  have hlen₄ : es₄.coded.length = (es₃.code (.jump out 0)).coded.length := (jumpHere_length h₄ :)
  have hcore : Follows (Stat.ifelse x s out s').paths es es₇ := by
    refine ⟨(hframe₄.trans (helse.frame.mono hframe₄.length)).trans (.setjump h₇ fun p hp => hlen₃.trans (hout.le hp)),
      fun ht => (helse.tidy (htidy₄ (hat.tidy ht))).of_marks (setjump_marks h₇) (setjump_length h₇).ge,
      fun hlive ht F X T hX hi => ?_⟩
    have ht₁ := hat.tidy ht
    have ht₃ := hleft.tidy (ht₁.push htype)
    have hmark := hat.live hlive
    have hlive₁ := codeExpr_live rfl hready h₁ hlive
    rw [henter] at h₂
    have hmeets := hcodes h₂ push_ready
    have hmeets₃ := hmeets.quiet (leaveContext_quiet hmeets.steps.ne_nil h₃)
    have hlive₄ : Live es₄ := by
      have hexpr : Meets results (instr x.label) es es₁ := codeExpr_meets rfl hready.ne_nil h₁
      obtain ⟨e, hadds⟩ := (hmeets₃.code (i := .jump out 0) rfl).branch htype rfl hexpr.steps.ne_nil
      exact (setjump_same h₄).live (hadds.live hlive₁)
    have hlen₁ := hat.length_eq hmark
    have hlt₁ : es.coded.length < es₁.coded.length := by
      rw [hlen₁]
      exact Nat.lt_succ_self _
    have hlt {q : Nat} (hq : q = es₃.coded.length ∧ q < (es₃.code (.jump out 0)).coded.length) :
        es₃.coded.length < es₄.coded.length := by
      rw [hlen₄]
      exact hq.1 ▸ hq.2
    -- The second branch is in front of where the jump behind the first one is set.
    obtain ⟨Y, hY, hiY⟩ := hout.hide h₇ hi
    have hY' (q : Nat) (hq : q ∈ Y) : q < es₄.coded.length :=
      (hY q hq).elim (fun h => (hX q h).trans_le hframe₄.length) fun h => h.1 ▸ hlt h
    have helse' := helse.paths hlive₄ (htidy₄ ht₁) hY' hiY
    -- The test goes there, or to the first branch.
    have hi₄ := helse.frame.back hiY
    have hne (q : Nat) (hq : q ∈ Y) : q ≠ es.coded.length := by
      rcases hY q hq with hq | ⟨rfl, -⟩
      · exact (hX q hq).ne
      · exact (Nat.lt_of_lt_of_le hlt₁ hleft.frame.length).ne'
    have htest : exec F es.coded.length =
        seq (instr x.label) (choice (exec F es₄.coded.length) (exec F es₁.coded.length)) := by
      rw [hlen₄, hlen₁]
      exact (hat.aimed_frame hmark ht hpop h₄ (fun hmem => hne _ hmem rfl) hi₄).branch
    obtain ⟨Z, hZ, hiZ⟩ := hat.hide h₄ hi₄
    have hi₃ : Into F (es.coded.length :: X) (under ⟨0, 0⟩ T) es₃ := by
      refine (hout.frame.back (hopen.into hiZ)).weaken fun q hq hlt => ?_
      rcases hZ q hq with hq | ⟨rfl, -⟩
      · rcases hY q hq with hq | ⟨rfl, -⟩
        · exact List.mem_cons_of_mem _ hq
        · exact hlt.false.elim
      · exact List.mem_cons_self
    -- The jump behind the first branch stays as it is until it is set.
    have hjump (hlive₃ : Live es₃) : exec F es₃.coded.length = seq (jump out .next) (exec F es₇.coded.length) := by
      have hne₃ : jumpFalse ≠ some es₃.coded.length := by
        rw [(hat.marked hmark).1]
        exact fun hp => (Nat.lt_of_lt_of_le hlt₁ hleft.frame.length).ne (Option.some.inj hp)
      rw [jumpHere_length h₇]
      exact (hout.aimed_branch (hout.live hlive₃) ht₃ hopen hne₃ h₄ helse.frame h₇ (fun hmem => (hX _ hmem).not_ge hlen₃) hi).jump
    have hX₁ (q : Nat) (hq : q ∈ es.coded.length :: X) : q < es₁.coded.length := by
      rcases List.mem_cons.mp hq with rfl | hq
      · exact hlt₁
      · exact (hX q hq).trans_le hat.frame.length
    have hlive₃ (hends : s.paths.Ends .next) : Live es₃ :=
      (leaveContext_quiet hmeets.steps.ne_nil h₃).live (hmeets.live hlive₁.push hends)
    have hthen := hleft.out htype rfl rfl rfl hne₁ hlive₃ hlive₁ ht₁ hX₁ hi₃ hjump
    rw [htest, helse', hthen, Stat.paths, straight_instr.bind_seq_exits, bind_choice, choice_comm, hat.marks,
      hframe₄.marks.exits_eq, jumpHere_length h₇]
  exact hcore.idle (.of_eq rfl merge_marks)

end

end Events

end Eel
