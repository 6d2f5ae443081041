-- SUMMARY: The code of loops has the paths of these, with the jumps out of them and back to where they start.
import Eel.Compiler.CodePaths

/-!
# Loops in code

The body of a loop is coded in a context where jumps to the end and to where the loop goes on are
marked. When these are fixed up and the jump back is set, the code does rounds of the loop.
-/

namespace Eel

namespace Events

open Traces Behaviour Paths Coding

section

variable {L : Type} {results : Bool} {es es₁ es₂ es₃ es' : Coding L} {F : List (Instr L)} {X : List Nat} {T : Nat → Aim}
  {a : Aim} {m m' : Marks} {ms ms' : List Marks} {n p q w c start : Nat} {b : Bool} {P Q R : Paths L} {l : L}
  {s : Stat L} {x : Expr L} {loop rep : Bool} {type : ContextType} {xblock : Bool} {flags : Flags}
  {k : Exit → Paths L}

/-! ## Rounds -/

/-- Where there is another round, it starts again. -/
def again (R : Paths L) (k : Exit → Paths L) : Exit → Paths L
  | .cont => R
  | x => k x

theorem again_of_ne {x : Exit} (hx : x ≠ .cont) : again R k x = k x := by
  cases x with
  | cont => exact (hx rfl).elim
  | _ => rfl

theorem straight_again : Straight P → bind (seq P Q) (again R (exits F T ms w)) = seq P (bind Q (again R (exits F T ms w))) := by
  intro h
  rw [bind_seq]
  refine bind_congr fun x hx => ?_
  obtain ⟨hbrk, hcont, hrep⟩ := h x hx
  cases x with
  | brk => exact (hbrk rfl).elim
  | cont => exact (hcont rfl).elim
  | rep => exact (hrep rfl).elim
  | _ => rfl

theorem jump_again : bind (jump l .cont) (again R (exits F T ms w)) = seq (jump l .next) R := by
  unfold jump seq
  rw [bind_choice, bind_choice, bind_visit, bind_visit (x := Exit.next), bind_done, bind_done]
  rfl

/-- A test at the end of a round. -/
theorem test_again : bind (seq (instr l) (choice (done .next) (done .cont))) (again R (exits F T ms w)) =
    seq (instr l) (choice R (exec F w)) := by
  rw [straight_again straight_instr, bind_choice, bind_done, bind_done, choice_comm]
  rfl

/-- What is in the context of a loop goes on as the turns of the loop say. -/
theorem bind_turn (hms : ms ≠ []) (hbrk : flags.breakable = true) (hcont : flags.continuable = true)
    (htype : type ≠ .function) (hends : EndsToo P .cont)
    (hrep : flags.repeatable = true → R = exec F start)
    (hQ : P.Ends .next → exec F c = bind Q (again R (exits F T ms w))) :
    bind P (exits F (under ⟨w, c⟩ T) (⟨type, flags, start, [], []⟩ :: ms) c) =
      bind (turn P Q flags.repeatable) (again R (exits F T ms w)) := by
  unfold turn
  rw [bind_assoc]
  refine bind_congr fun x hx => ?_
  have htarget (flag : Flags → Bool) (dest : Marks → Aim → Nat) :
      target flag dest (under ⟨w, c⟩ T) (⟨type, flags, start, [], []⟩ :: ms) =
        if flag flags then some (dest ⟨type, flags, start, [], []⟩ ⟨w, c⟩) else target flag dest T ms := by
    rw [target_cons hms, if_neg htype]
    rfl
  cases x with
  | next => exact hQ hx
  | cont => exact (congrArg (goesTo F) ((htarget _ _).trans (if_pos hcont))).trans (hQ (hends hx))
  | brk =>
    dsimp only
    rw [bind_done]
    exact congrArg (goesTo F) ((htarget _ _).trans (if_pos hbrk))
  | rep =>
    refine (congrArg (goesTo F) (htarget _ _)).trans ?_
    dsimp only
    rw [bind_done]
    cases hflag : flags.repeatable with
    | true => exact (hrep hflag).symm
    | false => rfl
  | _ =>
    dsimp only
    rw [bind_done]
    rfl

/-! ## Progress -/

/-- Nothing is done in no time. -/
def Busy (P : Paths L) : Prop := ∀ x, P [] x → x = .next ∨ x = .cut

theorem busy_instr : Busy (instr l) := by
  rintro x (⟨-, rfl⟩ | ⟨h, -⟩ | ⟨h, -⟩)
  · exact .inr rfl
  · cases h
  · cases h

theorem jump_nil {x y : Exit} (h : jump l x [] y) : y = .cut := by
  rcases h with ⟨-, rfl⟩ | ⟨h, -⟩
  · rfl
  · cases h

theorem busy_jump {x : Exit} : Busy (jump l x) := fun _ h => .inr (jump_nil h)

theorem busy_done : Busy (done .next : Paths L) := by
  rintro x ⟨-, rfl⟩
  exact .inl rfl

theorem Busy.seq (h : Busy P) (h' : Busy Q) : Busy (seq P Q) := by
  rintro x ⟨u, v, y, huv, hu, hv⟩
  obtain ⟨rfl, rfl⟩ := List.append_eq_nil_iff.mp huv.symm
  rcases h y hu with rfl | rfl
  · exact h' x hv
  · exact .inr hv.2

/-- Behind an instruction, it does not matter what there is. -/
theorem instr_seq_nil {x : Exit} (h : seq (instr l) Q [] x) : x = .cut := by
  obtain ⟨u, v, y, huv, hu, hv⟩ := h
  obtain ⟨rfl, rfl⟩ := List.append_eq_nil_iff.mp huv.symm
  rcases hu with ⟨-, rfl⟩ | ⟨h, -⟩ | ⟨h, -⟩
  · exact hv.2
  · cases h
  · cases h

theorem busy_instr_seq : Busy (seq (instr l) Q) := fun _ h => .inr (instr_seq_nil h)

/-- No turn of a loop is done in no time. -/
theorem turn_nil {x : Exit} (h : Busy P) (hQ : ∀ x, Q [] x → x = .cut) (hx : turn P Q b [] x) : x = .cut := by
  obtain ⟨u, v, y, huv, hu, hv⟩ := hx
  obtain ⟨rfl, rfl⟩ := List.append_eq_nil_iff.mp huv.symm
  rcases h y hu with rfl | rfl
  · exact hQ x hv
  · exact hv.2

theorem busy_rounds {y : Exit} (h : ∀ x, P [] x → x = .cut) : Busy (rounds P y) := by
  intro x hx
  generalize ht : ([] : List L) = t at hx
  induction hx with
  | last hx =>
    subst ht
    exact .inr (h _ hx)
  | round hu _ ih =>
    obtain ⟨rfl, rfl⟩ := List.append_eq_nil_iff.mp ht.symm
    exact ih rfl

mutual

theorem Stat.busy : (s : Stat L) → Busy s.paths
  | .void => busy_done
  | .assignstat _ => busy_instr
  | .whilestat (.never _) _ _ | .retrystat _ | .breakstat _ | .contstat _ | .repeatstat _ => busy_jump
  | .throwstat _ | .returnstat _ | .ifstat _ _ | .ifelse _ _ _ _ | .switchstat _ _ | .switchdefault _ _ _
  | .forstat _ _ _ | .untrystat _ _ => busy_instr_seq
  | .whilestat .always s _ => busy_rounds fun _ h => turn_nil s.busy (fun _ h => jump_nil h) h
  | .whilestat (.expr _) _ _ | .trystat _ _ | .tryexcept _ _ _ => busy_rounds fun _ h => instr_seq_nil h
  | .dostat s _ => busy_rounds fun _ h => turn_nil s.busy (fun _ h => instr_seq_nil h) h
  | .body b => b.busy

theorem Block.busy : (b : Block L) → Busy b.paths
  | .nil => busy_done
  | .cons s b => s.busy.seq b.busy

end

/-- What starts again after each round is the rounds. -/
theorem loop_again (hP : ∀ x, P [] x → x = .cut) (h : R = bind P (again R k)) : R = bind (Paths.loop P) k := by
  refine eq_bind_rounds (fun t ht => ?_) rfl (fun x hx => again_of_ne hx) h
  rintro rfl
  cases hP .cont ht

/-! ## Bodies -/

theorem pending_push (htype : type ≠ .function) : pending (es.push type xblock flags).marks = pending es.marks := by
  obtain ⟨pos, hmarks, -⟩ := push_marks es type xblock flags
  rw [hmarks]
  exact pending_open htype rfl rfl

/-- The body of a loop, up to where `continue` goes. -/
structure Turns (P : Paths L) (type : ContextType) (flags : Flags) (es es' : Coding L) (m : Marks) (ms : List Marks) :
    Prop where
  noFunction : type ≠ .function
  brk : flags.breakable = true
  cont : flags.continuable = true
  ne_nil : es.marks ≠ []
  frame : Frame none es.coded.length (es.push type false flags) es'
  tidy : Tidy es → Tidy es'
  marks : es'.marks = m :: ms
  conts : m.conts = []
  paths : Live es → Tidy es → ∀ {F X T w}, (∀ q ∈ X, q < es.coded.length) → Into F X (under ⟨w, es'.coded.length⟩ T) es' →
    exec F es.coded.length =
      bind P (exits F (under ⟨w, es'.coded.length⟩ T) (⟨type, flags, es.coded.length, [], []⟩ :: es.marks) es'.coded.length)

/-- Jumps to here are all of the loop. -/
theorem keeps_fixed {ends conts : List Nat} (hends : flags.breakable = true) (hconts : flags.continuable = true)
    (hm : m.flags = flags) (hm' : m' = { m with ends := ends, conts := conts })
    (hq : ∀ q < n, (q ∈ ends ↔ q ∈ m.ends) ∧ (q ∈ conts ↔ q ∈ m.conts)) : KeepsAll n b (m :: ms) (m' :: ms) := by
  subst hm' hm
  refine ⟨⟨rfl, rfl, rfl, fun q hlt => (hq q hlt).1, fun q hlt => (hq q hlt).2, fun h => ?_, fun h => ?_⟩, ?_⟩
  · rw [hends] at h
    cases h
  · rw [hconts] at h
    cases h
  · split
    · rfl
    · exact .refl

theorem Turns.keeps (h : Turns P type flags es es₁ m ms) :
    m.type = type ∧ m.flags = flags ∧ (∀ q < es.coded.length, q ∉ m.ends) ∧ KeepsAll es.coded.length false es.marks ms := by
  obtain ⟨pos, hmarks, -⟩ := push_marks es type false flags
  have hkeeps := h.frame.marks
  rw [hmarks, h.marks] at hkeeps
  obtain ⟨m', ms', heq, hm, hms⟩ := hkeeps.cons_inv h.noFunction
  cases heq
  refine ⟨hm.type, hm.flags, fun q hq => ?_, hms⟩
  rw [hm.ends q hq]
  exact List.not_mem_nil

/-- A statement in the context of a loop. -/
theorem FollowsStat.turns (hs : FollowsStat results true (flags.repeatable || rep) s) (hflags : flags.conditional = true)
    (hbrk : flags.breakable = true) (hcont : flags.continuable = true) (hloops : Loops loop rep es.marks)
    (hne : es.marks ≠ []) (h₁ : inner results s (es.enter s.isBody flags) = some es₁)
    (h₂ : es₁.leaveContext 0 = some es₂) (h₃ : es₂.fixupContinuations = some es₃) :
    ∃ type m ms, Turns s.paths type flags es es₃ m ms := by
  obtain ⟨type, htype, henter⟩ := enter_conditional es s.isBody hflags
  rw [henter] at h₁
  obtain ⟨pos, hmarks, hpos⟩ := push_marks es type false flags
  obtain rfl := hpos hcont
  have hinner : Loops true (flags.repeatable || rep) (es.push type false flags).marks := by
    rw [hmarks]
    refine ⟨fun _ => within_cons hne hbrk, fun _ => within_cons hne hcont, fun hrep => ?_⟩
    rcases (Bool.or_eq_true _ _).mp hrep with hrep | hrep
    · exact within_cons hne hrep
    · exact (hloops.rep hrep).under htype
  have hleft := (hs h₁ push_ready hinner).idle (leaveContext_idle h₂)
  have hkeeps := hleft.frame.marks
  rw [hmarks] at hkeeps
  obtain ⟨m, ms, hm₂, hm, hms⟩ := hkeeps.cons_inv htype
  have hfixed := fixupContinuations_fixedUp hm₂ h₃
  have hpending : (pending es₂.marks).Perm (m.conts ++ pending ({ m with conts := [] } :: ms)) := by
    rw [hm₂]
    exact pending_conts
  have hold (q : Nat) (hq : q < es.coded.length) : q ∉ m.conts := by
    rw [hm.conts q hq]
    exact List.not_mem_nil
  refine ⟨type, { m with conts := [] }, ms, htype, hbrk, hcont, hne, hleft.frame.trans (hfixed.frame (fun q hq => ?_) ?_),
    fun ht => hfixed.tidy (hleft.tidy (ht.push htype)) hpending, hfixed.marks, rfl, fun hlive ht F X T w hX hi => ?_⟩
  · exact not_lt.mp fun hlt => hold q hlt hq
  · rw [hm₂]
    refine keeps_fixed hbrk hcont hm.flags rfl fun q hq => ⟨.rfl, ?_⟩
    exact ⟨fun h => (List.not_mem_nil h).elim, fun h => (hold q hq h).elim⟩
  · have ht₂ := hleft.tidy (ht.push htype)
    have hi₂ : Into F X (under ⟨w, es₂.coded.length⟩ T) es₂ := by
      refine hfixed.into ht₂ hi hpending fun q v hq => ?_
      rw [hm₂] at hq
      exact waiting_conts (a := ⟨w, es₃.coded.length⟩) hq
    rw [hfixed.length, ← hmarks]
    exact hleft.paths hlive.push (ht.push htype) hX hi₂

/-- What is behind the loop. -/
structure LoopEnd (n : Nat) (es es₁ es' : Coding L) : Prop where
  length : es'.coded.length = es₁.coded.length
  frame : Frame none n es es'
  tidy : Tidy es₁ → Tidy es'
  into : ∀ {F X T c}, Tidy es₁ → Into F X T es' → Into F X (under ⟨es'.coded.length, c⟩ T) es₁

theorem Turns.loopEnd (h : Turns P type flags es es₁ m ms) (hframe : Frame none n es₁ es₂) (hmarks : es₂.marks = es₁.marks)
    (hn : n ≤ es.coded.length) (hfix : es₂.fixupBreaks = some es₃) : LoopEnd n es es₂ es₃.pop := by
  obtain ⟨htype, hflags, hold, hms⟩ := h.keeps
  have hm₂ := hmarks.trans h.marks
  have hfixed := fixupBreaks_fixedUp hm₂ hfix
  have hpending : (pending es₂.marks).Perm (m.ends ++ pending ({ m with ends := [] } :: ms)) := by
    rw [hm₂]
    exact pending_ends
  have hopen : Opened n es es₃ { m with ends := [] } ms :=
    ⟨hfixed.marks, htype.trans_ne h.noFunction, rfl, h.conts, hms.ne_nil h.ne_nil, hms.mono hn⟩
  have hkeeps : KeepsAll n false es₂.marks ({ m with ends := [] } :: ms) := by
    rw [hm₂]
    refine keeps_fixed h.brk h.cont hflags rfl fun q hq => ⟨?_, .rfl⟩
    exact ⟨fun h => (List.not_mem_nil h).elim, fun h => (hold q (hq.trans_le hn) h).elim⟩
  refine ⟨hfixed.length, hopen.frame (((h.frame.mono hn).trans hframe).trans (hfixed.frame (fun q hq => ?_) hkeeps)),
    fun ht => hopen.tidy (hfixed.tidy ht hpending), fun {F X T c} ht hi => ?_⟩
  · exact hn.trans (not_lt.mp fun hlt => hold q hlt hq)
  · refine hfixed.into ht (hopen.into (a := ⟨0, c⟩) hi) hpending fun q v hq => ?_
    rw [hm₂] at hq
    rw [show es₃.pop.coded.length = es₂.coded.length from hfixed.length] at hq
    exact waiting_ends (a := ⟨0, c⟩) hq

/-- A jump back is set at once. -/
theorem CodedAt.backward {i : Instr L} {mark : Option Nat} (h : CodedAt i mark es es₁) (hset : es₁.setjump mark w = some es₂)
    (ht : Tidy es) (hX : ∀ q ∈ X, q < es.coded.length) (hi : Into F X T es₂) :
    (mark ≠ none → Aimed F es.coded.length w i) ∧ Into F X T es := by
  have hX' : es.coded.length ∉ X := fun hmem => (hX _ hmem).false
  refine ⟨fun hmark => h.aimed_frame hmark ht (.of_eq rfl rfl) hset hX' hi, ?_⟩
  obtain ⟨Y, hY, hi₁⟩ := h.hide hset hi
  refine (h.frame.back hi₁).weaken fun q hq hlt => ?_
  rcases hY q hq with hq | ⟨rfl, -⟩
  · exact hq
  · exact hlt.false.elim

/-- A round of a loop, with the jump back behind it. -/
theorem Turns.round {i : Instr L} {mark : Option Nat} (h : Turns P type flags es es₁ m ms) (hat : CodedAt i mark es₁ es₂)
    (hset : es₂.setjump mark start = some es₃) (hends : EndsToo P .cont) (hlive₁ : P.Ends .next → Live es₁)
    (hlive : Live es) (ht : Tidy es) (hX : ∀ q ∈ X, q < es.coded.length)
    (hi : Into F X (under ⟨w, es₁.coded.length⟩ T) es₃) (hrep : flags.repeatable = true → start = es.coded.length)
    (hQ : mark ≠ none → Aimed F es₁.coded.length start i →
      exec F es₁.coded.length = bind Q (again (exec F start) (exits F T es.marks w))) :
    exec F es.coded.length = bind (turn P Q flags.repeatable) (again (exec F start) (exits F T es.marks w)) := by
  obtain ⟨haimed, hi₁⟩ := hat.backward hset (h.tidy ht) (fun q hq => (hX q hq).trans_le h.frame.length) hi
  refine (h.paths hlive ht hX hi₁).trans (bind_turn h.ne_nil h.brk h.cont h.noFunction hends (fun hflag => ?_) ?_)
  · rw [hrep hflag]
  · intro hnext
    have hmark := hat.live (hlive₁ hnext)
    exact hQ hmark (haimed hmark)

/-- A jump around a loop, which is set behind that. -/
theorem CodedAt.around {i : Instr L} {mark : Option Nat} (hat : CodedAt i mark es es₁) (h : Turns P type flags es₁ es₂ m ms)
    (hframe : Frame none es₁.coded.length es₂ es₃) (hmarks : es₃.marks = es₂.marks) (hmark : mark ≠ none) (ht : Tidy es)
    (hset : es₃.setjump mark w = some es') (hX : es.coded.length ∉ X) (hi : Into F X T es') :
    Aimed F es.coded.length w i := by
  have hlt : es.coded.length < es₁.coded.length := by
    rw [hat.length_eq hmark]
    exact Nat.lt_succ_self _
  refine hat.aimed hmark ((hframe.coded _ hlt nofun).trans (h.frame.coded _ hlt nofun)) ?_ hset hX hi
  rw [hmarks, h.frame.marks.pending_iff hlt, pending_push h.noFunction, hat.marks]
  exact fun hmem => (ht.lt _ hmem).false

/-! ## Loops -/

theorem whilestat_follows {t : Test L} (hcodes : Codes results s) (hs : FollowsStat results true rep s)
    (hregular : (Stat.whilestat t s l).Regular) : FollowsStat results loop rep (.whilestat t s l) := by
  intro es es' h hready hloops
  obtain ⟨⟨es₁, jumpOut, evstate⟩, h₁, h⟩ := Option.bind_eq_some_iff.mp h
  obtain ⟨es₂, h₂, h⟩ := Option.bind_eq_some_iff.mp h
  obtain ⟨es₃, h₃, h⟩ := Option.bind_eq_some_iff.mp h
  obtain ⟨es₄, h₄, h⟩ := Option.bind_eq_some_iff.mp h
  obtain ⟨es₅, h₅, h⟩ := Option.bind_eq_some_iff.mp h
  obtain ⟨es₆, h₆, h⟩ := Option.bind_eq_some_iff.mp h
  obtain ⟨es₇, h₇, h⟩ := Option.bind_eq_some_iff.mp h
  rw [checkInits_eq h]
  have htest : Frame none es.coded.length es es₁ ∧ es₁.marks = es.marks ∧ ∀ p, jumpOut = some p → es.coded.length ≤ p := by
    cases t with
    | never out =>
      cases h₁
      have hat := code_codedAt es (.jump out 0)
      exact ⟨hat.frame, hat.marks, fun p hp => hat.le hp⟩
    | always =>
      cases h₁
      exact ⟨.of_eq rfl rfl, rfl, nofun⟩
    | expr x =>
      obtain ⟨⟨es₀, p⟩, h₀, heq⟩ := Option.map_eq_some_iff.mp h₁
      cases heq
      have hat := codeExpr_codedAt hready.ne_nil h₀
      exact ⟨hat.frame, hat.marks, fun p hp => hat.le hp⟩
  obtain ⟨hframe₁, hmarks₁, hle⟩ := htest
  have hne₁ : es₁.marks ≠ [] := by
    rw [hmarks₁]
    exact hready.marks_ne_nil
  have hloops₁ : Loops loop rep es₁.marks := by
    rw [hmarks₁]
    exact hloops
  obtain ⟨type, m, ms, hturns⟩ := FollowsStat.turns hs rfl rfl rfl hloops₁ hne₁ h₂ h₃ h₄
  have hback := code_codedAt es₄ (.jump l 0)
  have hmarks₅ : es₅.marks = es₄.marks := (setjump_marks h₅).trans (code_marks _)
  have hframe₅ : Frame none es₄.coded.length es₄ es₅ := hback.frame.trans (.setjump h₅ fun p hp => hback.le hp)
  have hlen₄ : es.coded.length ≤ es₄.coded.length := hframe₁.length.trans hturns.frame.length
  have hend := hturns.loopEnd ((hframe₅.mono hlen₄).trans (.setjump h₆ hle)) ((setjump_marks h₆ :).trans hmarks₅)
    hframe₁.length h₇
  have hlen : es₇.pop.coded.length = es₅.coded.length := hend.length.trans (jumpHere_length h₆)
  have htidy₁ (ht : Tidy es) : Tidy es₁ := ht.of_marks hmarks₁ hframe₁.length
  have htidy₆ (ht : Tidy es) : Tidy es₆ := (hturns.tidy (htidy₁ ht)).of_marks ((setjump_marks h₆ :).trans hmarks₅)
    (hframe₅.length.trans (jumpHere_length h₆).ge)
  -- A round of the loop, when it is known where the jump back goes.
  have hround {F : List (Instr L)} {X : List Nat} {T : Nat → Aim} (hcont : EndsToo s.paths .cont) (hlive : Live es₁)
      (ht : Tidy es) (hX : ∀ q ∈ X, q < es₁.coded.length)
      (hi : Into F X (under ⟨es₇.pop.coded.length, es₄.coded.length⟩ T) es₅) :
      exec F es₁.coded.length = bind (turn s.paths (jump l .cont) false)
        (again (exec F es.coded.length) (exits F T es.marks es₇.pop.coded.length)) := by
    obtain ⟨_, -, hmeets⟩ := hcodes.loop_body rfl h₂ h₃ h₄
    rw [← hmarks₁]
    exact hturns.round hback h₅ hcont (hmeets.live hlive.push) hlive (htidy₁ ht) hX hi nofun fun _ haimed =>
      haimed.jump.trans jump_again.symm
  have hcore : Follows (Stat.whilestat t s l).paths es es₇.pop := by
    refine ⟨hframe₁.trans hend.frame, fun ht => hend.tidy (htidy₆ ht), fun hlive ht F X T hX hi => ?_⟩
    have hi₆ := hend.into (c := es₄.coded.length) (htidy₆ ht) hi
    have hX' : es.coded.length ∉ X := fun hmem => (hX _ hmem).false
    cases t with
    | never out =>
      cases h₁
      have hat := code_codedAt es (.jump out 0)
      have haimed := hat.around hturns (hframe₅.mono hturns.frame.length) hmarks₅ (hat.live hlive) ht h₆ hX' hi₆
      rw [Stat.paths, jump_exits, hlen]
      exact haimed.jump
    | always =>
      cases h₁
      cases h₆
      exact loop_again (fun _ h => turn_nil s.busy (fun _ h => jump_nil h) h) (hround hregular.2.1 hlive ht hX hi₆)
    | expr x =>
      obtain ⟨⟨es₀, p⟩, h₀, heq⟩ := Option.map_eq_some_iff.mp h₁
      cases heq
      have hat := codeExpr_codedAt hready.ne_nil h₀
      have haimed := hat.around hturns (hframe₅.mono hturns.frame.length) hmarks₅ (hat.live hlive) ht h₆ hX' hi₆
      obtain ⟨Y, hY, hi₅⟩ := hat.hide h₆ hi₆
      have hbody := hround hregular.2 (codeExpr_live rfl hready h₀ hlive) ht
        (fun q hq => (hY q hq).elim (fun h => (hX q h).trans_le hframe₁.length) And.right) hi₅
      refine loop_again (fun _ h => instr_seq_nil h) ?_
      rw [straight_again straight_instr, bind_choice, bind_done, ← hbody, hlen, hat.length_eq (hat.live hlive)]
      exact haimed.branch
  exact hcore.idle (.of_eq rfl merge_marks)

theorem dostat_follows (hcodes : Codes results s) (hs : FollowsStat results true rep s) (hcont : EndsToo s.paths .cont) :
    FollowsStat results loop rep (.dostat s x) := by
  intro es es' h hready hloops
  obtain ⟨es₁, h₁, h⟩ := Option.bind_eq_some_iff.mp h
  obtain ⟨es₂, h₂, h⟩ := Option.bind_eq_some_iff.mp h
  obtain ⟨es₃, h₃, h⟩ := Option.bind_eq_some_iff.mp h
  obtain ⟨⟨es₄, loopjump⟩, h₄, h⟩ := Option.bind_eq_some_iff.mp h
  obtain ⟨es₅, h₅, h⟩ := Option.bind_eq_some_iff.mp h
  obtain ⟨es₆, h₆, h⟩ := Option.bind_eq_some_iff.mp h
  rw [checkInits_eq h]
  obtain ⟨type, m, ms, hturns⟩ := FollowsStat.turns hs rfl rfl rfl hloops hready.marks_ne_nil h₁ h₂ h₃
  obtain ⟨_, -, hmeets⟩ := hcodes.loop_body rfl h₁ h₂ h₃
  have hat := codeExpr_codedAt hmeets.steps.ne_nil h₄
  have hmarks₅ : es₅.marks = es₃.marks := (setjump_marks h₅).trans hat.marks
  have hframe₅ : Frame none es₃.coded.length es₃ es₅ := hat.frame.trans (.setjump h₅ fun p hp => hat.le hp)
  have hend := hturns.loopEnd (hframe₅.mono hturns.frame.length) hmarks₅ le_rfl h₆
  have htidy₅ (ht : Tidy es) : Tidy es₅ := (hturns.tidy ht).of_marks hmarks₅ hframe₅.length
  have hcore : Follows (Stat.dostat s x).paths es es₆.pop := by
    refine ⟨hend.frame, fun ht => hend.tidy (htidy₅ ht), fun hlive ht F X T hX hi => ?_⟩
    have hi₅ := hend.into (c := es₃.coded.length) (htidy₅ ht) hi
    refine loop_again (fun _ h => turn_nil s.busy (fun _ h => instr_seq_nil h) h) ?_
    refine hturns.round hat h₅ hcont (hmeets.live hlive.push) hlive ht hX hi₅ nofun fun hmark haimed => ?_
    rw [test_again, hend.length, setjump_length h₅, hat.length_eq hmark]
    exact haimed.branch
  exact hcore.idle (.of_eq rfl merge_marks)

theorem forstat_follows (hcodes : Codes results s) (hs : FollowsStat results true true s) (hcont : EndsToo s.paths .cont) :
    FollowsStat results loop rep (.forstat x s l) := by
  intro es es' h hready hloops
  obtain ⟨⟨es₁, preloop⟩, h₁, h⟩ := Option.bind_eq_some_iff.mp h
  obtain ⟨es₂, h₂, h⟩ := Option.bind_eq_some_iff.mp h
  obtain ⟨es₃, h₃, h⟩ := Option.bind_eq_some_iff.mp h
  obtain ⟨es₄, h₄, h⟩ := Option.bind_eq_some_iff.mp h
  obtain ⟨es₅, h₅, h⟩ := Option.bind_eq_some_iff.mp h
  obtain ⟨es₆, h₆, h⟩ := Option.bind_eq_some_iff.mp h
  obtain ⟨es₇, h₇, h⟩ := Option.bind_eq_some_iff.mp h
  obtain ⟨es₈, h₈, rfl⟩ := Option.map_eq_some_iff.mp h
  have hat := codeExpr_codedAt push_ne_nil h₁
  obtain ⟨pos, hpushed, -⟩ := push_marks es .body false noFlags
  have hloops₁ : Loops loop rep es₁.marks := by
    rw [hat.marks, hpushed]
    exact hloops.under (show ContextType.body ≠ .function by decide)
  have hne₁ := hat.marks_ne_nil push_ready
  have hrepeat : FollowsStat results true (({ loopFlags with repeatable := true } : Flags).repeatable || rep) s := hs
  obtain ⟨type, m, ms, hturns⟩ := hrepeat.turns rfl rfl rfl hloops₁ hne₁ h₂ h₃ h₄
  obtain ⟨_, -, hmeets⟩ := hcodes.loop_body rfl h₂ h₃ h₄
  have hback := code_codedAt es₄ (.branch l 0)
  have hmarks₅ : es₅.marks = es₄.marks := (setjump_marks h₅).trans (code_marks _)
  have hframe₅ : Frame none es₄.coded.length es₄ es₅ := hback.frame.trans (.setjump h₅ fun p hp => hback.le hp)
  have hlen₄ := hat.frame.length.trans hturns.frame.length
  have hend := hturns.loopEnd ((hframe₅.mono hlen₄).trans (.setjump h₆ fun p hp => hat.le hp))
    ((setjump_marks h₆ :).trans hmarks₅) hat.frame.length h₇
  have hlen : es₇.pop.coded.length = es₅.coded.length := hend.length.trans (jumpHere_length h₆)
  have htidy₆ (ht : Tidy (es.push .body false noFlags)) : Tidy es₆ := (hturns.tidy (hat.tidy ht)).of_marks
    ((setjump_marks h₆ :).trans hmarks₅) (hframe₅.length.trans (jumpHere_length h₆).ge)
  have hcore : Follows (Stat.forstat x s l).paths (es.push .body false noFlags) es₇.pop := by
    refine ⟨hat.frame.trans hend.frame, fun ht => hend.tidy (htidy₆ ht), fun hlive ht F X T hX hi => ?_⟩
    have hi₆ := hend.into (c := es₄.coded.length) (htidy₆ ht) hi
    have hmark := hat.live hlive
    have haimed := hat.around hturns (hframe₅.mono hturns.frame.length) hmarks₅ hmark ht h₆
      (fun hmem => (hX _ hmem).false) hi₆
    obtain ⟨Y, hY, hi₅⟩ := hat.hide h₆ hi₆
    have hY' (q : Nat) (hq : q ∈ Y) : q < es₁.coded.length :=
      (hY q hq).elim (fun h => (hX q h).trans_le hat.frame.length) And.right
    have hlive₁ := codeExpr_live rfl push_ready h₁ hlive
    have hbody := loop_again (fun _ h => turn_nil s.busy (fun _ h => instr_seq_nil h) h)
      (hturns.round hback h₅ hcont (hmeets.live hlive₁.push) hlive₁ (hat.tidy ht) hY' hi₅ (fun _ => rfl)
        fun hmark haimed => by
          rw [test_again, hlen, setjump_length h₅, hback.length_eq hmark]
          exact haimed.branch)
    rw [Stat.paths, straight_instr.bind_seq_exits, bind_choice, bind_done, ← hat.marks]
    rw [← hbody, hlen, hat.length_eq hmark]
    exact haimed.branch
  have hmerged : Idle es₇.pop (es₇.pop.merge .maybe) := .of_eq rfl merge_marks
  exact ((hcore.idle hmerged).idle (leaveContext_idle h₈)).scoped (by decide) rfl rfl rfl hready.marks_ne_nil

end

end Events

end Eel
