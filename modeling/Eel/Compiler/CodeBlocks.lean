-- SUMMARY: The code of a function has exactly the paths of its statements, with blocks and handlers as functions of their own.
import Eel.Compiler.CodeSwitch

/-!
# Blocks in code

The blocks of a `try` are functions of their own. What becomes of these is started by the
instruction behind them, and again by a `retry`. With that, all statements are coded so that the
code has their paths, when these do not jump out of functions.
-/

namespace Eel

namespace Events

open Traces Behaviour Paths Coding

section

variable {L : Type} {results : Bool} {es es₁ es₂ es' : Coding L} {F : List (Instr L)} {X : List Nat} {T : Nat → Aim}
  {m : Marks} {ms : List Marks} {n pos : Nat} {P P' Q Q' R : Paths L} {l : L} {s s' : Stat L} {x : Expr L}
  {b : Block L} {loop rep : Bool} {k : Exit → Paths L} {y : Exit}

/-! ## Simple statements -/

theorem seq_assoc : seq (seq P Q) R = seq P (seq Q R) := by
  refine bind_seq.trans (bind_congr fun x _ => ?_)
  cases x <;> rfl

theorem Straight.seq (h : Straight P) (h' : Straight Q) : Straight (seq P Q) := by
  intro y hy
  obtain ⟨x, hx, hends⟩ := ends_bind.mp hy
  cases x with
  | next => exact h' y hends
  | _ =>
    obtain rfl := ends_done.mp hends
    exact h _ hx

theorem straight_done (hy : y ≠ .brk ∧ y ≠ .cont ∧ y ≠ .rep) : Straight (done y : Paths L) := by
  intro x hx
  rw [ends_done.mp hx]
  exact hy

/-- Control that does not come out at the end may go on anywhere. -/
theorem seq_of_not_ends (h : ¬ P.Ends .next) : seq P Q = seq P R := by
  refine bind_congr fun x hx => ?_
  cases x with
  | next => exact (h hx).elim
  | _ => rfl

theorem occurs_idle {i : Event} : Idle es (es.occurs i) := .of_eq rfl mapEvents_marks

theorem assignstat_follows : FollowsStat results loop rep (.assignstat x) := by
  intro es es' h hready _
  obtain ⟨⟨es₁, p⟩, h₁, rfl⟩ := Option.map_eq_some_iff.mp h
  exact (codeExpr_codedAt hready.ne_nil h₁).follows straight_instr exec_op

/-- An instruction that leaves the code. -/
theorem CodedAt.leaves {i : Instr L} {mark : Option Nat} (h : CodedAt i mark es es')
    (hi : ∀ {F : List (Instr L)} {n}, F[n]? = some i → exec F n = seq (instr l) (done y)) (hy : y = .thrown ∨ y = .ret) :
    Follows (seq (instr l) (done y)) es es' := by
  refine h.follows (straight_instr.seq (straight_done ?_)) fun hn => ?_
  · rcases hy with rfl | rfl <;> decide
  · rw [hi hn, seq_assoc]
    refine congrArg (Paths.seq (instr l)) (bind_done.trans ?_).symm
    rcases hy with rfl | rfl <;> rfl

theorem throwstat_follows : FollowsStat results loop rep (.throwstat x) := by
  intro es es' h hready _
  obtain ⟨⟨es₁, p⟩, h₁, rfl⟩ := Option.map_eq_some_iff.mp h
  have hcode := (codeExpr_codedAt hready.ne_nil h₁).leaves exec_throws (.inl rfl)
  exact (hcode.idle occurs_idle).idle occurs_idle

theorem returnstat_follows : FollowsStat results loop rep (.returnstat x) := by
  intro es es' h hready _
  obtain ⟨es₁, h₁, h⟩ := Option.bind_eq_some_iff.mp h
  obtain ⟨⟨es₂, p⟩, h₂, rfl⟩ := Option.map_eq_some_iff.mp h
  rw [checkInits_eq h₁] at h₂
  have hcode := (codeExpr_codedAt hready.ne_nil h₂).leaves exec_returns (.inr rfl)
  dsimp only
  cases results with
  | true => exact (hcode.idle occurs_idle).idle occurs_idle
  | false => exact hcode.idle occurs_idle

theorem retrystat_follows : FollowsStat results loop rep (.retrystat l) := by
  intro es es' h _ _
  cases h
  refine (code_codedAt es (.retry l)).follows (straight_jump (by decide)) fun hi => ?_
  rw [exec_retry hi]
  exact seq_of_not_ends fun hends => (ends_jump.mp hends).elim nofun nofun

/-! ## Functions in functions -/

theorem bind_blockExit : bind (blockExit y) (blockExit (L := L)) = blockExit y := by
  cases y with
  | brk | cont | rep => exact bind_never
  | _ => exact bind_done

theorem guarded_blockExit : guarded (bind P blockExit) (bind Q blockExit) = guarded P Q := by
  unfold guarded
  rw [bind_assoc]
  refine bind_congr fun x _ => ?_
  cases x with
  | brk | cont | rep => exact bind_never
  | thrown =>
    refine bind_done.trans ?_
    dsimp only
    rw [bind_assoc]
    exact bind_congr fun x _ => bind_blockExit
  | _ => exact bind_done

theorem untryExit_blockExit : bind (bind P blockExit) untryExit = bind P untryExit := by
  rw [bind_assoc]
  refine bind_congr fun x _ => ?_
  cases x with
  | brk | cont | rep => exact bind_never
  | _ => exact bind_done

/-- What is coded for a function, with the return at its end. -/
theorem Follows.function {xblock : Bool} (h : Follows P (es.push .function xblock noFlags) es₁) (hcoded : es.coded = [])
    (hlive₁ : P.Ends .next → Live es₁) :
    (∃ m, es₁.marks = m :: es.marks) ∧ exec (es₁.code .ret).coded 0 = bind P blockExit := by
  obtain ⟨pos, hmarks, -⟩ := push_marks es .function xblock noFlags
  have hkeeps := h.frame.marks
  rw [hmarks] at hkeeps
  obtain ⟨m, ms, hms⟩ := List.exists_cons_of_ne_nil (hkeeps.ne_nil (List.cons_ne_nil _ _))
  rw [hms] at hkeeps
  obtain ⟨hm, hrest⟩ := hkeeps
  rw [if_pos rfl] at hrest
  subst hrest
  have hwaiting (T : Nat → Aim) : waiting T es₁.marks = [] := by
    rw [hms, waiting, hm.noEnds rfl rfl, hm.noConts rfl, if_pos hm.type]
    rfl
  have htidy : Tidy (es.push .function xblock noFlags) := by
    have hnone : pending (es.push .function xblock noFlags).marks = [] := by
      rw [hmarks]
      rfl
    refine ⟨?_, fun q hq => ?_⟩
    · rw [hnone]
      exact List.nodup_nil
    · rw [hnone] at hq
      cases hq
  have hinto : Into (es₁.code .ret).coded [] (fun _ => ⟨0, 0⟩) es₁ := by
    refine ⟨fun q i hi _ _ => ?_, fun q w i _ _ hq => ?_⟩
    · rwa [code_getElem? _ (List.getElem?_eq_some_iff.mp hi).1]
    · rw [hwaiting] at hq
      cases hq
  refine ⟨⟨m, hms⟩, ?_⟩
  have hpaths := h.paths live_function htidy (fun _ hq => (List.not_mem_nil hq).elim) hinto
  rw [show (es.push .function xblock noFlags).coded.length = 0 from congrArg List.length hcoded] at hpaths
  refine hpaths.trans (bind_congr fun x hx => ?_)
  rw [hmarks]
  by_cases hnext : x = .next
  · subst hnext
    refine exec_ret ?_
    rw [(hlive₁ hx).code_coded]
    exact List.getElem?_concat_length
  · exact exits_function rfl rfl rfl rfl hnext

/-- A block that is coded as a function, with nothing in the code around it. -/
structure BlockCoded (P : Paths L) (tf : List (Instr L)) (es es' : Coding L) : Prop where
  idle : Idle es es'
  live : Live es → Live es'
  ne_nil : es'.view ≠ []
  exec : exec tf 0 = bind P blockExit

theorem xblock_follows {f : Coding L → Option (Coding L)} {tf : List (Instr L)} (hne : es.view ≠ [])
    (h : es.xblock f = some (es', tf))
    (hf : ∀ {fs fs'}, f fs = some fs' → Ready fs → Follows P fs fs' ∧ Meets results P fs fs') :
    BlockCoded P tf es es' := by
  obtain ⟨-, e, hadds⟩ := xblock_adds hne h fun _ hfs => (hf hfs push_ready).2
  obtain ⟨fs, hfs, heq⟩ := Option.map_eq_some_iff.mp h
  cases heq
  obtain ⟨hfollows, hmeets⟩ := hf hfs push_ready
  have hblock : Follows P (({ es with coded := [] } : Coding L).push .function true noFlags) fs := hfollows
  obtain ⟨⟨m, hmarks⟩, hexec⟩ := hblock.function rfl (hmeets.live live_function)
  exact ⟨.of_eq rfl (pop_marks (marks_ne_nil hne) hmarks), hadds.live, hadds.ne_nil, hexec⟩

theorem FollowsStat.xblock {tf : List (Instr L)} (hs : FollowsStat results false false s) (hcodes : Codes results s)
    (hne : es.view ≠ []) (h : es.xblock (inner results s) = some (es', tf)) : BlockCoded s.paths tf es es' :=
  xblock_follows hne h fun hfs hready => ⟨hs hfs hready ⟨nofun, nofun, nofun⟩, hcodes hfs hready⟩

/-! ## Handlers -/

/-- Where there is a `retry`, it starts again. -/
def retried (R : Paths L) (k : Exit → Paths L) : Exit → Paths L
  | .retry => R
  | x => k x

theorem ends_guarded (h : (guarded P Q).Ends y) : y ≠ .brk ∧ y ≠ .cont ∧ y ≠ .rep := by
  have hexit {x : Exit} (hx : (blockExit x : Paths L).Ends y) : y ≠ .brk ∧ y ≠ .cont ∧ y ≠ .rep := by
    cases x with
    | brk | cont | rep => exact (not_ends_never hx).elim
    | _ =>
      rw [ends_done.mp hx]
      decide
  obtain ⟨x, -, hx⟩ := ends_bind.mp h
  cases x with
  | thrown =>
    obtain ⟨z, -, hz⟩ := ends_bind.mp hx
    exact hexit hz
  | _ => exact hexit hx

/-- The blocks of a `try`, which are started by the instruction behind them. -/
theorem tries_follows {tf xf : List (Instr L)} (h : BlockCoded P tf es es₁) (h' : BlockCoded Q xf es₁ es₂) :
    Follows (tries P Q l) es ((es₂.code (.tries l tf xf)).merge .yes) := by
  have hat := code_codedAt es₂ (.tries l tf xf)
  have hcode : Follows (tries P Q l) es₂ (es₂.code (.tries l tf xf)) := by
    refine ⟨hat.frame, hat.tidy, fun hlive ht F X T hX hi => ?_⟩
    have hcoded := (hat.marked (hat.live hlive)).2
    have hexec := exec_tries (hi.last ht hX hcoded hat.marks)
    rw [h.exec, h'.exec, guarded_blockExit] at hexec
    refine eq_bind_rounds (j := retried (exec F es₂.coded.length)
      (exits F T es₂.marks (es₂.code (.tries l tf xf)).coded.length)) (fun t ht => ?_) rfl (fun x hx => ?_) (hexec.trans ?_)
    · rintro rfl
      cases instr_seq_nil ht
    · cases x with
      | retry => exact (hx rfl).elim
      | _ => rfl
    · rw [bind_seq]
      refine bind_congr fun x hx => ?_
      rcases ends_instr.mp hx with rfl | rfl | rfl
      · rfl
      · -- There are no jumps out of the blocks.
        refine bind_congr fun y hy => ?_
        obtain ⟨hbrk, hcont, hrep⟩ := ends_guarded hy
        cases y with
        | next =>
          show exec F (es₂.coded.length + 1) = exec F _
          rw [hcoded, List.length_append, List.length_singleton]
        | brk => exact (hbrk rfl).elim
        | cont => exact (hcont rfl).elim
        | rep => exact (hrep rfl).elim
        | _ => rfl
      · rfl
  exact ((h.idle.trans h'.idle).before (fun hlive => h'.live (h.live hlive)) hcode).idle (.of_eq rfl merge_marks)

theorem trystat_follows (hcodes : Codes results s) (hs : FollowsStat results false false s) :
    FollowsStat results loop rep (.trystat s l) := by
  intro es es' h hready _
  obtain ⟨⟨es₁, tf⟩, h₁, h⟩ := Option.bind_eq_some_iff.mp h
  obtain ⟨⟨es₂, xf⟩, h₂, rfl⟩ := Option.map_eq_some_iff.mp h
  have hblock := hs.xblock hcodes hready.ne_nil h₁
  -- The handler does nothing.
  have hnone {fs fs' : Coding L} (hfs : Option.some fs = Option.some fs') (hr : Ready fs) :
      Follows (done .next) fs fs' ∧ Meets results (done .next) fs fs' := by
    cases hfs
    exact ⟨Idle.follows (.of_eq rfl rfl), (Quiet.of_same hr.ne_nil .refl).meets fun _ => visits_done⟩
  exact tries_follows hblock (xblock_follows hblock.ne_nil h₂ hnone)

theorem tryexcept_follows (hcodes : Codes results s) (hs : FollowsStat results false false s) (hcodes' : Codes results s')
    (hs' : FollowsStat results false false s') : FollowsStat results loop rep (.tryexcept s s' l) := by
  intro es es' h hready _
  obtain ⟨⟨es₁, tf⟩, h₁, h⟩ := Option.bind_eq_some_iff.mp h
  obtain ⟨⟨es₂, xf⟩, h₂, rfl⟩ := Option.map_eq_some_iff.mp h
  have hblock := hs.xblock hcodes hready.ne_nil h₁
  exact tries_follows hblock (hs'.xblock hcodes' hblock.ne_nil h₂)

theorem straight_untryExit : Straight (bind P untryExit) := by
  intro y hy
  obtain ⟨x, -, hx⟩ := ends_bind.mp hy
  cases x with
  | brk | cont | rep | retry => exact (not_ends_never hx).elim
  | _ =>
    rw [ends_done.mp hx]
    decide

theorem untrystat_follows (hcodes : Codes results s) (hs : FollowsStat results false false s) :
    FollowsStat results loop rep (.untrystat s l) := by
  intro es es' h hready _
  obtain ⟨⟨es₁, tf⟩, h₁, rfl⟩ := Option.map_eq_some_iff.mp h
  have hblock := hs.xblock hcodes hready.ne_nil h₁
  have hcode : Follows (Stat.untrystat s l).paths es₁ (es₁.code (.untry l tf)) := by
    refine (code_codedAt es₁ (.untry l tf)).follows (straight_instr.seq straight_untryExit) fun hi => ?_
    rw [exec_untry hi, hblock.exec, untryExit_blockExit]
    exact seq_assoc.symm
  exact (hblock.idle.before hblock.live hcode).idle (.of_eq rfl merge_marks)

/-! ## All statements -/

def FollowsBlock (results loop rep : Bool) (b : Block L) : Prop :=
  ∀ {es es'}, block results b es = some es' → Ready es → Loops loop rep es.marks → Follows b.paths es es'

theorem block_cons_follows (hcodes : Codes results s) (hs : FollowsStat results loop rep s)
    (hb : FollowsBlock results loop rep b) : FollowsBlock results loop rep (.cons s b) := by
  intro es es' h hready hloops
  obtain ⟨es₁, h₁, h⟩ := Option.bind_eq_some_iff.mp h
  obtain ⟨es₂, h₂, h⟩ := Option.bind_eq_some_iff.mp h
  have hmeets := hcodes.inBlock h₁ h₂ hready
  have hstat : Follows s.paths es es₂ := by
    unfold Coding.leave at h₂
    cases hbody : s.isBody with
    | false =>
      rw [hbody] at h₁ h₂
      cases h₂
      exact hs h₁ hready hloops
    | true =>
      rw [hbody] at h₁ h₂
      rw [if_pos ⟨.inl rfl, by decide⟩] at h₂
      obtain ⟨es₃, h₃, rfl⟩ := Option.map_eq_some_iff.mp h₂
      obtain ⟨pos, hmarks, -⟩ := push_marks es .body false noFlags
      have hinner : Follows s.paths (es.push .body false noFlags) es₁ := by
        refine hs h₁ push_ready ?_
        rw [hmarks]
        exact hloops.under (show ContextType.body ≠ .function by decide)
      exact (hinner.idle (leaveContext_idle h₃)).scoped (by decide) rfl rfl rfl hready.marks_ne_nil
  exact hstat.trans hmeets.live (hb h (hmeets.steps.ready hready) (hloops.keeps hstat.frame.marks))

/-! ## Jumps that stay within functions -/

/-- A `break` or `continue` only if there is a loop around it, and a `repeat` only if there is one that has it. -/
def Exit.Stays (loop rep : Bool) : Exit → Prop
  | .brk | .cont => loop = true
  | .rep => rep = true
  | _ => True

mutual

/-- All `break`, `continue` and `repeat` are in loops of the same function. -/
def Stat.Closed : Bool → Bool → Stat L → Prop
  | loop, _, .breakstat _ | loop, _, .contstat _ => loop = true
  | _, rep, .repeatstat _ => rep = true
  | loop, rep, .ifstat _ s => s.Closed loop rep
  | loop, rep, .ifelse _ s _ s' => s.Closed loop rep ∧ s'.Closed loop rep
  | loop, rep, .switchstat _ cs => cs.Closed loop rep
  | loop, rep, .switchdefault _ cs s => cs.Closed loop rep ∧ s.Closed loop rep
  | _, rep, .whilestat _ s _ | _, rep, .dostat s _ => s.Closed true rep
  | _, _, .forstat _ s _ => s.Closed true true
  | _, _, .trystat s _ | _, _, .untrystat s _ => s.Closed false false
  | _, _, .tryexcept s s' _ => s.Closed false false ∧ s'.Closed false false
  | loop, rep, .body b => b.Closed loop rep
  | _, _, _ => True

def Block.Closed : Bool → Bool → Block L → Prop
  | _, _, .nil => True
  | loop, rep, .cons s b => s.Closed loop rep ∧ b.Closed loop rep

def Cases.Closed : Bool → Bool → Cases L → Prop
  | _, _, .nil => True
  | loop, rep, .cons s _ cs => s.Closed loop rep ∧ cs.Closed loop rep

end

def Stays (loop rep : Bool) (P : Paths L) : Prop := ∀ x, P.Ends x → x.Stays loop rep

/-- The end of a round, if it is not that of the loop. -/
def Turning (loop rep : Bool) (P : Paths L) : Prop := ∀ x, P.Ends x → x = .cont ∨ x.Stays loop rep

theorem Straight.stays (h : Straight P) : Stays loop rep P := by
  intro x hx
  obtain ⟨hbrk, hcont, hrep⟩ := h x hx
  cases x with
  | brk => exact (hbrk rfl).elim
  | cont => exact (hcont rfl).elim
  | rep => exact (hrep rfl).elim
  | _ => trivial

theorem stays_jump (hy : y.Stays loop rep) : Stays loop rep (jump l y) := by
  intro x hx
  rcases ends_jump.mp hx with rfl | rfl
  · trivial
  · exact hy

theorem stays_done (hy : y.Stays loop rep) : Stays loop rep (done y : Paths L) := by
  intro x hx
  rw [ends_done.mp hx]
  exact hy

theorem stays_next : Stays loop rep (done .next : Paths L) := stays_done (y := .next) trivial

theorem stays_out : Stays loop rep (jump l .next) := stays_jump (y := .next) trivial

theorem Stays.choice (h : Stays loop rep P) (h' : Stays loop rep Q) : Stays loop rep (choice P Q) := fun x hx =>
  (ends_choice.mp hx).elim (h x) (h' x)

theorem ends_of_seq (h : (seq P Q).Ends y) : P.Ends y ∨ Q.Ends y := by
  obtain ⟨x, hx, hends⟩ := ends_bind.mp h
  cases x with
  | next => exact .inr hends
  | _ =>
    obtain rfl := ends_done.mp hends
    exact .inl hx

theorem Stays.seq (h : Stays loop rep P) (h' : Stays loop rep Q) : Stays loop rep (seq P Q) := fun x hx =>
  (ends_of_seq hx).elim (h x) (h' x)

theorem turning_jump : Turning loop rep (jump l .cont) := fun _ hx =>
  (ends_jump.mp hx).elim (fun h => .inr (h ▸ trivial)) .inl

theorem turning_test : Turning loop rep (seq (instr l) (choice (done .next) (done .cont))) := by
  intro x hx
  rcases ends_of_seq hx with hx | hx
  · exact .inr (straight_instr.stays x hx)
  · exact (ends_choice.mp hx).elim (fun h => .inr (ends_done.mp h ▸ trivial)) fun h => .inl (ends_done.mp h)

theorem Stays.turn {r : Bool} (h : Stays true (r || rep) P) (h' : Turning loop rep Q) :
    Turning loop rep (turn P Q r) := by
  intro y hy
  obtain ⟨x, hx, hends⟩ := ends_bind.mp hy
  cases x with
  | next | cont => exact h' y hends
  | brk => exact .inr (ends_done.mp hends ▸ trivial)
  | rep =>
    have hrep : (r || rep) = true := h _ hx
    cases r with
    | true => exact .inl (ends_done.mp hends)
    | false => exact .inr (ends_done.mp hends ▸ hrep)
  | _ => exact .inr (ends_done.mp hends ▸ trivial)

theorem Turning.rounds (h : Turning loop rep P) : Stays loop rep (Paths.loop P) := by
  intro x hx
  obtain ⟨hends, hne⟩ := ends_of_rounds hx
  exact (h x hends).resolve_left hne

theorem turning_while (h : Turning loop rep P) : Turning loop rep (seq (instr l) (choice (done .next) P)) := by
  intro x hx
  rcases ends_of_seq hx with hx | hx
  · exact .inr (straight_instr.stays x hx)
  · exact (ends_choice.mp hx).elim (fun h => .inr (ends_done.mp h ▸ trivial)) (h x)

theorem straight_tries : Straight (tries P Q l) := by
  intro x hx
  rcases ends_of_seq (ends_of_rounds hx).1 with hx | hx
  · exact straight_instr x hx
  · exact ends_guarded hx

mutual

theorem Stat.stays : (s : Stat L) → ∀ {loop rep}, s.Closed loop rep → Stays loop rep s.paths
  | .void, _, _, _ => stays_next
  | .assignstat _, _, _, _ => straight_instr.stays
  | .throwstat _, _, _, _ => straight_instr.stays.seq (stays_done (y := .thrown) trivial)
  | .returnstat _, _, _, _ => straight_instr.stays.seq (stays_done (y := .ret) trivial)
  | .retrystat _, _, _, _ => stays_jump (y := .retry) trivial
  | .breakstat _, _, _, h => stays_jump (y := .brk) h
  | .contstat _, _, _, h => stays_jump (y := .cont) h
  | .repeatstat _, _, _, h => stays_jump (y := .rep) h
  | .ifstat _ s, _, _, h => straight_instr.stays.seq (stays_next.choice (s.stays h))
  | .ifelse _ s _ s', _, _, h => straight_instr.stays.seq (((s.stays h.1).seq stays_out).choice (s'.stays h.2))
  | .switchstat _ cs, _, _, h => straight_instr.stays.seq (stays_next.choice (cs.stays h))
  | .switchdefault _ cs s, _, _, h => straight_instr.stays.seq ((cs.stays h.1).choice (s.stays h.2))
  | .whilestat (.never _) _ _, _, _, _ => stays_out
  | .whilestat .always s _, _, _, h => (Stays.turn (r := false) (s.stays h) turning_jump).rounds
  | .whilestat (.expr _) s _, _, _, h => (turning_while (Stays.turn (r := false) (s.stays h) turning_jump)).rounds
  | .dostat s _, _, _, h => (Stays.turn (r := false) (s.stays h) turning_test).rounds
  | .forstat _ s _, loop, rep, h => by
    have hbody : Stays true (true || rep) s.paths := s.stays h
    exact straight_instr.stays.seq (stays_next.choice (hbody.turn turning_test).rounds)
  | .trystat _ _, _, _, _ | .tryexcept _ _ _, _, _, _ => straight_tries.stays
  | .untrystat _ _, _, _, _ => (straight_instr.seq straight_untryExit).stays
  | .body b, _, _, h => b.stays h

theorem Block.stays : (b : Block L) → ∀ {loop rep}, b.Closed loop rep → Stays loop rep b.paths
  | .nil, _, _, _ => stays_next
  | .cons s b, _, _, h => (s.stays h.1).seq (b.stays h.2)

theorem Cases.stays : (cs : Cases L) → ∀ {loop rep}, cs.Closed loop rep → Stays loop rep cs.paths
  | .nil, _, _, _ => fun _ h => (not_ends_never h).elim
  | .cons s _ cs, _, _, h => ((s.stays h.1).seq stays_out).choice (cs.stays h.2)

end

mutual

theorem inner_follows : (s : Stat L) → ∀ {loop rep}, s.Regular → s.Closed loop rep → FollowsStat results loop rep s
  | .void, _, _, _, _ => fun h _ _ => by
    cases h
    exact Idle.follows (.of_eq rfl rfl)
  | .assignstat x, _, _, _, _ => assignstat_follows
  | .throwstat x, _, _, _, _ => throwstat_follows
  | .retrystat l, _, _, _, _ => retrystat_follows
  | .ifstat x s, _, _, hr, hc => ifstat_follows (inner_follows s hr hc)
  | .ifelse x s out s', _, _, hr, hc =>
    ifelse_follows (inner_codes s hr.1) (inner_follows s hr.1 hc.1) (inner_follows s' hr.2 hc.2)
  | .switchstat x cs, _, _, hr, hc => switchstat_follows (caselist_codes cs hr) (caselist_follows cs hr hc)
  | .switchdefault x cs s, _, _, hr, hc =>
    switchdefault_follows (caselist_codes cs hr.1) (caselist_follows cs hr.1 hc.1) (inner_follows s hr.2 hc.2)
  | .whilestat (.never out) s l, _, _, hr, hc => whilestat_follows (inner_codes s hr) (inner_follows s hr hc) hr
  | .whilestat .always s l, _, _, hr, hc => whilestat_follows (inner_codes s hr.1) (inner_follows s hr.1 hc) hr
  | .whilestat (.expr x) s l, _, _, hr, hc => whilestat_follows (inner_codes s hr.1) (inner_follows s hr.1 hc) hr
  | .dostat s x, _, _, hr, hc => dostat_follows (inner_codes s hr.1) (inner_follows s hr.1 hc) hr.2
  | .forstat x s l, _, _, hr, hc => forstat_follows (inner_codes s hr.1) (inner_follows s hr.1 hc) hr.2
  | .breakstat l, _, _, _, hc => by
    cases hc
    exact breakstat_follows
  | .contstat l, _, _, _, hc => by
    cases hc
    exact contstat_follows
  | .repeatstat l, _, _, _, hc => by
    cases hc
    exact repeatstat_follows
  | .returnstat x, _, _, _, _ => returnstat_follows
  | .trystat s l, _, _, hr, hc => trystat_follows (inner_codes s hr) (inner_follows s hr hc)
  | .tryexcept s s' l, _, _, hr, hc =>
    tryexcept_follows (inner_codes s hr.1) (inner_follows s hr.1 hc.1) (inner_codes s' hr.2) (inner_follows s' hr.2 hc.2)
  | .untrystat s l, _, _, hr, hc => untrystat_follows (inner_codes s hr) (inner_follows s hr hc)
  | .body b, _, _, hr, hc => fun h hready hloops => block_follows b hr hc h hready hloops

theorem block_follows : (b : Block L) → ∀ {loop rep}, b.Regular → b.Closed loop rep → FollowsBlock results loop rep b
  | .nil, _, _, _, _ => fun h _ _ => by
    cases h
    exact Idle.follows (.of_eq rfl rfl)
  | .cons s b, _, _, hr, hc =>
    block_cons_follows (inner_codes s hr.1) (inner_follows s hr.1 hc.1) (block_follows b hr.2 hc.2)

theorem caselist_follows : (cs : Cases L) → ∀ {loop rep}, cs.Regular → cs.Closed loop rep →
    FollowsCases results loop rep cs
  | .nil, _, _, _, _ => caselist_nil_follows
  | .cons s _ cs, _, _, hr, hc =>
    caselist_cons_follows (inner_codes s hr.1) (inner_follows s hr.1 hc.1) (caselist_follows cs hr.2 hc.2)

end

/-! ## Functions -/

end

end Events

end Eel
