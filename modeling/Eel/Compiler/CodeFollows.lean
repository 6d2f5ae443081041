-- SUMMARY: Code that follows paths: how control goes on behind it for each way out, and how parts that do so are put together.
import Eel.Compiler.JumpMarks
import Eel.Compiler.ReachedCode

/-!
# Code that follows paths

The code between two states of the coder follows the paths of a statement, if whatever becomes
of that code does what is on these paths, and goes on behind them where it should: behind the
code, or at the targets of jumps.
-/

namespace Eel

namespace Events

open Traces Behaviour Paths Coding

section

variable {L : Type} {results : Bool} {es es₁ es₂ es' : Coding L} {F : List (Instr L)} {X : List Nat} {T : Nat → Aim}
  {a : Aim} {m : Marks} {ms ms' : List Marks} {n p q w pos pos' : Nat} {b : Bool} {P Q : Paths L} {l : L} {sw : Option Nat}

/-! ## Exits -/

def goesTo (F : List (Instr L)) : Option Nat → Paths L
  | some p => exec F p
  | none => never

/-- Where control goes on behind code that ends at `pos`. -/
def exits (F : List (Instr L)) (T : Nat → Aim) (ms : List Marks) (pos : Nat) : Exit → Paths L
  | .next => exec F pos
  | .brk => goesTo F (target Flags.breakable (fun _ a => a.brk) T ms)
  | .cont => goesTo F (target Flags.continuable (fun _ a => a.cont) T ms)
  | .rep => goesTo F (target Flags.repeatable (fun m _ => m.startpos) T ms)
  | x => done x

theorem exits_congr (h : exec F pos = exec F pos') : exits F T ms pos = exits F T ms pos' := by
  funext x
  cases x with
  | next => exact h
  | _ => rfl

theorem KeepsAll.exits_eq (h : KeepsAll n b ms ms') : exits F T ms' pos = exits F T ms pos := by
  funext x
  cases x with
  | brk | cont => exact congrArg (goesTo F) (h.target_eq fun _ _ _ _ => rfl)
  | rep => exact congrArg (goesTo F) (h.target_eq fun _ _ _ hstart => hstart)
  | _ => rfl

/-- A context that is no loop does not matter. -/
theorem exits_under (hms : ms ≠ []) (htype : m.type ≠ .function) (hbrk : m.flags.breakable = false)
    (hcont : m.flags.continuable = false) (hrep : m.flags.repeatable = false) :
    exits F (under a T) (m :: ms) pos = exits F T ms pos := by
  have htarget {flag : Flags → Bool} {dest : Marks → Aim → Nat} (hflag : flag m.flags = false) :
      target flag dest (under a T) (m :: ms) = target flag dest T ms := by
    rw [target_cons hms, hflag, if_neg Bool.false_ne_true, if_neg htype]
    rfl
  funext x
  cases x with
  | brk => exact congrArg (goesTo F) (htarget hbrk)
  | cont => exact congrArg (goesTo F) (htarget hcont)
  | rep => exact congrArg (goesTo F) (htarget hrep)
  | _ => rfl

/-- In a function of its own, nothing is known of loops around it. -/
theorem exits_function (htype : m.type = .function) (hbrk : m.flags.breakable = false)
    (hcont : m.flags.continuable = false) (hrep : m.flags.repeatable = false) {x : Exit} (hx : x ≠ .next) :
    exits F T (m :: ms) pos x = blockExit x := by
  have htarget {flag : Flags → Bool} {dest : Marks → Aim → Nat} (hflag : flag m.flags = false) :
      goesTo F (target flag dest T (m :: ms)) = never := by
    by_cases hms : ms = []
    · subst hms
      rfl
    · rw [target_cons hms, hflag, if_neg Bool.false_ne_true, if_pos htype]
      rfl
  cases x with
  | next => exact (hx rfl).elim
  | brk => exact htarget hbrk
  | cont => exact htarget hcont
  | rep => exact htarget hrep
  | _ => rfl

theorem bind_seq {k : Exit → Paths L} : bind (seq P Q) k = bind P fun
    | .next => bind Q k
    | x => k x := by
  unfold seq
  rw [bind_assoc]
  congr 1
  funext x
  cases x with
  | next => rfl
  | _ => exact bind_done

/-- Nothing in it is a jump to another place of the same code. -/
def Straight (P : Paths L) : Prop := ∀ x, P.Ends x → x ≠ .brk ∧ x ≠ .cont ∧ x ≠ .rep

theorem Straight.bind_exits (h : Straight P) : bind P (exits F T ms pos) = seq P (exec F pos) := by
  unfold seq
  refine bind_congr fun x hx => ?_
  obtain ⟨hbrk, hcont, hrep⟩ := h x hx
  cases x with
  | brk => exact (hbrk rfl).elim
  | cont => exact (hcont rfl).elim
  | rep => exact (hrep rfl).elim
  | _ => rfl

theorem Straight.bind_seq_exits (h : Straight P) :
    bind (seq P Q) (exits F T ms pos) = seq P (bind Q (exits F T ms pos)) := by
  rw [bind_seq]
  refine bind_congr fun x hx => ?_
  obtain ⟨hbrk, hcont, hrep⟩ := h x hx
  cases x with
  | brk => exact (hbrk rfl).elim
  | cont => exact (hcont rfl).elim
  | rep => exact (hrep rfl).elim
  | _ => rfl

theorem straight_instr : Straight (instr l) := by
  intro x hx
  rcases ends_instr.mp hx with rfl | rfl | rfl <;> decide

theorem straight_jump {x : Exit} (hx : x ≠ .brk ∧ x ≠ .cont ∧ x ≠ .rep) : Straight (jump l x) := by
  intro y hy
  rcases ends_jump.mp hy with rfl | rfl
  · decide
  · exact hx

theorem jump_exits {x : Exit} : bind (jump l x) (exits F T ms pos) = seq (jump l .next) (exits F T ms pos x) := by
  unfold jump seq
  rw [bind_choice, bind_choice, bind_visit, bind_visit (x := Exit.next), bind_done, bind_done]
  rfl

/-! ## Parts of code -/

/-- What is coded between the states does nothing. -/
structure Idle (es es' : Coding L) : Prop where
  frame : Frame none es.coded.length es es'
  tidy : Tidy es → Tidy es'
  skip : Tidy es → ∀ {F X T}, (∀ q ∈ X, q < es.coded.length) → Into F X T es' → exec F es.coded.length = exec F es'.coded.length

/-- What becomes of the code between the states is the paths `P`, and goes on where these say. -/
structure Follows (P : Paths L) (es es' : Coding L) : Prop where
  frame : Frame none es.coded.length es es'
  tidy : Tidy es → Tidy es'
  paths : Live es → Tidy es → ∀ {F X T}, (∀ q ∈ X, q < es.coded.length) → Into F X T es' →
    exec F es.coded.length = bind P (exits F T es.marks es'.coded.length)

theorem Frame.back (h : Frame none es.coded.length es es') (hi : Into F X T es') : Into F X T es := hi.back h nofun

theorem Idle.of_eq (hcoded : es'.coded = es.coded) (hmarks : es'.marks = es.marks) : Idle es es' where
  frame := .of_eq hcoded hmarks
  tidy ht := ht.of_marks hmarks (by rw [hcoded])
  skip _ _ _ _ _ _ := by rw [hcoded]

theorem Idle.trans (h : Idle es es₁) (h' : Idle es₁ es') : Idle es es' where
  frame := h.frame.trans (h'.frame.mono h.frame.length)
  tidy ht := h'.tidy (h.tidy ht)
  skip ht _ _ _ hX hi := (h.skip ht hX (h'.frame.back hi)).trans
    (h'.skip (h.tidy ht) (fun q hq => (hX q hq).trans_le h.frame.length) hi)

theorem Idle.follows (h : Idle es es') : Follows (done .next) es es' where
  frame := h.frame
  tidy := h.tidy
  paths _ ht _ _ _ hX hi := by
    rw [bind_done]
    exact h.skip ht hX hi

theorem Follows.idle (h : Follows P es es₁) (h' : Idle es₁ es') : Follows P es es' where
  frame := h.frame.trans (h'.frame.mono h.frame.length)
  tidy ht := h'.tidy (h.tidy ht)
  paths hlive ht _ _ _ hX hi := by
    rw [h.paths hlive ht hX (h'.frame.back hi)]
    exact congrArg _ (exits_congr (h'.skip (h.tidy ht) (fun q hq => (hX q hq).trans_le h.frame.length) hi))

/-- The second part is only come to at the end of the first one. -/
theorem Follows.trans (h : Follows P es es₁) (hlive : Live es → P.Ends .next → Live es₁) (h' : Follows Q es₁ es') :
    Follows (seq P Q) es es' where
  frame := h.frame.trans (h'.frame.mono h.frame.length)
  tidy ht := h'.tidy (h.tidy ht)
  paths hl ht F X T hX hi := by
    rw [h.paths hl ht hX (h'.frame.back hi), bind_seq]
    refine bind_congr fun x hx => ?_
    cases x with
    | next =>
      have hX' (q : Nat) (hq : q ∈ X) := (hX q hq).trans_le h.frame.length
      exact (h'.paths (hlive hl hx) (h.tidy ht) hX' hi).trans (congrArg _ h.frame.marks.exits_eq)
    | _ => rfl

theorem Idle.before (h : Idle es es₁) (hlive : Live es → Live es₁) (h' : Follows P es₁ es') : Follows P es es' := by
  have hseq := h.follows.trans (fun hl _ => hlive hl) h'
  rwa [show seq (done .next) P = P from bind_done] at hseq

theorem Live.code_coded (h : Live es) (i : Instr L) : (es.code i).coded = es.coded ++ [i] := by
  unfold Coding.code
  rw [if_neg h.testExit]

/-- An instruction that is not marked stays as it is coded. -/
theorem Into.last {i : Instr L} (h : Into F X T es') (ht : Tidy es) (hX : ∀ q ∈ X, q < es.coded.length)
    (hcoded : es'.coded = es.coded ++ [i]) (hmarks : es'.marks = es.marks) : F[es.coded.length]? = some i := by
  refine h.coded _ i ?_ (fun hmem => (hX _ hmem).false) fun hmem => ?_
  · rw [hcoded]
    exact List.getElem?_concat_length
  · rw [hmarks] at hmem
    exact (ht.lt _ hmem).false

theorem clean_idle {k : Nat} : Idle es (es.code (.clean k)) where
  frame := .code le_rfl
  tidy ht := ht.of_marks (code_marks _) (code_length _)
  skip ht _ _ _ hX hinto := by
    by_cases hdead : testExit es.contexts = .yes
    · unfold Coding.code
      rw [if_pos hdead]
    · have hcoded : (es.code (.clean k)).coded = es.coded ++ [.clean k] := by
        unfold Coding.code
        rw [if_neg hdead]
      rw [exec_clean (hinto.last ht hX hcoded (code_marks _)), hcoded, List.length_append, List.length_singleton]

theorem leaveContext_eq {d : Nat} (h : es.leaveContext d = some es') : es' = es ∨ ∃ k, es' = es.code (.clean k) := by
  unfold Coding.leaveContext at h
  split at h
  · cases h
  · split at h
    · cases h
      exact .inl rfl
    · obtain ⟨n, -, h⟩ := Option.bind_eq_some_iff.mp h
      obtain ⟨k, -, rfl⟩ := Option.map_eq_some_iff.mp h
      split
      · exact .inr ⟨k, rfl⟩
      · exact .inl rfl

theorem leaveContext_idle {d : Nat} (h : es.leaveContext d = some es') : Idle es es' := by
  rcases leaveContext_eq h with rfl | ⟨k, rfl⟩
  · exact .of_eq rfl rfl
  · exact clean_idle

/-! ## Instructions that are aimed later -/

/-- The instruction is coded at this position, or it is left out. -/
structure CodedAt (i : Instr L) (mark : Option Nat) (es es' : Coding L) : Prop where
  marks : es'.marks = es.marks
  coded : mark = some es.coded.length ∧ es'.coded = es.coded ++ [i] ∨ mark = none ∧ es'.coded = es.coded
  live : Live es → mark ≠ none

theorem code_codedAt (es : Coding L) (i : Instr L) : CodedAt i es.mark es (es.code i) where
  marks := code_marks i
  coded := by
    unfold Coding.mark Coding.code
    split
    · exact .inr ⟨rfl, rfl⟩
    · exact .inl ⟨rfl, rfl⟩
  live hlive := by
    unfold Coding.mark
    rw [if_neg hlive.testExit]
    exact nofun

theorem accesses_eq {as : List Access} (h : Coding.accesses as es = some es') :
    es'.coded = es.coded ∧ es'.marks = es.marks := by
  induction as generalizing es with
  | nil =>
    cases h
    exact ⟨rfl, rfl⟩
  | cons x as ih =>
    obtain ⟨es₁, h₁, h⟩ := Option.bind_eq_some_iff.mp h
    obtain ⟨hcoded, hmarks⟩ := ih h
    have haccess : es₁.coded = es.coded ∧ es₁.marks = es.marks := by
      unfold Coding.access at h₁
      cases x with
      | read r =>
        obtain ⟨-, h₁⟩ := Option.ite_none_right_eq_some.mp h₁
        cases h₁
        exact ⟨rfl, rfl⟩
      | write r =>
        dsimp only at h₁
        split at h₁
        · cases h₁
          exact ⟨rfl, mapEvents_marks⟩
        · cases h₁
          exact ⟨rfl, rfl⟩
        · cases h₁
    exact ⟨hcoded.trans haccess.1, hmarks.trans haccess.2⟩

theorem codeExpr_codedAt {i : L → Instr L} {x : Expr L} {mark : Option Nat} (hne : es.view ≠ [])
    (h : es.codeExpr i x = some (es', mark)) : CodedAt (i x.label) mark es es' := by
  obtain ⟨es₁, h₁, heq⟩ := Option.map_eq_some_iff.mp h
  cases heq
  obtain ⟨hcoded, hmarks⟩ := accesses_eq h₁
  have hat := code_codedAt es₁ (i x.label)
  refine ⟨hat.marks.trans hmarks, ?_, fun hlive => hat.live ((accesses_quiet hne h₁).live hlive)⟩
  rw [← hcoded]
  exact hat.coded

section

variable {i : Instr L} {mark : Option Nat}

theorem CodedAt.marked (h : CodedAt i mark es es') (hmark : mark ≠ none) :
    mark = some es.coded.length ∧ es'.coded = es.coded ++ [i] :=
  h.coded.resolve_right fun h => hmark h.1

theorem CodedAt.le (h : CodedAt i mark es es') (hp : mark = some p) : es.coded.length ≤ p := by
  have hmark := (h.marked (hp ▸ nofun)).1
  rw [hp] at hmark
  exact (Option.some.inj hmark).ge

theorem CodedAt.frame (h : CodedAt i mark es es') : Frame none es.coded.length es es' where
  length := by
    rcases h.coded with ⟨-, h⟩ | ⟨-, h⟩ <;> rw [h]
    rw [List.length_append]
    exact Nat.le_add_right ..
  coded q hq _ := by
    rcases h.coded with ⟨-, h⟩ | ⟨-, h⟩ <;> rw [h]
    exact List.getElem?_append_left hq
  marks := by
    rw [h.marks]
    exact .refl

theorem CodedAt.tidy (h : CodedAt i mark es es') (ht : Tidy es) : Tidy es' := ht.of_marks h.marks h.frame.length

theorem CodedAt.follows (h : CodedAt i mark es es') (hP : Straight P)
    (hi : ∀ {F : List (Instr L)} {n}, F[n]? = some i → exec F n = seq P (exec F (n + 1))) : Follows P es es' where
  frame := h.frame
  tidy := h.tidy
  paths hlive ht _ _ _ hX hinto := by
    have hcoded := (h.marked (h.live hlive)).2
    rw [hP.bind_exits, hi (hinto.last ht hX hcoded h.marks), hcoded, List.length_append, List.length_singleton]

theorem CodedAt.length_eq (h : CodedAt i mark es es') (hmark : mark ≠ none) :
    es'.coded.length = es.coded.length + 1 := by
  rw [(h.marked hmark).2, List.length_append, List.length_singleton]

/-- Its position is not marked, whatever is coded behind it. -/
theorem CodedAt.not_pending (h : CodedAt i mark es es₁) (hmark : mark ≠ none) (ht : Tidy es)
    (hkeeps : KeepsAll es₁.coded.length b es₁.marks ms) : es.coded.length ∉ pending ms := by
  intro hmem
  rw [hkeeps.pending_iff (by rw [h.length_eq hmark]; exact Nat.lt_succ_self _), h.marks] at hmem
  exact (ht.lt _ hmem).false

/-- Where it goes is what is set at last. -/
theorem CodedAt.aimed (h : CodedAt i mark es es₁) (hmark : mark ≠ none)
    (hkept : es₂.coded[es.coded.length]? = es₁.coded[es.coded.length]?) (hpending : es.coded.length ∉ pending es₂.marks)
    (hset : es₂.setjump mark w = some es') (hX : es.coded.length ∉ X) (hi : Into F X T es') :
    Aimed F es.coded.length w i := by
  obtain ⟨rfl, hcoded⟩ := h.marked hmark
  obtain ⟨i', hi', haimed⟩ := hi.aimed_setjump hset hX hpending
  rw [hkept, hcoded, List.getElem?_concat_length] at hi'
  cases hi'
  exact haimed

theorem CodedAt.aimed_frame (h : CodedAt i mark es es₁) (hmark : mark ≠ none) (ht : Tidy es)
    (hframe : Frame none es₁.coded.length es₁ es₂) (hset : es₂.setjump mark w = some es')
    (hX : es.coded.length ∉ X) (hi : Into F X T es') : Aimed F es.coded.length w i := by
  have hlt : es.coded.length < es₁.coded.length := by
    rw [h.length_eq hmark]
    exact Nat.lt_succ_self _
  exact h.aimed hmark (hframe.coded _ hlt nofun) (h.not_pending hmark ht hframe.marks) hset hX hi

/-- In front of that, it is one of the positions that are not known, if it is coded. -/
theorem CodedAt.hide (h : CodedAt i mark es es₁) (hset : es₂.setjump mark w = some es') (hi : Into F X T es') :
    ∃ Y, (∀ q ∈ Y, q ∈ X ∨ q = es.coded.length ∧ q < es₁.coded.length) ∧ Into F Y T es₂ := by
  cases hmark : mark with
  | none =>
    rw [hmark] at hset
    cases hset
    exact ⟨X, fun q hq => .inl hq, hi⟩
  | some p =>
    have hne : mark ≠ none := hmark ▸ nofun
    obtain ⟨rfl, -⟩ := h.marked hne
    refine ⟨es.coded.length :: X, fun q hq => ?_, hi.setjump hset⟩
    rcases List.mem_cons.mp hq with rfl | hq
    · exact .inr ⟨rfl, by rw [h.length_eq hne]; exact Nat.lt_succ_self _⟩
    · exact .inl hq

end

theorem Aimed.jump (h : Aimed F p w (.jump l 0)) : exec F p = seq (jump l .next) (exec F w) := by
  obtain ⟨i, hdisp, hi⟩ := h
  cases hdisp
  exact exec_jump hi

theorem Aimed.branch (h : Aimed F p w (.branch l 0)) :
    exec F p = seq (instr l) (choice (exec F w) (exec F (p + 1))) := by
  obtain ⟨i, hdisp, hi⟩ := h
  cases hdisp
  exact exec_branch hi

theorem Aimed.switch {table : List Nat} (h : Aimed F p w (.switch l table 0)) :
    exec F p = seq (instr l) (choice (exec F w) (oneOf (table.map (exec F)))) := by
  obtain ⟨i, hdisp, hi⟩ := h
  cases hdisp
  exact exec_switch hi

/-! ## Contexts within contexts -/

theorem KeepsAll.cons_inv (h : KeepsAll n b (m :: ms) ms') (hf : m.type ≠ .function) :
    ∃ m' ms₁, ms' = m' :: ms₁ ∧ m.Keeps n b m' ∧ KeepsAll n false ms ms₁ := by
  match ms', h with
  | m' :: ms₁, ⟨hm, h⟩ =>
    rw [if_neg hf] at h
    exact ⟨m', ms₁, rfl, hm, h⟩

theorem KeepsAll.ne_nil (h : KeepsAll n b ms ms') (hms : ms ≠ []) : ms' ≠ [] := by
  rintro rfl
  match ms, h with
  | [], _ => exact hms rfl

theorem pending_open (htype : m.type ≠ .function) (hends : m.ends = []) (hconts : m.conts = []) :
    pending (m :: ms) = pending ms := by
  rw [pending, hends, hconts, if_neg htype]
  rfl

theorem waiting_open (htype : m.type ≠ .function) (hends : m.ends = []) (hconts : m.conts = []) :
    waiting (under a T) (m :: ms) = waiting T ms := by
  rw [waiting, hends, hconts, if_neg htype]
  rfl

section

variable {type : ContextType} {xblock : Bool} {flags : Flags}

theorem Tidy.push (h : Tidy es) (htype : type ≠ .function) : Tidy (es.push type xblock flags) := by
  obtain ⟨pos, hmarks, -⟩ := push_marks es type xblock flags
  have hpending : pending (es.push type xblock flags).marks = pending es.marks := by
    rw [hmarks]
    exact pending_open htype rfl rfl
  refine ⟨?_, fun q hq => h.lt q (hpending ▸ hq)⟩
  rw [hpending]
  exact h.nodup

/-- A context that was pushed, and in which nothing waits. -/
structure Opened (n : Nat) (es es' : Coding L) (m : Marks) (ms : List Marks) : Prop where
  marks : es'.marks = m :: ms
  type : m.type ≠ .function
  ends : m.ends = []
  conts : m.conts = []
  ne_nil : ms ≠ []
  keeps : KeepsAll n false es.marks ms

/-- Nothing is marked in a context that is no loop. -/
theorem opened (h : KeepsAll n false (es.push type xblock flags).marks es₁.marks) (htype : type ≠ .function)
    (hbrk : flags.breakable = false) (hcont : flags.continuable = false) (hne : es.marks ≠ []) :
    ∃ m ms, Opened n es es₁ m ms := by
  obtain ⟨pos, hmarks, -⟩ := push_marks es type xblock flags
  rw [hmarks] at h
  obtain ⟨m₁, ms₁, hm₁, hm, hms⟩ := h.cons_inv htype
  exact ⟨m₁, ms₁, hm₁, hm.type ▸ htype, hm.noEnds hbrk rfl, hm.noConts hcont, hms.ne_nil hne, hms⟩

theorem Opened.pop_marks (h : Opened n es es' m ms) : es'.pop.marks = ms := Events.pop_marks h.ne_nil h.marks

theorem Opened.pending (h : Opened n es es' m ms) : pending es'.pop.marks = pending es'.marks := by
  rw [h.pop_marks, h.marks, pending_open h.type h.ends h.conts]

theorem Opened.frame (h : Opened n es es' m ms) (hframe : Frame none n (es.push type xblock flags) es') :
    Frame none n es es'.pop where
  length := hframe.length
  coded := hframe.coded
  marks := by
    rw [h.pop_marks]
    exact h.keeps

theorem Opened.tidy (h : Opened n es es' m ms) (ht : Tidy es') : Tidy es'.pop := by
  refine ⟨?_, fun q hq => ht.lt q (h.pending ▸ hq)⟩
  rw [h.pending]
  exact ht.nodup

theorem Opened.into (h : Opened n es es' m ms) (hi : Into F X T es'.pop) : Into F X (under a T) es' where
  coded q i hq hX hp := hi.coded q i hq hX fun hmem => hp (h.pending ▸ hmem)
  aimed q w i hq hX hw := by
    refine hi.aimed q w i hq hX ?_
    rwa [h.pop_marks, ← waiting_open h.type h.ends h.conts (a := a), ← h.marks]

/-- Code in a context that is no loop is code of the previous one. -/
theorem Follows.scoped (h : Follows P (es.push type xblock flags) es₁) (htype : type ≠ .function)
    (hbrk : flags.breakable = false) (hcont : flags.continuable = false) (hrep : flags.repeatable = false)
    (hne : es.marks ≠ []) : Follows P es es₁.pop := by
  obtain ⟨pos, hmarks, -⟩ := push_marks es type xblock flags
  obtain ⟨m₁, ms₁, hopen⟩ := opened h.frame.marks htype hbrk hcont hne
  refine ⟨hopen.frame h.frame, fun ht => hopen.tidy (h.tidy (ht.push htype)), fun hlive ht F X T hX hi => ?_⟩
  refine (h.paths hlive.push (ht.push htype) hX (hopen.into (a := ⟨0, 0⟩) hi)).trans ?_
  rw [hmarks, exits_under hne htype hbrk hcont hrep]
  rfl

end

/-- A part with a jump to another place behind it, which is coded if that is come to. -/
theorem Follows.out {type : ContextType} {xblock : Bool} {flags : Flags} {out : L}
    (h : Follows P (es.push type xblock flags) es₁) (htype : type ≠ .function) (hbrk : flags.breakable = false)
    (hcont : flags.continuable = false) (hrep : flags.repeatable = false) (hne : es.marks ≠ [])
    (hlive₁ : P.Ends .next → Live es₁) (hlive : Live es) (ht : Tidy es) (hX : ∀ q ∈ X, q < es.coded.length)
    (hi : Into F X (under a T) es₁)
    (hjump : Live es₁ → exec F es₁.coded.length = seq (jump out .next) (exec F w)) :
    exec F es.coded.length = bind (seq P (jump out .next)) (exits F T es.marks w) := by
  obtain ⟨pos, hmarks, -⟩ := push_marks es type xblock flags
  refine (h.paths hlive.push (ht.push htype) hX hi).trans ?_
  rw [hmarks, exits_under hne htype hbrk hcont hrep, bind_seq]
  refine bind_congr fun x hx => ?_
  cases x with
  | next =>
    show _ = bind (jump out .next) (exits F T es.marks w)
    rw [jump_exits]
    exact hjump (hlive₁ hx)
  | _ => rfl

/-! ## Jumps to contexts -/

/-- The context `d` below the current one, if it is of the same function. -/
def At : Nat → List Marks → Marks → Prop
  | 0, m' :: _, m => m' = m
  | d + 1, m' :: ms, m => m'.type ≠ .function ∧ At d ms m
  | _, [], _ => False

/-- There is a context with the flag in this function. -/
def Within (flag : Flags → Bool) (ms : List Marks) : Prop := (target flag (fun _ _ => 0) (fun _ => ⟨0, 0⟩) ms).isSome

variable {flag : Flags → Bool} {d : Nat} {f : Marks → Marks}

theorem KeepsAll.within (h : KeepsAll n b ms ms') (hw : Within flag ms) : Within flag ms' := by
  unfold Within
  rw [h.target_eq fun _ _ _ _ => rfl]
  exact hw

theorem Within.under (hw : Within flag ms) (htype : m.type ≠ .function) : Within flag (m :: ms) := by
  have hms : ms ≠ [] := by
    rintro rfl
    cases hw
  unfold Within
  rw [target_cons hms, if_neg htype]
  split
  · rfl
  · exact hw

theorem within_cons (hms : ms ≠ []) (hflag : flag m.flags = true) : Within flag (m :: ms) := by
  unfold Within
  rw [target_cons hms, if_pos hflag]
  rfl

/-- What `find_context_flags` finds, if there is one in this function. -/
theorem find_target {cs : List Context} (hw : Within flag (cs.map Context.marks))
    (hd : findContextFlags flag cs = some d) : ∃ m, At d (cs.map Context.marks) m ∧ flag m.flags = true ∧
      ∀ dest T, target flag dest T (cs.map Context.marks) = some (dest m (T d)) := by
  induction cs generalizing d with
  | nil => cases hd
  | cons c cs ih =>
    cases cs with
    | nil => cases hd
    | cons c' cs =>
      have hms : (c' :: cs).map Context.marks ≠ [] := List.cons_ne_nil _ _
      have hcons (dest : Marks → Aim → Nat) (T : Nat → Aim) :
          target flag dest T ((c :: c' :: cs).map Context.marks) = if flag c.flags then some (dest c.marks (T 0))
            else if c.type = .function then none
            else target flag dest (fun k => T (k + 1)) ((c' :: cs).map Context.marks) := target_cons hms
      have hfind : findContextFlags flag (c :: c' :: cs) =
          if flag c.flags then some 0 else (findContextFlags flag (c' :: cs)).map (· + 1) := rfl
      unfold Within at hw
      rw [hcons] at hw
      rw [hfind] at hd
      by_cases hflag : flag c.flags = true
      · rw [if_pos hflag] at hd
        cases hd
        refine ⟨c.marks, rfl, hflag, fun dest T => ?_⟩
        rw [hcons, if_pos hflag]
      · rw [if_neg hflag] at hd hw
        by_cases hf : c.type = .function
        · rw [if_pos hf] at hw
          cases hw
        · rw [if_neg hf] at hw
          obtain ⟨d', hd', rfl⟩ := Option.map_eq_some_iff.mp hd
          obtain ⟨m, hat, hm, htarget⟩ := ih hw hd'
          refine ⟨m, ⟨hf, hat⟩, hm, fun dest T => ?_⟩
          rw [hcons, if_neg hflag, if_neg hf]
          exact htarget dest _

theorem At.exists_cons (h : At d ms m) : ∃ m' ms', ms = m' :: ms' := by
  cases ms with
  | nil => cases d <;> exact h.elim
  | cons m' ms => exact ⟨m', ms, rfl⟩

theorem At.keepsAll (h : At d ms m) (hf : m.Keeps n false (f m)) : KeepsAll n b ms (ms.modify d f) := by
  induction d generalizing ms b with
  | zero =>
    obtain ⟨m', ms, rfl⟩ := h.exists_cons
    obtain rfl : m' = m := h
    refine ⟨hf.weaken le_rfl nofun, ?_⟩
    split
    · rfl
    · exact .refl
  | succ d ih =>
    obtain ⟨m', ms, rfl⟩ := h.exists_cons
    obtain ⟨htype, h⟩ := h
    refine ⟨.refl, ?_⟩
    rw [if_neg htype]
    exact ih h

theorem At.pending_modify (h : At d ms m) (htype : (f m).type = m.type)
    (hf : ((f m).ends ++ (f m).conts).Perm (p :: (m.ends ++ m.conts))) :
    (pending (ms.modify d f)).Perm (p :: pending ms) := by
  induction d generalizing ms with
  | zero =>
    obtain ⟨m', ms, rfl⟩ := h.exists_cons
    obtain rfl : m' = m := h
    show (pending (f m' :: ms)).Perm (p :: pending (m' :: ms))
    rw [pending, pending, htype]
    exact hf.append_right _
  | succ d ih =>
    obtain ⟨m', ms, rfl⟩ := h.exists_cons
    obtain ⟨hf', h⟩ := h
    show (pending (m' :: ms.modify d f)).Perm (p :: pending (m' :: ms))
    rw [pending, pending, if_neg hf', if_neg hf']
    exact ((ih h).append_left _).trans List.perm_middle

theorem At.waiting_modify (h : At d ms m)
    (hf : p ∈ (f m).ends ∧ w = (T d).brk ∨ p ∈ (f m).conts ∧ w = (T d).cont) : (p, w) ∈ waiting T (ms.modify d f) := by
  induction d generalizing ms T with
  | zero =>
    obtain ⟨m', ms, rfl⟩ := h.exists_cons
    obtain rfl : m' = m := h
    show (p, w) ∈ waiting T (f m' :: ms)
    rw [waiting, List.mem_append, List.mem_append]
    left
    rcases hf with ⟨hp, rfl⟩ | ⟨hp, rfl⟩
    · exact .inl (List.mem_map_of_mem hp)
    · exact .inr (List.mem_map_of_mem hp)
  | succ d ih =>
    obtain ⟨m', ms, rfl⟩ := h.exists_cons
    obtain ⟨hf', h⟩ := h
    show (p, w) ∈ waiting T (m' :: ms.modify d f)
    rw [waiting, if_neg hf']
    exact List.mem_append_right _ (ih (T := fun k => T (k + 1)) h hf)

/-- The jump is coded, if control may be here. It is marked in its context by `f`. -/
structure JumpsOut (l : L) (d : Nat) (f : Nat → Marks → Marks) (es es₁ es' : Coding L) : Prop where
  idle : Idle es es₁
  marks₁ : es₁.marks = es.marks
  coded : es'.coded = es₁.coded ++ [.jump l 0]
  marks : es'.marks = es.marks.modify d (f es₁.coded.length)

def Marks.addEnd (p : Nat) (m : Marks) : Marks := { m with ends := m.ends ++ [p] }

def Marks.addCont (p : Nat) (m : Marks) : Marks := { m with conts := m.conts ++ [p] }

theorem codeJumpOut_cases {link : Codemark → Context → Context} {f : Nat → Marks → Marks}
    (hlink : ∀ p x c, (link ⟨some p, x⟩ c).marks = f p c.marks) (h : es.codeJumpOut link l d = some es') :
    es' = es ∧ ¬ Live es ∨ ∃ es₁, JumpsOut l d f es es₁ es' := by
  unfold Coding.codeJumpOut at h
  dsimp only at h
  split at h
  · rename_i hdead
    cases h
    refine .inl ⟨rfl, fun hlive => hlive.testExit ?_⟩
    cases hexit : testExit es.contexts with
    | yes => rfl
    | _ => rw [hexit] at hdead; cases hdead
  · rename_i hlive
    obtain ⟨es₁, h₁, rfl⟩ := Option.map_eq_some_iff.mp h
    have hcontexts : es₁.contexts = es.contexts := by
      rcases leaveContext_eq h₁ with rfl | ⟨k, rfl⟩
      · rfl
      · unfold Coding.code
        split <;> rfl
    have htest : testExit es₁.contexts ≠ .yes := by
      intro hyes
      rw [← hcontexts, hyes] at hlive
      exact hlive rfl
    have hcode : es₁.code (.jump l 0) = { es₁ with coded := es₁.coded ++ [.jump l 0] } := if_neg htest
    have hmark : es₁.mark = some es₁.coded.length := if_neg htest
    refine .inr ⟨es₁, leaveContext_idle h₁, congrArg (List.map Context.marks) hcontexts, ?_, ?_⟩
    · rw [hcode]
      rfl
    · rw [eBreak_marks, hcode, hmark]
      unfold Coding.marks Coding.mapContexts
      dsimp only
      rw [hcontexts]
      refine List.ext_getElem? fun n => ?_
      rw [List.getElem?_map, List.getElem?_modify, List.getElem?_modify, List.getElem?_map]
      cases es.contexts[n]? with
      | none => rfl
      | some c =>
        dsimp only [Option.map_some, Option.map_eq_map]
        split
        · exact congrArg some (hlink _ _ c)
        · rfl

theorem codeBreak_cases (h : es.codeBreak l d = some es') :
    es' = es ∧ ¬ Live es ∨ ∃ es₁, JumpsOut l d Marks.addEnd es es₁ es' := by
  refine codeJumpOut_cases (fun p x c => ?_) h
  unfold Context.marks Marks.addEnd
  rw [List.filterMap_append]
  rfl

theorem codeNext_cases (h : es.codeNext l d = some es') :
    es' = es ∧ ¬ Live es ∨ ∃ es₁, JumpsOut l d Marks.addCont es es₁ es' := by
  refine codeJumpOut_cases (fun p x c => ?_) h
  unfold Context.marks Marks.addCont
  rw [List.filterMap_append]
  rfl

section

variable {f : Nat → Marks → Marks} {x : Exit}

theorem JumpsOut.length (h : JumpsOut l d f es es₁ es') : es'.coded.length = es₁.coded.length + 1 := by
  rw [h.coded, List.length_append, List.length_singleton]

theorem JumpsOut.kept (h : JumpsOut l d f es es₁ es') (hq : q < es₁.coded.length) : es'.coded[q]? = es₁.coded[q]? := by
  rw [h.coded]
  exact List.getElem?_append_left hq

theorem JumpsOut.frame (h : JumpsOut l d f es es₁ es') (hkeeps : KeepsAll es₁.coded.length false es.marks es'.marks) :
    Frame none es.coded.length es es' := by
  refine h.idle.frame.trans (Frame.mono ⟨?_, fun q hq _ => h.kept hq, ?_⟩ h.idle.frame.length)
  · rw [h.length]
    exact Nat.le_succ _
  · rw [h.marks₁]
    exact hkeeps

theorem JumpsOut.tidy (h : JumpsOut l d f es es₁ es') (ht : Tidy es)
    (hpending : (pending es'.marks).Perm (es₁.coded.length :: pending es.marks)) : Tidy es' := by
  have ht₁ := h.idle.tidy ht
  refine ⟨hpending.symm.nodup (List.nodup_cons.mpr ⟨fun hmem => ?_, ht.nodup⟩), fun q hq => ?_⟩
  · rw [← h.marks₁] at hmem
    exact (ht₁.lt _ hmem).false
  · rw [h.length]
    rcases List.mem_cons.mp (hpending.mem_iff.mp hq) with rfl | hq
    · exact Nat.lt_succ_self _
    · rw [← h.marks₁] at hq
      exact (ht₁.lt q hq).trans (Nat.lt_succ_self _)

/-- It goes where its mark leads. -/
theorem JumpsOut.exec (h : JumpsOut l d f es es₁ es') (ht : Tidy es) (hX : ∀ q ∈ X, q < es.coded.length)
    (hkeeps : KeepsAll es₁.coded.length b es.marks es'.marks) (hi : Into F X T es')
    (hw : (es₁.coded.length, w) ∈ waiting T es'.marks) : exec F es.coded.length = seq (jump l .next) (exec F w) := by
  have hlast : es'.coded[es₁.coded.length]? = some (.jump l 0) := by
    rw [h.coded]
    exact List.getElem?_concat_length
  have haimed : Aimed F es₁.coded.length w (.jump l 0) :=
    hi.aimed _ _ _ hlast (fun hmem => ((hX _ hmem).trans_le h.idle.frame.length).false) hw
  rw [← haimed.jump]
  rw [← h.marks₁] at hkeeps
  exact h.idle.skip ht hX (hi.of_kept (fun q hq _ => h.kept hq) hkeeps)

end

end

end Events

end Eel
