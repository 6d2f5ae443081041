-- SUMMARY: Where control goes when a value is thrown: to the nearest catcher, out of the VM, or on behind the THROW.
import Eel.Vm.Scheduler

/-!
# Throwing and catching
-/

namespace Eel

/-! ## Values that stay when objects are destroyed -/

def Value.isWeak : Value → Bool
  | .weakref _ _ => true
  | _ => false

theorem Value.kill_of_strong {v : Value} {o : ObjId} (hv : v.isWeak = false) : v.kill o = v := by
  cases v <;> simp_all [Value.kill, Value.isWeak]

theorem Value.copy_of_strong {v : Value} (hv : v.isWeak = false) : v.copy = v := by
  cases v <;> simp_all [Value.copy, Value.isWeak]

namespace Store

variable {s : Store} {o : ObjId} {v : Value}

@[simp] theorem modify_exception {f : Object → Object} :
    (s.modify o f).exception = s.exception := rfl

@[simp] theorem empty_exception : (s.empty o).exception = s.exception := rfl

@[simp] theorem limboUnlink_exception : (s.limboUnlink o).exception = s.exception := by
  unfold limboUnlink
  split <;> rfl

@[simp] theorem own_exception : (s.own v).exception = s.exception := by
  cases v <;> rfl

/-- Disowning an object leaves an exception alone that is not a weak reference. -/
theorem disownObject_exception {x : Value} (hx : x.isWeak = false) {depth : Nat}
    (hs : s.exception = x) : (s.disownObject depth o).exception = x := by
  induction depth generalizing s o with
  | zero => exact hs
  | succ depth ih =>
    unfold disownObject
    dsimp only
    have hfold : ∀ (os : List ObjId) (s : Store), s.exception = x →
        (os.foldl (disownObject depth) s).exception = x := by
      intro os
      induction os with
      | nil => exact fun s hs => hs
      | cons o os ihos => exact fun s hs => ihos _ (ih hs)
    split
    · simpa using hs
    · split
      · simpa using hs
      · refine hfold _ _ ?_
        change Value.kill o _ = x
        rw [hfold _ _ (by simpa using hs), Value.kill_of_strong hx]

theorem disown_exception {x : Value} (hx : x.isWeak = false) (hs : s.exception = x) :
    (s.disown v).exception = x := by
  cases v with
  | objref o => exact disownObject_exception hx hs
  | _ => exact hs

end Store

/-- An exception that is not a weak reference survives cleaning up. -/
theorem survives_exception {x : Value} (hx : x.isWeak = false) :
    Vm.Survives fun s => s.exception = x where
  disown _ _ hs := Store.disown_exception hx hs
  unlink _ _ hs := by simpa using hs

/-! ## The frames of a state -/

section Frames

variable (F : ObjId → Function) (frames : Nat → Callframe)

/-- The frame at `b` runs an EEL function. -/
def RunsEel (b : Nat) : Prop :=
  b ≠ 0 ∧ (frames b).f ≠ none ∧ (frames b).isCFunc F = false

/-- The frames from `b` outwards, as calls build them: each above the one it returns
to and running a function, try blocks and catchers called from EEL functions, and a
return address behind the call instruction. -/
inductive FrameChain : Nat → Prop
  | root : FrameChain 0
  | frame {b : Nat} :
      (frames b).rBase < b →
      (frames b).f ≠ none →
      ((frames b).isTryBlock || (frames b).isCatcher → RunsEel F frames (frames b).rBase) →
      (RunsEel F frames (frames b).rBase → 0 < (frames b).rPc) →
      FrameChain (frames b).rBase →
      FrameChain b

/-- The frame at `t` is the one at `b`, or one that `b` was called from. -/
inductive Encloses : Nat → Nat → Prop
  | here {t : Nat} : Encloses t t
  | outer {b t : Nat} : b ≠ 0 → Encloses (frames b).rBase t → Encloses b t

/-- An exception does not get from inside the frame at `b` to that frame's catcher or
to the frames outside it. -/
def Cut (b : Nat) : Prop :=
  b = 0 ∨ (frames b).f = none ∨ (frames b).isCFunc F ∨ (frames b).isUntry

instance (b : Nat) : Decidable (Cut F frames b) := by
  unfold Cut
  infer_instance

/-- Of the frames from `b` outwards, the one at `t` is the nearest that has a
catcher, `c`, and it is not cut off. -/
inductive NearestCatcher : Nat → Nat → ObjId → Prop
  | here {b : Nat} {c : ObjId} :
      ¬ Cut F frames b → (frames b).catcher = some c → NearestCatcher b b c
  | outer {b t : Nat} {c : ObjId} :
      ¬ Cut F frames b → (frames b).catcher = none →
      NearestCatcher (frames b).rBase t c → NearestCatcher b t c

end Frames

variable {F : ObjId → Function} {frames : Nat → Callframe} {b t : Nat} {c : ObjId}

theorem FrameChain.rBase_lt (h : FrameChain F frames b) (hb : b ≠ 0) : (frames b).rBase < b := by
  cases h with
  | root => exact absurd rfl hb
  | frame hlt _ _ _ _ => exact hlt

theorem FrameChain.outer (h : FrameChain F frames b) (hb : b ≠ 0) :
    FrameChain F frames (frames b).rBase := by
  cases h with
  | root => exact absurd rfl hb
  | frame _ _ _ _ houter => exact houter

theorem FrameChain.function (h : FrameChain F frames b) (hb : b ≠ 0) : (frames b).f ≠ none := by
  cases h with
  | root => exact absurd rfl hb
  | frame _ hf _ _ _ => exact hf

theorem FrameChain.rPc_pos (h : FrameChain F frames b) (hb : b ≠ 0)
    (heel : RunsEel F frames (frames b).rBase) : 0 < (frames b).rPc := by
  cases h with
  | root => exact absurd rfl hb
  | frame _ _ _ hret _ => exact hret heel

theorem Encloses.chain (ht : Encloses frames b t) (h : FrameChain F frames b) :
    FrameChain F frames t := by
  induction ht with
  | here => exact h
  | outer hb _ ih => exact ih (h.outer hb)

theorem Encloses.le (ht : Encloses frames b t) (h : FrameChain F frames b) : t ≤ b := by
  induction ht with
  | here => exact Nat.le_refl _
  | outer hb _ ih => exact Nat.le_trans (ih (h.outer hb)) (Nat.le_of_lt (h.rBase_lt hb))

theorem NearestCatcher.encloses (h : NearestCatcher F frames b t c) :
    Encloses frames b t ∧ t ≠ 0 := by
  induction h with
  | here hcut _ => exact ⟨.here, fun h => hcut (.inl h)⟩
  | outer hcut _ _ ih => exact ⟨.outer (fun h => hcut (.inl h)) ih.1, ih.2⟩

namespace Vm

variable {vm : Vm} {v : Value} {x : Xno}

/-! ## Unwinding -/

/-- Unwinding to where an enclosing frame was called from leaves that frame last. -/
theorem unwindFrames_of_encloses {r n : Nat} (hr : Encloses vm.callframe vm.base r) (hr0 : r ≠ 0)
    (h : FrameChain F vm.callframe vm.base) (hn : vm.base ≤ n) :
    (vm.unwindFrames F (vm.callframe r).rBase n).base = (vm.callframe r).rBase ∧
      (vm.unwindFrames F (vm.callframe r).rBase n).pc = (vm.callframe r).rPc := by
  induction n generalizing vm with
  | zero => exact absurd (Nat.le_zero.mp (Nat.le_trans (hr.le h) hn)) hr0
  | succ n ih =>
    have hlt : (vm.callframe r).rBase < r := (hr.chain h).rBase_lt hr0
    have hbase : vm.base ≠ (vm.callframe r).rBase := Nat.ne_of_gt (Nat.lt_of_lt_of_le hlt (hr.le h))
    rw [unwindFrames, if_neg hbase]
    by_cases heq : vm.base = r
    · -- The frame itself: the next turn stops.
      subst heq
      cases n with
      | zero => exact ⟨rfl, rfl⟩
      | succ n =>
        rw [unwindFrames, if_pos unwindFrame_base]
        exact ⟨rfl, rfl⟩
    · generalize hb : vm.base = b at hr
      cases hr with
      | here => exact absurd hb heq
      | outer hb0 hr =>
        subst hb
        have hle := h.rBase_lt hb0
        have hstep := @ih (vm.unwindFrame F) (by simpa using hr) (by simpa using h.outer hb0)
          (by simpa using Nat.le_of_lt_succ (Nat.lt_of_lt_of_le hle hn))
        simpa using hstep

/-- The same, for the whole of `unwind`. -/
theorem unwind_of_encloses {r : Nat} (hr : Encloses vm.callframe vm.base r) (hr0 : r ≠ 0)
    (h : FrameChain F vm.callframe vm.base) :
    (vm.unwind F (vm.callframe r).rBase).base = (vm.callframe r).rBase ∧
      (vm.unwind F (vm.callframe r).rBase).pc = (vm.callframe r).rPc :=
  unwindFrames_of_encloses hr hr0 h (Nat.le_refl _)

/-! ## Searching -/

theorem returningFrame_spec {n : Nat} (h : FrameChain F vm.callframe b)
    (heel : RunsEel F vm.callframe b) (hn : b ≤ n) :
    Encloses vm.callframe b (vm.returningFrame b n) ∧ vm.returningFrame b n ≠ 0 := by
  induction n generalizing b with
  | zero => exact absurd (Nat.le_zero.mp hn) heel.1
  | succ n ih =>
    unfold returningFrame
    dsimp only
    split
    · rename_i hblock
      cases h with
      | root => exact absurd rfl heel.1
      | frame hlt _ heel' _ houter =>
        obtain ⟨henc, hne⟩ := ih houter (heel' hblock)
          (Nat.le_of_lt_succ (Nat.lt_of_lt_of_le hlt hn))
        exact ⟨.outer heel.1 henc, hne⟩
    · exact ⟨.here, heel.1⟩

theorem findCatcher_uncut {n : Nat} (hcut : ¬ Cut F vm.callframe b) :
    vm.findCatcher F x b (n + 1) =
      match (vm.callframe b).catcher with
      | some catcher =>
        if x = Xno.internal then vm.findCatcher F x (vm.callframe b).rBase n
        else (b, some catcher)
      | none => vm.findCatcher F x (vm.callframe b).rBase n := by
  unfold Cut at hcut
  rw [findCatcher]
  exact if_neg hcut

theorem findCatcher_of_nearest {n : Nat} (hnear : NearestCatcher F vm.callframe b t c)
    (h : FrameChain F vm.callframe b) (hn : b ≤ n) (hx : x ≠ Xno.internal) :
    vm.findCatcher F x b n = (t, some c) := by
  induction hnear generalizing n with
  | here hcut hcatcher =>
    cases n with
    | zero => exact absurd (.inl (Nat.le_zero.mp hn)) hcut
    | succ n => simp [findCatcher_uncut hcut, hcatcher, hx]
  | outer hcut hcatcher _ ih =>
    have hb0 : _ ≠ 0 := fun h => hcut (.inl h)
    cases n with
    | zero => exact absurd (.inl (Nat.le_zero.mp hn)) hcut
    | succ n =>
      rw [findCatcher_uncut hcut, hcatcher]
      exact ih (h.outer hb0) (Nat.le_of_lt_succ (Nat.lt_of_lt_of_le (h.rBase_lt hb0) hn))

theorem findCatcher_none (vm : Vm) (n : Nat)
    (hnone : ¬ ∃ t c, NearestCatcher F vm.callframe b t c) :
    (vm.findCatcher F x b n).2 = none := by
  induction n generalizing b with
  | zero => rfl
  | succ n ih =>
    rw [findCatcher]
    split
    · rfl
    · rename_i hcut
      split
      · rename_i c hcatcher
        exact absurd ⟨b, c, .here hcut hcatcher⟩ hnone
      · rename_i hcatcher
        exact ih fun ⟨t, c, h⟩ => hnone ⟨t, c, .outer hcut hcatcher h⟩

/-- Nothing catches `EEL_XINTERNAL`. -/
theorem findCatcher_internal {n : Nat} : (vm.findCatcher F Xno.internal b n).2 = none := by
  induction n generalizing b with
  | zero => rfl
  | succ n ih =>
    rw [findCatcher]
    split
    · rfl
    · split
      · rw [if_pos rfl]
        exact ih
      · exact ih

/-! ## What is asked of a throw -/

/-- The states in which an instruction has just been fetched. -/
structure Running (F : ObjId → Function) (vm : Vm) : Prop where
  chain : FrameChain F vm.callframe vm.base
  eel : RunsEel F vm.callframe vm.base
  pc : 0 < vm.pc

/-- Control is at the first instruction of catcher `c`, called from where the frame
at `t` was called from, with the exception in `R[0]`. -/
structure EntersCatcher (frames : Nat → Callframe) (t : Nat) (c : ObjId) (v : Value)
    (vm' : Vm) : Prop where
  f : (vm'.callframe vm'.base).f = some c
  isCatcher : (vm'.callframe vm'.base).isCatcher
  rBase : (vm'.callframe vm'.base).rBase = (frames t).rBase
  pc : vm'.pc = 0
  exception : vm'.register 0 = v

/-- A throw of `v` that gave `r`, the code and state of the scheduler, was treated as
an exception: its nearest catcher runs or, without one, the run ends with an error. -/
structure Handled (F : ObjId → Function) (vm : Vm) (v : Value) (r : Xno × Vm) : Prop where
  caught : ∀ t c, NearestCatcher F vm.callframe vm.base t c →
    r.1 = Xno.ok ∧ EntersCatcher vm.callframe t c v r.2
  uncaught : (¬ ∃ t c, NearestCatcher F vm.callframe vm.base t c) → r.1.IsError

/-- The codes the scheduler takes for signals of the VM. -/
def IsSignal (x : Xno) : Prop :=
  x = Xno.ok ∨ x = Xno.yield ∨ x = Xno.end ∨ x = Xno.return

instance (x : Xno) : Decidable (IsSignal x) := by
  unfold IsSignal
  infer_instance

/-- The values whose throw is treated as an exception. -/
def Catchable (F : ObjId → Function) (vm : Vm) (v : Value) : Prop :=
  v ≠ .nil ∧ ∀ x, v = .integer x →
    ¬ IsSignal x ∧
      (x = Xno.internal → ¬ ∃ t c, NearestCatcher F vm.callframe vm.base t c)

theorem catchable_iff :
    Catchable F vm v ↔ ¬ IsSignal (exceptionXno v) ∧
      (exceptionXno v = Xno.internal →
        ¬ ∃ t c, NearestCatcher F vm.callframe vm.base t c) := by
  cases v with
  | integer x => simp [Catchable, exceptionXno]
  | nil => simp [Catchable, exceptionXno, IsSignal]
  | _ => simp [Catchable, exceptionXno, IsSignal, Xno.other, Xno.ok, Xno.yield, Xno.end,
      Xno.return, Xno.internal]

/-! ## The scheduler, signal by signal -/

theorem isError_of_not_isSignal (hx : ¬ IsSignal x) : x.IsError := by
  unfold IsSignal at hx
  unfold Xno.IsError Xno.doRun
  rw [if_neg fun h => hx (h.elim .inl fun h => .inr (.inl h)),
    if_neg fun h => hx (.inr (.inr (.inl h)))]

theorem scheduler_exception (hx : ¬ IsSignal (exceptionXno vm.store.exception)) :
    vm.scheduler F = vm.scheduleException F (exceptionXno vm.store.exception) := by
  unfold IsSignal at hx
  rw [scheduler, if_neg fun h => hx (h.elim .inl fun h => .inr (.inl h)),
    if_neg fun h => hx (.inr (.inr (.inl h))), if_neg fun h => hx (.inr (.inr (.inr h)))]

/-- A code that is no signal goes to the nearest catcher. -/
theorem scheduleException_caught (vm : Vm) (hx : x ≠ Xno.internal)
    (hv : vm.store.exception.isWeak = false) (h : FrameChain F vm.callframe vm.base)
    (hnear : NearestCatcher F vm.callframe vm.base t c) :
    (vm.scheduleException F x).1 = Xno.ok ∧
      EntersCatcher vm.callframe t c vm.store.exception (vm.scheduleException F x).2 := by
  obtain ⟨henc, ht0⟩ := hnear.encloses
  obtain ⟨hbase, _⟩ := unwind_of_encloses henc ht0 h
  have hexc : (vm.unwind F (vm.callframe t).rBase).store.exception = vm.store.exception :=
    (survives_exception hv).unwind rfl
  rw [scheduleException, findCatcher_of_nearest hnear h (Nat.le_refl _) hx]
  refine ⟨rfl, ?_, ?_, ?_, rfl, ?_⟩
  · simp [callCatcher, callEel, pushFrame, modifyFrame]
  · simp [callCatcher, callEel, pushFrame, modifyFrame]
  · simpa [callCatcher, callEel, pushFrame, modifyFrame] using hbase
  · simpa [callCatcher, callEel, pushFrame, modifyFrame, register, Store.setHeap] using hexc

/-- Without a catcher for it, a code that is no signal ends the run. -/
theorem scheduleException_uncaught (hnone : (vm.findCatcher F x vm.base vm.base).2 = none) :
    (vm.scheduleException F x).1 = x := by
  unfold scheduleException
  generalize vm.findCatcher F x vm.base vm.base = found at hnone
  obtain ⟨b, catcher⟩ := found
  subst hnone
  rfl

/-- The VM goes on, if it does, where `pc` is. -/
theorem resume_spec :
    ¬ (vm.resume F).1.IsError ∧ (vm.resume F).2 = vm := by
  unfold resume
  refine ⟨?_, rfl⟩
  split
  · exact (by decide : ¬ Xno.end.IsError)
  · exact (by decide : ¬ Xno.ok.IsError)

/-- Returning from within a block goes on behind the call of the function. -/
theorem scheduleReturn_spec (h : FrameChain F vm.callframe vm.base)
    (heel : RunsEel F vm.callframe vm.base) :
    ¬ (vm.scheduleReturn F).1.IsError ∧
      ((vm.scheduleReturn F).1 = Xno.ok → 0 < (vm.scheduleReturn F).2.pc) := by
  obtain ⟨henc, hne⟩ := returningFrame_spec (n := vm.base) h heel (Nat.le_refl _)
  obtain ⟨hbase, hpc⟩ := unwind_of_encloses henc hne h
  unfold scheduleReturn
  dsimp only
  split
  · exact ⟨(by decide : ¬ Xno.end.IsError), fun h => absurd h (by decide : Xno.end ≠ Xno.ok)⟩
  · rename_i hstop
    simp only [stackClear_base, stackClear_callframe, unwind_callframe, hbase, not_or,
      Bool.not_eq_true] at hstop
    have hret := (henc.chain h).rPc_pos hne
      ⟨hstop.1, ((henc.chain h).outer hne).function hstop.1, hstop.2⟩
    split <;>
    · refine ⟨resume_spec.1, fun _ => ?_⟩
      rw [resume_spec.2]
      simpa [hpc] using hret

/-- A signal neither starts a catcher nor ends the run with an error. -/
theorem scheduler_signal (vm : Vm) (hx : IsSignal (exceptionXno vm.store.exception))
    (hrun : Running F vm) :
    ¬ (vm.scheduler F).1.IsError ∧
      ((vm.scheduler F).1 = Xno.ok → 0 < (vm.scheduler F).2.pc) := by
  unfold IsSignal at hx
  rw [scheduler]
  split
  · exact ⟨resume_spec.1, fun _ => by rw [resume_spec.2]; exact hrun.pc⟩
  · rename_i hgo
    split
    · exact ⟨(by decide : ¬ Xno.end.IsError), fun h => absurd h (by decide : Xno.end ≠ Xno.ok)⟩
    · rename_i hend
      have hret : exceptionXno vm.store.exception = Xno.return := by
        rcases hx with h | h | h | h
        · exact absurd (.inl h) hgo
        · exact absurd (.inr h) hgo
        · exact absurd h hend
        · exact h
      rw [if_pos hret]
      exact scheduleReturn_spec hrun.chain hrun.eel

/-! ## Every throw -/

/-- A thrown value is treated as an exception if and only if the scheduler does not
take it for a signal, and does not hide it from a catcher as `EEL_XINTERNAL`. -/
theorem execThrow_handled_iff {a : Nat} (hrun : Running F vm)
    (hv : (vm.register a).isWeak = false) :
    Handled F vm (vm.register a) (vm.execThrow F a) ↔ Catchable F vm (vm.register a) := by
  rw [execThrow, catchable_iff]
  generalize vm.register a = v at hv
  have hrun' : Running F (vm.throwValue v) := ⟨hrun.chain, hrun.eel, hrun.pc⟩
  have hexc : (vm.throwValue v).store.exception = v :=
    Store.own_exception.trans (Value.copy_of_strong hv)
  constructor
  · intro hhandled
    by_contra hnot
    by_cases hnear : ∃ t c, NearestCatcher F vm.callframe vm.base t c
    · obtain ⟨t, c, hnear⟩ := hnear
      obtain ⟨hok, hcatcher⟩ := hhandled.caught t c hnear
      by_cases hsignal : IsSignal (exceptionXno v)
      · have h := (scheduler_signal (F := F) (vm.throwValue v) (by rwa [hexc]) hrun').2 hok
        exact absurd hcatcher.pc (Nat.ne_of_gt h)
      · rw [scheduler_exception (by rwa [hexc]), hexc] at hok
        have hinternal : exceptionXno v = Xno.internal := by
          by_contra hne
          exact hnot ⟨hsignal, fun h => absurd h hne⟩
        rw [hinternal, scheduleException_uncaught findCatcher_internal] at hok
        exact absurd hok (by decide)
    · have herror := hhandled.uncaught hnear
      by_cases hsignal : IsSignal (exceptionXno v)
      · exact (scheduler_signal (F := F) (vm.throwValue v) (by rwa [hexc]) hrun').1 herror
      · exact hnot ⟨hsignal, fun _ => hnear⟩
  · rintro ⟨hsignal, hinternal⟩
    rw [scheduler_exception (by rwa [hexc]), hexc]
    refine ⟨fun t c hnear => ?_, fun hnone => ?_⟩
    · have hint : exceptionXno v ≠ Xno.internal := fun hx => hinternal hx ⟨t, c, hnear⟩
      have h := scheduleException_caught (vm.throwValue v) hint (by rwa [hexc]) hrun'.chain hnear
      rw [hexc] at h
      exact h
    · have h := scheduleException_uncaught (F := F) (x := exceptionXno v)
        (findCatcher_none (vm.throwValue v) (vm.throwValue v).base hnone)
      rw [h]
      exact isError_of_not_isSignal hsignal

/-! ### A throw inside a try block -/

/-- Three functions of one module, none with arguments or results. -/
def plainFunction (_ : ObjId) : Function where
  cfunc := false
  results := false
  reqargs := 0
  optargs := 0
  tupargs := 0
  argdefaults := none
  framesize := 2
  cleansize := 1
  «module» := 0

/-- The callframe of function `fo`, called without arguments by the frame at `rBase`. -/
def plainFrame (fo rBase : Nat) : Callframe where
  rBase := rBase
  rPc := 5
  rSp := rBase + 2
  rSbase := rBase + 2
  f := some fo
  argv := rBase + 2
  argc := 0
  result := none
  upvalues := rBase
  isTryBlock := false
  isCatcher := false
  isUntry := false
  catcher := none

/-- Function 1 runs try block 2 with catcher 3. -/
def tryBlockFrames (b : Nat) : Callframe :=
  if b = 20 then { plainFrame 2 10 with isTryBlock := true, catcher := some 3 }
  else plainFrame 1 0

/-- The try block has just fetched a `THROW` of `v`, its register 0. -/
def inTryBlock (v : Value) : Vm where
  store :=
    { heap := fun _ => v
      object := fun _ =>
        { refcount := 1, values := [], cls := none, limbo := none, refuses := false,
          freed := false }
      limbo := fun _ => []
      exception := .nil
      next := 4 }
  base := 20
  sp := 22
  sbase := 22
  pc := 2
  resv := 0
  argv := 0
  argc := 0
  callframe := tryBlockFrames
  cleantab _ := []
  log := []

theorem tryBlockFrames_chain : FrameChain plainFunction tryBlockFrames 20 :=
  .frame (by decide) (by decide) (fun _ => ⟨by decide, by decide, by decide⟩)
    (fun _ => by decide)
    (.frame (by decide) (by decide) (fun h => absurd h (by decide)) (fun h => absurd rfl h.1)
      .root)

theorem inTryBlock_running (v : Value) : Running plainFunction (inTryBlock v) where
  chain := tryBlockFrames_chain
  eel := (⟨by decide, by decide, by decide⟩ : RunsEel plainFunction tryBlockFrames 20)
  pc := Nat.zero_lt_two

theorem tryBlockFrames_nearest : NearestCatcher plainFunction tryBlockFrames 20 20 3 :=
  .here (by decide) rfl

/-- A thrown boolean gets to the catcher. -/
theorem execThrow_handled_iff_boolean :
    Handled plainFunction (inTryBlock (.boolean 1)) (.boolean 1)
      ((inTryBlock (.boolean 1)).execThrow plainFunction 0) :=
  (execThrow_handled_iff (inTryBlock_running _) rfl).mpr ⟨by decide, fun x h => by cases h⟩

/-- A thrown 0 does not: the block goes on with the instruction behind the `THROW`. -/
theorem execThrow_zero_goes_on :
    Running plainFunction (inTryBlock (.integer 0)) ∧
      ((inTryBlock (.integer 0)).execThrow plainFunction 0).1 = Xno.ok ∧
      ((inTryBlock (.integer 0)).execThrow plainFunction 0).2.base = 20 ∧
      ((inTryBlock (.integer 0)).execThrow plainFunction 0).2.pc = 2 ∧
      ¬ Handled plainFunction (inTryBlock (.integer 0)) (.integer 0)
        ((inTryBlock (.integer 0)).execThrow plainFunction 0) := by
  refine ⟨inTryBlock_running _, by decide, by decide, by decide, fun h => ?_⟩
  obtain ⟨_, hcatcher⟩ := h.caught 20 3 tryBlockFrames_nearest
  exact absurd hcatcher.pc (by decide)

end Vm

end Eel
