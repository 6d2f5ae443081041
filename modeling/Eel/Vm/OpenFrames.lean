-- SUMMARY: The EEL frames a C caller has open, and how calls, returns and unwinding change them.
import Eel.Lib.Brackets
import Eel.Vm.ExecFrame
import Eel.Vm.Run
import Eel.Vm.ThrowCatch

/-!
# Open frames

Between a C caller and the current frame are the frames of the EEL functions it
runs. All of them have to be left before the C caller goes on.
-/

namespace Eel

open Brackets

/-! ## The record of frames -/

/-- The event after which the frame at `b` has nothing left to release. -/
def FrameEvent.Ends (b : Nat) (e : FrameEvent) : Prop := e = .released b ∨ e = .dropped b []

/-- Every frame pushed is released once, the last pushed first. -/
abbrev Settled (l : List FrameEvent) : Prop := Balanced FrameEvent.pushed FrameEvent.Ends l

/-- Every frame pushed is released once, and so are the frames at `bs`. -/
abbrev Settling (bs : List Nat) (l : List FrameEvent) : Prop :=
  Closing FrameEvent.pushed FrameEvent.Ends bs l

section Frames

variable (F : ObjId → Function) (frames : Nat → Callframe)

/-- Execution at `c` is in C: in the initial state or in a C function. -/
def InC (c : Nat) : Prop := c = 0 ∨ (frames c).isCFunc F

/-- The frame of an EEL function, where calls put it. -/
structure Placed (b : Nat) : Prop where
  runs : RunsEel F frames b
  base_le : (frames b).rBase ≤ (frames b).rSbase
  sbase_le : (frames b).rSbase ≤ (frames b).rSp
  sp_lt : (frames b).rSp < b
  catcher : ∀ fo, (frames b).catcher = some fo → (F fo).cfunc = false

/-- The frames `bs` are those from `b` outwards to the one that C code at base `c`
called, with its registers at `s` and `p`. -/
inductive Open (c s p : Nat) : Nat → List Nat → Prop
  | outermost {b : Nat} :
      Placed F frames b → (frames b).rBase = c → (frames b).rSbase = s → (frames b).rSp = p →
      ((frames b).isTryBlock || (frames b).isCatcher) = false → (frames b).catcher = none →
      Open c s p b [b]
  | inner {b : Nat} {bs : List Nat} :
      Placed F frames b → Open c s p (frames b).rBase bs → Open c s p b (b :: bs)

end Frames

variable {F : ObjId → Function} {frames frames' : Nat → Callframe} {c s p b t : Nat}
  {bs : List Nat}

theorem Placed.rBase_lt (h : Placed F frames b) : (frames b).rBase < b :=
  Nat.lt_of_le_of_lt (Nat.le_trans h.base_le h.sbase_le) h.sp_lt

theorem RunsEel.not_inC (h : RunsEel F frames b) : ¬ InC F frames b := by
  rintro (h0 | hc)
  · exact h.1 h0
  · rw [h.2.2] at hc
    cases hc

namespace Open

theorem placed (h : Open F frames c s p b bs) : Placed F frames b := by
  cases h with
  | outermost h _ _ _ _ _ => exact h
  | inner h _ => exact h

theorem order (h : Open F frames c s p b bs) : c ≤ s ∧ s ≤ p ∧ p < b := by
  induction h with
  | outermost h hc hs hp _ _ => exact ⟨hc ▸ hs ▸ h.base_le, hs ▸ hp ▸ h.sbase_le, hp ▸ h.sp_lt⟩
  | inner h _ ih => exact ⟨ih.1, ih.2.1, Nat.lt_trans ih.2.2 h.rBase_lt⟩

theorem head (h : Open F frames c s p b bs) : ∃ bs', bs = b :: bs' := by
  cases h with
  | outermost => exact ⟨[], rfl⟩
  | inner => exact ⟨_, rfl⟩

theorem le_of_mem (h : Open F frames c s p b bs) (ht : t ∈ bs) : t ≤ b := by
  induction h with
  | outermost => exact Nat.le_of_eq (List.mem_singleton.mp ht)
  | inner h _ ih =>
    rcases List.mem_cons.mp ht with rfl | ht
    · exact Nat.le_refl _
    · exact Nat.le_trans (ih ht) (Nat.le_of_lt h.rBase_lt)

/-- Nothing about the frames changes when callframes elsewhere do. -/
theorem congr (h : Open F frames c s p b bs) (hf : ∀ t ≤ b, frames' t = frames t) :
    Open F frames' c s p b bs := by
  have hplaced : ∀ {b}, Placed F frames b → frames' b = frames b → Placed F frames' b := by
    intro b h hb
    refine ⟨⟨h.runs.1, ?_, ?_⟩, ?_, ?_, ?_, ?_⟩ <;> rw [hb]
    · exact h.runs.2.1
    · exact h.runs.2.2
    · exact h.base_le
    · exact h.sbase_le
    · exact h.sp_lt
    · exact h.catcher
  induction h with
  | outermost h hc hs hp hblock hcatcher =>
    have hb := hf _ (Nat.le_refl _)
    exact .outermost (hplaced h hb) (by rwa [hb]) (by rwa [hb]) (by rwa [hb]) (by rwa [hb])
      (by rwa [hb])
  | inner h _ ih =>
    have hb := hf _ (Nat.le_refl _)
    refine .inner (hplaced h hb) ?_
    rw [hb]
    exact ih fun t ht => hf t (Nat.le_trans ht (Nat.le_of_lt h.rBase_lt))

/-- The frame that C code called. -/
theorem exists_outermost (h : Open F frames c s p b bs) : ∃ t ∈ bs, (frames t).rBase = c := by
  induction h with
  | @outermost b _ hc _ _ _ _ => exact ⟨b, List.mem_singleton.mpr rfl, hc⟩
  | inner _ _ ih =>
    obtain ⟨t, ht, hc⟩ := ih
    exact ⟨t, List.mem_cons_of_mem _ ht, hc⟩

/-- The frames from one of them outwards. -/
theorem split (h : Open F frames c s p b bs) (ht : t ∈ bs) :
    ∃ bs₁ bs₂, bs = bs₁ ++ t :: bs₂ ∧ Open F frames c s p t (t :: bs₂) := by
  induction h with
  | outermost h hc hs hp hblock hcatcher =>
    cases List.mem_singleton.mp ht
    exact ⟨[], [], rfl, .outermost h hc hs hp hblock hcatcher⟩
  | @inner b bs h hopen ih =>
    rcases List.mem_cons.mp ht with rfl | ht
    · exact ⟨[], bs, rfl, .inner h hopen⟩
    · obtain ⟨bs₁, bs₂, rfl, hrest⟩ := ih ht
      exact ⟨b :: bs₁, bs₂, rfl, hrest⟩

/-- What is outside the current frame: C code, or the frame it was called from. -/
theorem outer (h : Open F frames c s p b (b :: bs)) :
    (bs = [] ∧ (frames b).rBase = c ∧ (frames b).rSbase = s ∧ (frames b).rSp = p ∧
      ((frames b).isTryBlock || (frames b).isCatcher) = false ∧ (frames b).catcher = none) ∨
      Open F frames c s p (frames b).rBase bs := by
  cases h with
  | outermost _ hc hs hp hblock hcatcher => exact .inl ⟨rfl, hc, hs, hp, hblock, hcatcher⟩
  | inner _ h => exact .inr h

end Open

namespace Vm

variable {vm vm' : Vm}

/-- The argument stack of the frame is above its registers. -/
structure Ordered (vm : Vm) : Prop where
  base_le : vm.base ≤ vm.sbase
  sbase_le : vm.sbase ≤ vm.sp

/-! ## Unwinding open frames -/

theorem unwindFrame_log (h : (vm.callframe vm.base).isCFunc F = false) :
    (vm.unwindFrame F).log = vm.log ++ [.released vm.base] := by
  unfold unwindFrame
  dsimp only
  rw [if_neg (by simp [h]), stackClear_log]
  rfl

/-- The state in which all frames from the current one to `t` have been left. -/
structure Unwound (t : Nat) (left : List Nat) (vm vm' : Vm) : Prop where
  base : vm'.base = (vm.callframe t).rBase
  sbase : vm'.sbase = (vm.callframe t).rSbase
  sbase_le : vm'.sbase ≤ vm'.sp
  sp_le : vm'.sp ≤ (vm.callframe t).rSp
  callframe : vm'.callframe = vm.callframe
  log : vm'.log = vm.log ++ left.map FrameEvent.released

theorem unwindFrame_unwound (h : Placed F vm.callframe vm.base) :
    Unwound vm.base [vm.base] vm (vm.unwindFrame F) :=
  ⟨rfl, rfl, h.sbase_le, Nat.le_refl _, unwindFrame_callframe, unwindFrame_log h.runs.2.2⟩

theorem Unwound.stackClear {left : List Nat} (h : Unwound t left vm vm') :
    Unwound t left vm vm'.stackClear where
  base := stackClear_base.trans h.base
  sbase := stackClear_sbase.trans h.sbase
  sbase_le := Nat.le_of_eq (stackClear_sbase.trans (stackClear_sp h.sbase_le).symm)
  sp_le := by
    rw [stackClear_sp h.sbase_le]
    exact Nat.le_trans h.sbase_le h.sp_le
  callframe := stackClear_callframe.trans h.callframe
  log := stackClear_log.trans h.log

theorem unwindFrames_unwound {bs₁ bs₂ : List Nat} {n : Nat}
    (h : Open F vm.callframe c s p vm.base (bs₁ ++ t :: bs₂)) (hn : vm.base ≤ n) :
    Unwound t (bs₁ ++ [t]) vm (vm.unwindFrames F (vm.callframe t).rBase n) := by
  have hpos : 0 < vm.base := Nat.pos_of_ne_zero h.placed.runs.1
  induction bs₁ generalizing vm n with
  | nil =>
    obtain ⟨bs', hbs⟩ := h.head
    cases hbs
    cases n with
    | zero => exact absurd hn (Nat.not_le_of_lt hpos)
    | succ n =>
      rw [unwindFrames, if_neg (Nat.ne_of_gt h.placed.rBase_lt)]
      have hstop : (vm.unwindFrame F).unwindFrames F (vm.callframe vm.base).rBase n =
          vm.unwindFrame F := by
        cases n with
        | zero => rfl
        | succ n => rw [unwindFrames, if_pos unwindFrame_base]
      rw [hstop]
      exact unwindFrame_unwound h.placed
  | cons b bs₁ ih =>
    obtain ⟨bs', hbs⟩ := h.head
    cases hbs
    have hmem : t ∈ vm.base :: (bs₁ ++ t :: bs₂) := by simp
    obtain ⟨_, hlast⟩ := h.split hmem
    obtain ⟨_, _, hlast⟩ := hlast
    have hne : vm.base ≠ (vm.callframe t).rBase :=
      Nat.ne_of_gt (Nat.lt_of_lt_of_le hlast.placed.rBase_lt (h.le_of_mem hmem))
    have houter : Open F vm.callframe c s p (vm.callframe vm.base).rBase (bs₁ ++ t :: bs₂) := by
      rcases h.outer with ⟨hnil, _⟩ | houter
      · simp at hnil
      · exact houter
    cases n with
    | zero => exact absurd hn (Nat.not_le_of_lt hpos)
    | succ n =>
      rw [unwindFrames, if_neg hne]
      have hle : (vm.unwindFrame F).base ≤ n :=
        Nat.le_of_lt_succ (Nat.lt_of_lt_of_le h.placed.rBase_lt hn)
      have hrest := @ih (vm.unwindFrame F) n (by simpa using houter) hle
        (by simpa using Nat.pos_of_ne_zero houter.placed.runs.1)
      simp only [unwindFrame_callframe] at hrest
      refine ⟨hrest.base.trans (by simp), hrest.sbase.trans (by simp), hrest.sbase_le,
        Nat.le_trans hrest.sp_le (by simp), hrest.callframe.trans (by simp), ?_⟩
      rw [hrest.log, unwindFrame_log h.placed.runs.2.2]
      simp

/-! ## What changes the open frames -/

/-- From `vm` with frames `bs` open to `vm'` with frames `bs'` open. -/
structure Advance (F : ObjId → Function) (c s p : Nat) (vm : Vm) (bs : List Nat) (vm' : Vm)
    (bs' : List Nat) : Prop where
  opened : Open F vm'.callframe c s p vm'.base bs'
  ordered : vm'.Ordered
  frames : ∀ b ≤ p, vm'.callframe b = vm.callframe b
  log : ∃ l, vm'.log = vm.log ++ l ∧ ∀ l', Settling bs' l' → Settling bs (l ++ l')

/-- From `vm` with frames `bs` open back to C code, whose argument stack is empty. -/
structure Finish (c s p : Nat) (vm : Vm) (bs : List Nat) (vm' : Vm) : Prop where
  base : vm'.base = c
  sbase : vm'.sbase = s
  sp : vm'.sp = s
  frames : ∀ b ≤ p, vm'.callframe b = vm.callframe b
  log : ∃ l, vm'.log = vm.log ++ l ∧ Settling bs l

variable {bs' bs'' : List Nat} {vm'' : Vm}

theorem Advance.trans (h : Advance F c s p vm bs vm' bs') (h' : Advance F c s p vm' bs' vm'' bs'') :
    Advance F c s p vm bs vm'' bs'' where
  opened := h'.opened
  ordered := h'.ordered
  frames b hb := (h'.frames b hb).trans (h.frames b hb)
  log := by
    obtain ⟨l, hl, hset⟩ := h.log
    obtain ⟨l', hl', hset'⟩ := h'.log
    refine ⟨l ++ l', by rw [hl', hl, List.append_assoc], fun m hm => ?_⟩
    rw [List.append_assoc]
    exact hset _ (hset' _ hm)

theorem Advance.finish (h : Advance F c s p vm bs vm' bs') (h' : Finish c s p vm' bs' vm'') :
    Finish c s p vm bs vm'' where
  base := h'.base
  sbase := h'.sbase
  sp := h'.sp
  frames b hb := (h'.frames b hb).trans (h.frames b hb)
  log := by
    obtain ⟨l, hl, hset⟩ := h.log
    obtain ⟨l', hl', hset'⟩ := h'.log
    exact ⟨l ++ l', by rw [hl', hl, List.append_assoc], hset _ hset'⟩

/-- Instructions within a frame. -/
theorem Within.advance (h : Within vm vm') (hopen : Open F vm.callframe c s p vm.base bs)
    (hord : vm.Ordered) : Advance F c s p vm bs vm' bs where
  opened := by rwa [h.callframe, h.base]
  ordered := ⟨by rw [h.base, h.sbase]; exact hord.base_le, by rw [h.sbase]; exact h.sp hord.sbase_le⟩
  frames b _ := by rw [h.callframe]
  log := ⟨[], by rw [h.log, List.append_nil], fun _ hl => hl⟩

/-- Leaving frames for one that is open. -/
theorem Unwound.advance {bs₁ bs₂ : List Nat} (h : Unwound t bs₁ vm vm')
    (ht : Placed F vm.callframe t)
    (hopen : Open F vm.callframe c s p (vm.callframe t).rBase bs₂) :
    Advance F c s p vm (bs₁ ++ bs₂) vm' bs₂ where
  opened := by rwa [h.callframe, h.base]
  ordered := ⟨by rw [h.base, h.sbase]; exact ht.base_le, h.sbase_le⟩
  frames b _ := by rw [h.callframe]
  log := ⟨_, h.log, fun _ hl => Closing.pop (fun _ => .inl rfl) hl⟩

/-- Leaving all open frames. -/
theorem Unwound.finish (h : Unwound t bs vm vm') (hbase : (vm.callframe t).rBase = c)
    (hsbase : (vm.callframe t).rSbase = s) (hsp : vm'.sp = s) : Finish c s p vm bs vm' where
  base := h.base.trans hbase
  sbase := h.sbase.trans hsbase
  sp := hsp
  frames b _ := by rw [h.callframe]
  log := by
    have hset : Settling (bs ++ []) (bs.map FrameEvent.released ++ []) :=
      Closing.pop (fun _ => .inl rfl) (.nil .nil)
    simp only [List.append_nil] at hset
    exact ⟨_, h.log, hset⟩

/-- `RETURN` clears the arguments of the function it leaves. -/
theorem popFrame_unwound (h : Placed F vm.callframe vm.base) :
    Unwound vm.base [vm.base] vm vm.popFrame ∧ vm.popFrame.sp = vm.popFrame.sbase := by
  have hpop : Unwound vm.base [vm.base] vm
      { vm.release with
        base := (vm.callframe vm.base).rBase, pc := (vm.callframe vm.base).rPc
        sbase := (vm.callframe vm.base).rSbase, sp := (vm.callframe vm.base).rSp } :=
    ⟨rfl, rfl, h.sbase_le, Nat.le_refl _, rfl, rfl⟩
  refine ⟨hpop.stackClear, ?_⟩
  unfold popFrame
  dsimp only
  rw [stackClear_sp hpop.sbase_le, stackClear_sbase]

/-! ## New frames -/

/-- What `push_frame` and the calls that use it leave. -/
structure Pushed (vm : Vm) (vm' : Vm) : Prop where
  above : vm.sp < vm'.base
  base : (vm'.callframe vm'.base).rBase = vm.base
  sbase : (vm'.callframe vm'.base).rSbase = vm.sbase
  sp : (vm'.callframe vm'.base).rSp = vm.sp
  ordered : vm'.Ordered
  frames : ∀ b ≠ vm'.base, vm'.callframe b = vm.callframe b
  log : vm'.log = vm.log ++ [.pushed vm'.base]

theorem pushFrame_pushed (vm : Vm) (cleansize framesize : Nat) :
    Pushed vm (vm.pushFrame cleansize framesize) := by
  refine ⟨?_, ?_, ?_, ?_, ⟨?_, ?_⟩, fun b hb => ?_, rfl⟩
  · exact Nat.lt_of_lt_of_le (Nat.lt_add_of_pos_right (by decide : 0 < cfRegs))
      (Nat.add_le_add_right (Nat.le_add_right _ _) _)
  · simp [pushFrame]
  · simp [pushFrame]
  · simp [pushFrame]
  · exact Nat.le_add_right _ _
  · exact Nat.le_refl _
  · exact Function.update_of_ne hb _ _

/-- Setting up the rest of a new callframe. -/
theorem Pushed.modifyFrame (h : Pushed vm vm') {f : Callframe → Callframe}
    (hf : ∀ cf, (f cf).rBase = cf.rBase ∧ (f cf).rSbase = cf.rSbase ∧ (f cf).rSp = cf.rSp) :
    Pushed vm (vm'.modifyFrame f) where
  above := h.above
  base := by simpa [Vm.modifyFrame, (hf _).1] using h.base
  sbase := by simpa [Vm.modifyFrame, (hf _).2.1] using h.sbase
  sp := by simpa [Vm.modifyFrame, (hf _).2.2] using h.sp
  ordered := ⟨h.ordered.base_le, h.ordered.sbase_le⟩
  frames b hb := (Function.update_of_ne hb _ _).trans (h.frames b hb)
  log := h.log

theorem callEel_pushed (vm : Vm) (fo : ObjId) (result : Option Nat) (levels : Nat) :
    Pushed vm (vm.callEel F fo result levels) ∧
      (let cf := (vm.callEel F fo result levels).callframe (vm.callEel F fo result levels).base
       cf.f = some fo ∧ cf.catcher = none ∧ cf.isTryBlock = false ∧ cf.isCatcher = false) := by
  refine ⟨?_, ?_⟩
  · have h := (pushFrame_pushed vm (F fo).cleansize (F fo).framesize).modifyFrame (f := fun cf =>
        { cf with
          result := if (F fo).results then result else none
          upvalues :=
            if levels = 0 then
              ((vm.pushFrame (F fo).cleansize (F fo).framesize).callframe
                (vm.pushFrame (F fo).cleansize (F fo).framesize).base).upvalues
            else (vm.pushFrame (F fo).cleansize (F fo).framesize).uvBase (levels + 1)
          isTryBlock := false
          isCatcher := false
          isUntry := false
          f := some fo
          catcher := none }) fun _ => ⟨rfl, rfl, rfl⟩
    exact ⟨h.above, h.base, h.sbase, h.sp, ⟨h.ordered.base_le, h.ordered.sbase_le⟩, h.frames, h.log⟩
  · simp [callEel, modifyFrame]

theorem callCatcher_pushed (vm : Vm) (fo : ObjId) :
    Pushed vm (vm.callCatcher F fo) ∧
      (let cf := (vm.callCatcher F fo).callframe (vm.callCatcher F fo).base
       cf.f = some fo ∧ cf.catcher = none) := by
  obtain ⟨hpush, hframe⟩ := callEel_pushed (F := F) vm fo (vm.callframe vm.base).result 0
  have h := hpush.modifyFrame (f := fun cf => { cf with isCatcher := true })
    fun _ => ⟨rfl, rfl, rfl⟩
  refine ⟨⟨h.above, h.base, h.sbase, h.sp, ⟨h.ordered.base_le, h.ordered.sbase_le⟩, h.frames,
    h.log⟩, ?_⟩
  simpa [callCatcher, modifyFrame] using ⟨hframe.1, hframe.2.1⟩

theorem enterBlock_pushed (E : Env) (vm : Vm) (block : Value) (catcher : Option ObjId)
    (untry : Bool) :
    Pushed vm (vm.enterBlock E block catcher untry) ∧
      (let cf := (vm.enterBlock E block catcher untry).callframe
        (vm.enterBlock E block catcher untry).base
       cf.f = some (block.obj?.getD 0) ∧ cf.catcher = catcher) := by
  obtain ⟨hpush, hframe⟩ := callEel_pushed (F := E.function) vm (block.obj?.getD 0)
    (vm.callframe vm.base).result 0
  refine ⟨hpush.modifyFrame (f := fun cf =>
    { cf with catcher := catcher, isTryBlock := true, isUntry := untry })
    fun _ => ⟨rfl, rfl, rfl⟩, ?_⟩
  simpa [enterBlock, modifyFrame] using hframe.1

theorem enterC_pushed (vm : Vm) (fo : ObjId) (result : Option Nat) :
    Pushed vm (vm.enterC fo result) ∧
      ((vm.enterC fo result).callframe (vm.enterC fo result).base).f = some fo := by
  have h := (pushFrame_pushed vm 0 1).modifyFrame
    (f := fun cf =>
      { cf with
        result := some (result.getD (vm.pushFrame 0 1).base)
        isTryBlock := false
        isCatcher := false
        isUntry := false
        f := some fo
        catcher := none }) fun _ => ⟨rfl, rfl, rfl⟩
  refine ⟨⟨h.above, h.base, h.sbase, h.sp, ⟨h.ordered.base_le, h.ordered.sbase_le⟩, h.frames,
    h.log⟩, ?_⟩
  simp [enterC, modifyFrame]

theorem Pushed.placed (h : Pushed vm vm') (hord : vm.Ordered)
    (hruns : (vm'.callframe vm'.base).f ≠ none ∧ (vm'.callframe vm'.base).isCFunc F = false)
    (hcatcher : ∀ fo, (vm'.callframe vm'.base).catcher = some fo → (F fo).cfunc = false) :
    Placed F vm'.callframe vm'.base where
  runs := ⟨Nat.ne_of_gt (Nat.lt_of_le_of_lt (Nat.zero_le _) h.above), hruns.1, hruns.2⟩
  base_le := by rw [h.base, h.sbase]; exact hord.base_le
  sbase_le := by rw [h.sbase, h.sp]; exact hord.sbase_le
  sp_lt := by rw [h.sp]; exact h.above
  catcher := hcatcher

/-- An EEL function called from an open frame. -/
theorem Pushed.advance (h : Pushed vm vm') (hopen : Open F vm.callframe c s p vm.base bs)
    (hord : vm.Ordered) (hplaced : Placed F vm'.callframe vm'.base) :
    Advance F c s p vm bs vm' (vm'.base :: bs) where
  opened := by
    refine .inner hplaced ?_
    rw [h.base]
    refine hopen.congr fun t ht => h.frames t (Nat.ne_of_lt (Nat.lt_of_le_of_lt ht ?_))
    exact Nat.lt_of_le_of_lt (Nat.le_trans hord.base_le hord.sbase_le) h.above
  ordered := h.ordered
  frames b hb := by
    refine h.frames b (Nat.ne_of_lt (Nat.lt_of_le_of_lt hb (Nat.lt_trans hopen.order.2.2 ?_)))
    exact Nat.lt_of_le_of_lt (Nat.le_trans hord.base_le hord.sbase_le) h.above
  log := ⟨[.pushed vm'.base], h.log, fun _ hl => hl.push⟩

/-- An EEL function called from C code. -/
theorem Pushed.opened (h : Pushed vm vm') (hplaced : Placed F vm'.callframe vm'.base)
    (hblock : ((vm'.callframe vm'.base).isTryBlock || (vm'.callframe vm'.base).isCatcher) = false)
    (hcatcher : (vm'.callframe vm'.base).catcher = none) :
    Open F vm'.callframe vm.base vm.sbase vm.sp vm'.base [vm'.base] :=
  .outermost hplaced h.base h.sbase h.sp hblock hcatcher

end Vm

end Eel
