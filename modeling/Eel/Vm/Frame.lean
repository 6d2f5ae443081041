-- SUMMARY: Callframes and the VM registers: calling EEL functions, cleaning frames up, and unwinding.
import Eel.Core.Store

/-!
# Callframes

The heap has room for whatever is pushed. A callframe is found by the base of
its register frame, as in the source; base 0 is the initial state, which has none.
-/

namespace Eel

/-- `EEL_function`, without the constants, which are the values of its object. -/
structure Function where
  /-- `EEL_FF_CFUNC`. -/
  cfunc : Bool
  /-- `EEL_FF_RESULTS`. -/
  results : Bool
  reqargs : Nat
  optargs : Nat
  tupargs : Nat
  /-- Constant indexes of the defaults, negative for none. -/
  argdefaults : Option (List Int)
  framesize : Nat
  cleansize : Nat
  «module» : ObjId

/-- `EEL_callframe`. The limbo list is in the store, the clean table with the VM. -/
structure Callframe where
  -- Return info
  rBase : Nat
  rPc : Nat
  rSp : Nat
  rSbase : Nat
  -- Current context
  f : Option ObjId
  argv : Nat
  argc : Nat
  /-- Heap index of the result, if it is wanted. -/
  result : Option Nat
  upvalues : Nat
  /-- `EEL_CFF_TRYBLOCK`. -/
  isTryBlock : Bool
  /-- `EEL_CFF_CATCHER`. -/
  isCatcher : Bool
  /-- `EEL_CFF_UNTRY`. -/
  isUntry : Bool
  -- Exception handling
  catcher : Option ObjId
  deriving DecidableEq

/-- Whether the frame runs a C function: `EEL_FF_CFUNC`. -/
def Callframe.isCFunc (F : ObjId → Function) (cf : Callframe) : Bool :=
  (cf.f.map F).any Function.cfunc

/-- What happens to frames, for the record. -/
inductive FrameEvent where
  | pushed (base : Nat)
  /-- The clean table and the limbo list were released. -/
  | released (base : Nat)
  /-- The frame of a C function was given up, with these objects in its limbo list. -/
  | dropped (base : Nat) (limbo : List ObjId)
  deriving DecidableEq

/-- `EEL_vm`. -/
structure Vm where
  store : Store
  base : Nat
  sp : Nat
  sbase : Nat
  pc : Nat
  -- Where a C function finds its result and its arguments
  resv : Nat
  argv : Nat
  argc : Nat
  callframe : Nat → Callframe
  /-- The clean tables by the base of their frames, the last entry first. -/
  cleantab : Nat → List Nat
  /-- The events so far. The source keeps no such record, and nothing reads it. -/
  log : List FrameEvent

namespace Vm

/-- `EEL_VALUE_SIZE`. -/
def valueSize : Nat := 16

/-- `EEL_CFREGS`. -/
def cfRegs : Nat := 4

variable (F : ObjId → Function) (vm : Vm)

/-- `R[a]`. -/
def register (a : Nat) : Value := vm.store.heap (vm.base + a)

/-! ## Cleaning up -/

/-- The loop of `stack_clear`, for `n` items. -/
def dropArgs : Nat → Vm → Vm
  | 0, vm => vm
  | n + 1, vm =>
    dropArgs n { vm with
      sp := vm.sp - 1
      store := vm.store.disown (vm.store.heap (vm.sp - 1)) }

/-- `stack_clear`. -/
def stackClear : Vm := dropArgs (vm.sp - vm.sbase) vm

/-- `clean`. -/
def clean (downto : Nat) : Vm :=
  let ctab := vm.cleantab vm.base
  let n := ctab.length - downto
  { vm with
    store := (ctab.take n).foldl (fun s r => s.disown (s.heap (vm.base + r))) vm.store
    cleantab := Function.update vm.cleantab vm.base (ctab.drop n) }

/-- The loop of `limbo_clean`. Every turn takes at least one object off the list. -/
def dropLimbo (base : Nat) : Nat → Store → Store
  | 0, s => s
  | n + 1, s =>
    match s.limbo base with
    | [] => s
    | o :: _ => dropLimbo base n ((s.limboUnlink o).disown (.objref o))

/-- `limbo_clean`. -/
def limboClean : Vm :=
  { vm with store := dropLimbo vm.base (vm.store.limbo vm.base).length vm.store }

/-- `clean` and `limbo_clean`, as they stand wherever an EEL function is left. -/
def release : Vm :=
  { (vm.clean 0).limboClean with log := vm.log ++ [.released vm.base] }

/-! ## Calls -/

/-- `push_frame`. -/
def pushFrame (cleansize framesize : Nat) : Vm :=
  let base := vm.sp + (cleansize + valueSize) / valueSize + cfRegs
  { vm with
    callframe := Function.update vm.callframe base
      { vm.callframe base with
        rPc := vm.pc
        rBase := vm.base
        rSp := vm.sp
        rSbase := vm.sbase
        argv := vm.sbase
        argc := vm.sp - vm.sbase
        upvalues := vm.base }
    cleantab := Function.update vm.cleantab base []
    store := { vm.store with limbo := Function.update vm.store.limbo base [] }
    base := base
    sp := base + framesize
    sbase := base + framesize
    log := vm.log ++ [.pushed base] }

/-- `get_uv_base`. -/
def uvBase : Nat → Nat
  | 0 => vm.base
  | uvlevel + 1 => (vm.callframe (uvBase uvlevel)).upvalues

def modifyFrame (f : Callframe → Callframe) : Vm :=
  { vm with callframe := Function.update vm.callframe vm.base (f (vm.callframe vm.base)) }

/-- `call_eel`. -/
def callEel (fo : ObjId) (result : Option Nat) (levels : Nat) : Vm :=
  let vm := vm.pushFrame (F fo).cleansize (F fo).framesize
  let upvalues :=
    if levels = 0 then (vm.callframe vm.base).upvalues else vm.uvBase (levels + 1)
  { vm.modifyFrame fun cf =>
      { cf with
        result := if (F fo).results then result else none
        upvalues := upvalues
        isTryBlock := false
        isCatcher := false
        isUntry := false
        f := some fo
        catcher := none } with
    pc := 0 }

/-- `call_catcher`, which gives the exception to the catcher. -/
def callCatcher (catcher : ObjId) : Vm :=
  let result := (vm.callframe vm.base).result
  let vm := vm.callEel F catcher result 0
  { vm.modifyFrame fun cf => { cf with isCatcher := true } with
    store := { vm.store.setHeap vm.base vm.store.exception with exception := .nil } }

/-! ## Unwinding -/

/-- One turn of `unwind`: leave the current frame. -/
def unwindFrame : Vm :=
  let cf := vm.callframe vm.base
  let vm := if cf.isCFunc F then vm else vm.release
  let vm := vm.stackClear
  { vm with base := cf.rBase, pc := cf.rPc, sbase := cf.rSbase, sp := cf.rSp }

/-- The loop of `unwind`, for at most `n` frames. -/
def unwindFrames (target : Nat) : Nat → Vm → Vm
  | 0, vm => vm
  | n + 1, vm =>
    if vm.base = target then vm else unwindFrames target n (vm.unwindFrame F)

/-- `unwind`. A frame is above the one it returns to, so there are at most `base`
frames to leave. -/
def unwind (target : Nat) : Vm := vm.unwindFrames F target vm.base

/-! ## What cleaning up leaves alone -/

variable {F : ObjId → Function} {vm : Vm} {n target : Nat}

theorem dropArgs_eq :
    dropArgs n vm = { vm with sp := vm.sp - n, store := (dropArgs n vm).store } := by
  induction n generalizing vm with
  | zero => rfl
  | succ n ih =>
    rw [dropArgs, ih]
    simp only [Nat.sub_sub, Nat.add_comm 1 n]

@[simp] theorem stackClear_base : vm.stackClear.base = vm.base := by rw [stackClear, dropArgs_eq]

@[simp] theorem stackClear_pc : vm.stackClear.pc = vm.pc := by rw [stackClear, dropArgs_eq]

@[simp] theorem stackClear_sbase : vm.stackClear.sbase = vm.sbase := by
  rw [stackClear, dropArgs_eq]

@[simp] theorem stackClear_callframe : vm.stackClear.callframe = vm.callframe := by
  rw [stackClear, dropArgs_eq]

@[simp] theorem stackClear_cleantab : vm.stackClear.cleantab = vm.cleantab := by
  rw [stackClear, dropArgs_eq]

@[simp] theorem stackClear_log : vm.stackClear.log = vm.log := by rw [stackClear, dropArgs_eq]

theorem stackClear_sp (h : vm.sbase ≤ vm.sp) : vm.stackClear.sp = vm.sbase := by
  rw [stackClear, dropArgs_eq]
  exact Nat.sub_sub_self h

@[simp] theorem unwindFrame_callframe : (vm.unwindFrame F).callframe = vm.callframe := by
  unfold unwindFrame
  dsimp only
  split <;> simp [release, clean, limboClean]

@[simp] theorem unwindFrame_base :
    (vm.unwindFrame F).base = (vm.callframe vm.base).rBase := rfl

@[simp] theorem unwindFrame_pc : (vm.unwindFrame F).pc = (vm.callframe vm.base).rPc := rfl

@[simp] theorem unwindFrames_callframe :
    (vm.unwindFrames F target n).callframe = vm.callframe := by
  induction n generalizing vm with
  | zero => rfl
  | succ n ih =>
    unfold unwindFrames
    split
    · rfl
    · rw [ih, unwindFrame_callframe]

@[simp] theorem unwind_callframe : (vm.unwind F target).callframe = vm.callframe :=
  unwindFrames_callframe

/-- A property of the store that survives all that cleaning up does to it. -/
structure Survives (P : Store → Prop) : Prop where
  disown : ∀ s v, P s → P (s.disown v)
  unlink : ∀ s o, P s → P (s.limboUnlink o)

namespace Survives

variable {P : Store → Prop}

theorem dropArgs (hP : Survives P) (h : P vm.store) : P (dropArgs n vm).store := by
  induction n generalizing vm with
  | zero => exact h
  | succ n ih => exact @ih { vm with sp := _, store := _ } (hP.disown _ _ h)

theorem stackClear (hP : Survives P) (h : P vm.store) : P vm.stackClear.store := hP.dropArgs h

theorem clean (hP : Survives P) (h : P vm.store) : P (vm.clean n).store := by
  unfold Vm.clean
  dsimp only
  generalize List.take _ _ = regs
  generalize vm.store = s at h
  induction regs generalizing s with
  | nil => exact h
  | cons r regs ih => exact ih _ (hP.disown _ _ h)

theorem limboClean (hP : Survives P) (h : P vm.store) : P vm.limboClean.store := by
  unfold Vm.limboClean
  dsimp only
  generalize List.length _ = n
  generalize vm.store = s at h
  induction n generalizing s with
  | zero => exact h
  | succ n ih =>
    unfold dropLimbo
    split
    · exact h
    · exact ih _ (hP.disown _ _ (hP.unlink _ _ h))

theorem release (hP : Survives P) (h : P vm.store) : P vm.release.store :=
  hP.limboClean (hP.clean h)

theorem unwindFrame (hP : Survives P) (h : P vm.store) : P (vm.unwindFrame F).store := by
  unfold Vm.unwindFrame
  dsimp only
  split
  · exact hP.stackClear h
  · exact hP.stackClear (hP.release h)

theorem unwind (hP : Survives P) (h : P vm.store) : P (vm.unwind F target).store := by
  unfold Vm.unwind
  generalize vm.base = n
  induction n generalizing vm with
  | zero => exact h
  | succ n ih =>
    unfold unwindFrames
    split
    · exact h
    · exact ih (hP.unwindFrame h)

end Survives

end Vm

end Eel
