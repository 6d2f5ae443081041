-- SUMMARY: Exceptions: throwing values and codes, and the scheduler that decides where an exception goes.
import Eel.Vm.Frame

/-!
# The scheduler
-/

namespace Eel

namespace Xno

/-- What `call_do_run` makes of the code `eel_run` returned: `none` to run on,
else what the caller gets. -/
def doRun (x : Xno) : Option Xno :=
  if x = Xno.ok ∨ x = Xno.yield then none
  else if x = Xno.end then some Xno.ok
  else some x

/-- Whether a run that returns this code ends with an error. -/
def IsError (x : Xno) : Prop := x.doRun = some x

instance (x : Xno) : Decidable x.IsError := inferInstanceAs (Decidable (_ = _))

end Xno

namespace Vm

variable (F : ObjId → Function) (vm : Vm)

/-- `eel__throw`. -/
def throwXno (x : Xno) : Vm :=
  { vm with store := { vm.store.disown vm.store.exception with exception := .integer x } }

/-- Figure out what the exception is about. -/
def exceptionXno : Value → Xno
  | .nil => Xno.yield
  | .integer v => v
  | .real _ | .boolean _ | .classid _ | .objref _ | .weakref _ _ => Xno.other

/-- The frame that `EEL_XRETURN` returns from: the first that is neither a try block
nor a catcher, in at most `n` frames from `b`. -/
def returningFrame (b : Nat) : Nat → Nat
  | 0 => b
  | n + 1 =>
    let cf := vm.callframe b
    if cf.isTryBlock || cf.isCatcher then returningFrame cf.rBase n else b

/-- The search for the nearest catcher, in at most `n` frames from `b`: the frame
that has it, or the base to unwind to. -/
def findCatcher (x : Xno) (b : Nat) : Nat → Nat × Option ObjId
  | 0 => (b, none)
  | n + 1 =>
    let cf := vm.callframe b
    if b = 0 ∨ cf.f = none ∨ cf.isCFunc F ∨ cf.isUntry then (b, none)
    else
      match cf.catcher with
      | some catcher =>
        if x = Xno.internal then findCatcher x cf.rBase n else (b, some catcher)
      | none => findCatcher x cf.rBase n

/-- The end of `eel__scheduler`: back to the VM loop. -/
def resume : Xno × Vm := (if (vm.callframe vm.base).isCFunc F then Xno.end else Xno.ok, vm)

/-- `EEL_XRETURN`: leave the current function from within a try or except block. -/
def scheduleReturn : Xno × Vm :=
  let result := (vm.callframe vm.base).result
  let base := (vm.callframe (vm.returningFrame vm.base vm.base)).rBase
  let vm := (vm.unwind F base).stackClear
  if vm.base = 0 ∨ (vm.callframe base).isCFunc F then (Xno.end, vm)
  else
    match result with
    | none => vm.resume F
    | some ri =>
      { vm with store := vm.store.receive vm.base (vm.store.heap ri) }.resume F

/-- The other codes: try to find the nearest catcher, or give up. -/
def scheduleException (x : Xno) : Xno × Vm :=
  match vm.findCatcher F x vm.base vm.base with
  | (b, some catcher) =>
    let vm := (vm.unwind F (vm.callframe b).rBase).callCatcher F catcher
    -- Cleaning for exception value.
    (Xno.ok, { vm with
      cleantab := Function.update vm.cleantab vm.base (0 :: vm.cleantab vm.base) })
  | (b, none) => (x, vm.unwind F b)

/-- `eel__scheduler`. Returns a non-zero code if it is time to leave the VM loop. -/
def scheduler : Xno × Vm :=
  let x := exceptionXno vm.store.exception
  if x = Xno.ok ∨ x = Xno.yield then vm.resume F
  else if x = Xno.end then (Xno.end, vm)
  else if x = Xno.return then vm.scheduleReturn F
  else vm.scheduleException F x

/-- `THROW` of `v` up to `RESCHEDULE`. -/
def throwValue (v : Value) : Vm :=
  let s := vm.store.disown vm.store.exception
  { vm with store := ({ s with exception := v.copy }).own v.copy }

/-- `THROW`. -/
def execThrow (a : Nat) : Xno × Vm := (vm.throwValue (vm.register a)).scheduler F

end Vm

end Eel
