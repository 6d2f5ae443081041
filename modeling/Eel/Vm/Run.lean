-- SUMMARY: Calls and returns, the VM loop, and C functions that call back into the VM.
import Eel.Vm.Exec
import Eel.Vm.Scheduler

/-!
# Running functions

`perform` runs the VM loop, the functions it calls, and the C functions that call
functions in turn. It gives nothing when `fuel` turns are not enough.
-/

namespace Eel

/-- A value that `eel_argf` pushes, or another thing it does. -/
inductive ArgItem where
  /-- `*`. -/
  | reset
  /-- `R`. -/
  | result
  /-- `n`, `i`, `r`, `b`, and `s`, where the stack becomes the owner of the new string. -/
  | raw (v : Value)
  /-- `o` and `v`. -/
  | copy (v : Value)

/-- A C function, as far as the VM can tell: what it does next, and how it goes on. -/
inductive Host where
  | ret (x : Xno)
  | look (k : Vm → Host)
  /-- Work on values and objects. -/
  | act (s : Store) (k : Host)
  | argf (item : ArgItem) (k : Host)
  | call (fo : ObjId) (k : Xno → Host)

/-- What the VM loop does after an instruction. -/
inductive Step where
  | next (vm : Vm)
  /-- `RETURN`, straight to the C caller. -/
  | leave (x : Xno) (vm : Vm)
  /-- `RESCHEDULE`. -/
  | schedule (vm : Vm)
  /-- `XCHECK(call_f(..))`. -/
  | call (fo : ObjId) (result : Option Nat) (levels : Nat) (vm : Vm)

namespace Vm

variable (E : Env) (vm : Vm)

/-! ## Calls and returns -/

/-- `get_function`. -/
def getFunction (ref : Value) : Except Xno ObjId :=
  match ref.obj? with
  | none => .error Xno.needObject
  | some fo => if E.callable fo then .ok fo else .error Xno.needCallable

/-- `check_args`. -/
def checkArgs (fo : ObjId) : Xno :=
  let f := E.function fo
  let argc := vm.sp - vm.sbase
  if argc < f.reqargs then Xno.fewArgs
  else if f.tupargs ≠ 0 then
    if f.reqargs + f.optargs ≤ argc ∧ (argc - f.reqargs - f.optargs) % f.tupargs ≠ 0 then
      Xno.tupleArgs
    else Xno.ok
  else if f.reqargs + f.optargs < argc then Xno.manyArgs
  else Xno.ok

/-- `CALL` and `CALLR`. -/
def stepCall (ref : Value) (result : Option Nat) : Step :=
  match getFunction E ref with
  | .error x => .schedule (vm.throwXno x)
  | .ok fo =>
    if vm.checkArgs E fo = Xno.ok then .call fo result 0 vm
    else .schedule (vm.throwXno (vm.checkArgs E fo))

/-- `RETURN` and `RETURNR` from where they clean up. -/
def popFrame : Vm :=
  let cf := vm.callframe vm.base
  ({ vm.release with
    base := cf.rBase, pc := cf.rPc, sbase := cf.rSbase, sp := cf.rSp }).stackClear

/-- `RETURN`. -/
def stepReturn : Step :=
  let vm := vm.popFrame
  if vm.base = 0 ∨ (vm.callframe vm.base).isCFunc E.function then .leave Xno.end vm
  else .next vm

/-- `RETURNR`. -/
def stepReturnr (a : Nat) : Step :=
  match (vm.callframe vm.base).result with
  | none => vm.stepReturn E
  | some ri =>
    match ({ vm with store := vm.store.copy ri (vm.register a) }).stepReturn E with
    | .next vm => .next { vm with store := vm.store.receive vm.base (vm.store.heap ri) }
    | r => r

/-- `TRY` and `UNTRY`: call the block, with these flags. -/
def enterBlock (block : Value) (catcher : Option ObjId) (untry : Bool) : Vm :=
  let result := (vm.callframe vm.base).result
  (vm.callEel E.function (block.obj?.getD 0) result 0).modifyFrame fun cf =>
    { cf with catcher := catcher, isTryBlock := true, isUntry := untry }

/-- `RETRY`. -/
def retry : Vm :=
  let cf := vm.callframe vm.base
  { vm.release with
    base := cf.rBase
    sbase := cf.rSbase
    sp := cf.rSp
    -- Back up and rerun the TRY!
    pc := cf.rPc - (Instr.«try» 0 0).size }

/-- The instruction at `pc`. -/
def fetch : Instr := E.code (vm.fo vm.base) vm.pc

/-- One instruction, with `pc` behind it. -/
def execute (i : Instr) : Step :=
  match i with
  | .call a => vm.stepCall E (vm.register a) none
  | .callr a b => vm.stepCall E (vm.register a) (some (vm.base + b))
  | .ccall a b => .call ((vm.constant (vm.fo vm.base) b).obj?.getD 0) none a vm
  | .ccallr a b c =>
    .call ((vm.constant (vm.fo vm.base) c).obj?.getD 0) (some (vm.base + b)) a vm
  | .«return» => vm.stepReturn E
  | .returnr a => vm.stepReturnr E a
  | .«try» a b =>
    let catcher := (vm.constant (vm.fo vm.base) a).obj?.getD 0
    .next (vm.enterBlock E (vm.constant (vm.fo vm.base) b) (some catcher) false)
  | .untry a => .next (vm.enterBlock E (vm.constant (vm.fo vm.base) a) none true)
  | .throw a => .schedule (vm.throwValue (vm.register a))
  | .retry => .next vm.retry
  | .retx => .schedule (vm.throwXno Xno.return)
  | .retxr a =>
    match (vm.callframe vm.base).result with
    | none => .schedule (vm.throwXno Xno.return)
    | some ri =>
      .schedule (({ vm with store := vm.store.copy ri (vm.register a) }).throwXno Xno.return)
  | i =>
    match vm.exec E i with
    | .next vm => .next vm
    | .thrown x vm => .schedule (vm.throwXno x)

/-- One turn of the VM loop. -/
def step : Step := ({ vm with pc := vm.pc + (vm.fetch E).size }).execute E (vm.fetch E)

/-! ## C functions -/

/-- `reset_args`. -/
def resetArgs : Vm :=
  let vm := vm.stackClear
  { vm with store := vm.store.setHeap vm.base .nil }

/-- One item of `eel_argf`. -/
def argf : ArgItem → Vm
  | .reset => vm.resetArgs
  | .result => { vm with store := vm.store.setHeap vm.base (.boolean 1) }
  | .raw v => vm.pushRaw v
  | .copy v => vm.push v

/-- `call_c` up to the call of the C function. -/
def enterC (fo : ObjId) (result : Option Nat) : Vm :=
  let vm := vm.pushFrame 0 1
  let vm := { vm with store := vm.store.setHeap vm.base .nil }
  let vm := vm.modifyFrame fun cf =>
    { cf with
      result := some (result.getD vm.base)
      isTryBlock := false
      isCatcher := false
      isUntry := false
      f := some fo
      catcher := none }
  let cf := vm.callframe vm.base
  { vm with resv := result.getD vm.base, argv := cf.argv, argc := cf.argc }

/-- `call_c` from where the C function has returned `x`. -/
def leaveC (fo : ObjId) (result : Option Nat) (x : Xno) : Vm :=
  let cf := vm.callframe vm.base
  let left := FrameEvent.dropped vm.base (vm.store.limbo vm.base)
  let vm := if x = Xno.ok then vm else vm.stackClear
  -- "Fake" return
  let vm := { vm with
    base := cf.rBase, sp := cf.rSp, sbase := cf.rSbase, log := vm.log ++ [left] }
  let vm := vm.stackClear
  if x = Xno.ok ∧ (E.function fo).results then
    let v := vm.store.heap (cf.result.getD 0)
    if result.isSome then { vm with store := vm.store.receive vm.base v }
    else { vm with store := vm.store.disown v }
  else vm

end Vm

/-! ## Runs -/

/-- What there is to perform. -/
inductive Task where
  /-- The VM loop. -/
  | loop
  /-- `eel__scheduler`, and the VM loop if it goes on. -/
  | schedule
  /-- `eel_run`. -/
  | run
  /-- `call_do_run`. -/
  | doRun
  /-- `call_f`. -/
  | callF (fo : ObjId) (result : Option Nat) (levels : Nat)
  /-- A C function. -/
  | host (p : Host)
  /-- `eel_call`. -/
  | call (fo : ObjId)

/-- The states that a run passes through, before it does what the name says. -/
inductive Point where
  | fetch (vm : Vm)
  | schedule (vm : Vm)
  | call (fo : ObjId) (vm : Vm)
  | leaveC (vm : Vm)

structure Result where
  x : Xno
  vm : Vm
  trace : List Point

def Result.after (trace : List Point) (r : Result) : Result :=
  { r with trace := trace ++ r.trace }

def perform (E : Env) (C : ObjId → Host) : Nat → Task → Vm → Option Result
  | 0, _, _ => none
  | fuel + 1, .loop, vm =>
    match vm.step E with
    | .next vm' => (perform E C fuel .loop vm').map (.after [.fetch vm])
    | .leave x vm' => some ⟨x, vm', [.fetch vm]⟩
    | .schedule vm' => (perform E C fuel .schedule vm').map (.after [.fetch vm])
    | .call fo result levels vm' =>
      (perform E C fuel (.callF fo result levels) vm').bind fun r =>
        if r.x = Xno.ok then
          (perform E C fuel .loop r.vm).map (.after (.fetch vm :: r.trace))
        else
          (perform E C fuel .schedule (r.vm.throwXno r.x)).map (.after (.fetch vm :: r.trace))
  | fuel + 1, .schedule, vm =>
    let (x, vm') := vm.scheduler E.function
    if x = Xno.ok then (perform E C fuel .loop vm').map (.after [.schedule vm])
    else some ⟨x, vm', [.schedule vm]⟩
  | fuel + 1, .run, vm =>
    if vm.base = 0 then some ⟨Xno.end, vm, []⟩
    else
      perform E C fuel .loop
        { vm with store := { vm.store.disown vm.store.exception with exception := .nil } }
  | fuel + 1, .doRun, vm =>
    (perform E C fuel .run vm).bind fun r =>
      match r.x.doRun with
      | none => (perform E C fuel .doRun r.vm).map (.after r.trace)
      | some x => some { r with x := x }
  | fuel + 1, .callF fo result levels, vm =>
    if result.isSome ∧ ¬ (E.function fo).results then some ⟨Xno.noResult, vm, []⟩
    else if (E.function fo).cfunc then
      (perform E C fuel (.host (C fo)) (vm.enterC fo result)).map fun r =>
        ⟨r.x, r.vm.leaveC E fo result r.x, r.trace ++ [.leaveC r.vm]⟩
    else some ⟨Xno.ok, vm.callEel E.function fo result levels, []⟩
  | _ + 1, .host (.ret x), vm => some ⟨x, vm, []⟩
  | fuel + 1, .host (.look k), vm => perform E C fuel (.host (k vm)) vm
  | fuel + 1, .host (.act s k), vm => perform E C fuel (.host k) { vm with store := s }
  | fuel + 1, .host (.argf item k), vm => perform E C fuel (.host k) (vm.argf item)
  | fuel + 1, .host (.call fo k), vm =>
    (perform E C fuel (.call fo) vm).bind fun r =>
      (perform E C fuel (.host (k r.x)) r.vm).map (.after r.trace)
  | fuel + 1, .call fo, vm =>
    if ¬ E.callable fo then some ⟨Xno.needCallable, vm, [.call fo vm]⟩
    else if vm.checkArgs E fo ≠ Xno.ok then
      some ⟨vm.checkArgs E fo, vm.resetArgs, [.call fo vm]⟩
    else
      let result := if vm.store.heap vm.base = .nil then none else some vm.base
      (perform E C fuel (.callF fo result 0) vm).bind fun r =>
        (if r.x = Xno.ok ∧ ¬ (E.function fo).cfunc then perform E C fuel .doRun r.vm
          else some { r with trace := [] }).map fun r' =>
        ⟨r'.x, { r'.vm with resv := vm.resv, argv := vm.argv, argc := vm.argc },
          .call fo vm :: (r.trace ++ r'.trace)⟩

theorem perform_zero {E : Env} {C : ObjId → Host} {task : Task} {vm : Vm} : perform E C 0 task vm = none := by
  rw [perform]

end Eel
