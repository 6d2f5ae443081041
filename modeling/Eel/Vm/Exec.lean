-- SUMMARY: What every instruction does that neither calls a function, nor leaves one, nor raises an exception by itself.
import Eel.Vm.Frame
import Eel.Vm.Instr
import Mathlib.Algebra.Group.Nat.Defs

/-!
# Instructions within a frame

`pc` is behind the instruction. Operators, casts, constructors and the metamethods
of classes are given: they work on values and objects.
-/

namespace Eel

/-- The exception or value of a metamethod, and what it made of the store. -/
abbrev OpResult := Except Xno Value × Store

/-- What the VM loop takes from the rest of the program. -/
structure Env where
  function : ObjId → Function
  /-- Whether the object is a function: `EEL_CFUNCTION`. -/
  callable : ObjId → Bool
  /-- The instruction at an address in the code of a function. -/
  code : ObjId → Nat → Instr
  /-- `eel_operate`. -/
  operate : Operator → Value → Value → Store → OpResult
  /-- `eel_ipoperate`. -/
  ipoperate : Operator → Value → Value → Store → OpResult
  /-- `eel_op_neg` and the other unary operators. -/
  unary : Operator → Value → Store → OpResult
  /-- `eel_cast`. -/
  cast : Value → BitVec 32 → Store → OpResult
  /-- `eel_o__construct`, with the arguments. -/
  construct : Nat → List Value → Store → OpResult
  /-- `EEL_MM_GETINDEX`. -/
  getindex : ObjId → Value → Store → OpResult
  /-- `EEL_MM_SETINDEX`: object, key and value. -/
  setindex : ObjId → Value → Value → Store → Xno × Store
  /-- `eel_get_realval`. -/
  realval : Value → Except Xno (BitVec 64)
  realAdd : BitVec 64 → BitVec 64 → BitVec 64
  realLt : BitVec 64 → BitVec 64 → Bool
  /-- The `floor` of a real, as `eel_get_indexval` has it. -/
  realFloor : BitVec 64 → Int

/-- `eel_test_nz`. -/
def Value.testNz : Value → Bool
  | .nil => false
  | .real bits => !Value.realEq bits 0
  | .integer v => v ≠ 0
  | .boolean v => v ≠ 0
  | .classid _ | .objref _ | .weakref _ _ => true

/-- `eel_get_indexval`. -/
def Env.indexval (E : Env) : Value → Int
  | .real bits => E.realFloor bits
  | .integer v | .boolean v | .classid v => v.toInt
  | .nil | .objref _ | .weakref _ _ => -1

/-- Where the VM loop goes after an instruction: on, or to `XCHECK` with a code. -/
inductive Outcome where
  | next (vm : Vm)
  | thrown (x : Xno) (vm : Vm)

/-- The state an instruction leaves satisfies `P`. -/
def Outcome.All (P : Vm → Prop) : Outcome → Prop
  | .next vm => P vm
  | .thrown _ vm => P vm

namespace Vm

variable (E : Env) (vm : Vm)

/-! ## Operands -/

/-- The function object of the frame at `b`. -/
def fo (b : Nat) : ObjId := (vm.callframe b).f.getD 0

/-- The function of the current frame. -/
def fn : Function := E.function (vm.fo vm.base)

/-- `f->e.constants[i]`. -/
def constant (fo : ObjId) (i : Nat) : Value := ((vm.store.object fo).values)[i]?.getD .nil

/-- `SV[i]`. -/
def static (i : Nat) : Value := ((vm.store.object (vm.fn E).module).values)[i]?.getD .nil

/-- `get_optarg_default`. -/
def optargDefault (b arg : Nat) : Option Value :=
  let f := E.function (vm.fo b)
  match f.argdefaults with
  | none => none
  | some defs =>
    if f.reqargs ≤ arg ∧ arg - f.reqargs < f.optargs ∧ 0 ≤ defs[arg - f.reqargs]?.getD (-1) then
      some (vm.constant (vm.fo b) (defs[arg - f.reqargs]?.getD 0).toNat)
    else none

/-- `get_tuparg_default`. -/
def tupargDefault (b pos : Nat) : Option Value :=
  let f := E.function (vm.fo b)
  match f.argdefaults with
  | none => none
  | some defs =>
    if pos < f.tupargs ∧ 0 ≤ defs[f.optargs + pos]?.getD (-1) then
      some (vm.constant (vm.fo b) (defs[f.optargs + pos]?.getD 0).toNat)
    else none

/-! ## Results -/

def writeReg (a : Nat) (v : Value) : Vm := { vm with store := vm.store.setHeap (vm.base + a) v }

def qcopyReg (a : Nat) (v : Value) : Vm := { vm with store := vm.store.qcopy (vm.base + a) v }

def copyReg (a : Nat) (v : Value) : Vm := { vm with store := vm.store.copy (vm.base + a) v }

def disownHeap (i : Nat) : Vm := { vm with store := vm.store.disown (vm.store.heap i) }

/-- `eel_v_receive` of `R[a]`. -/
def receiveReg (a : Nat) : Vm :=
  { vm with store := vm.store.receive vm.base (vm.register a) }

/-- `eel_v_grab` of `R[a]`. -/
def grabReg (a : Nat) : Vm := { vm with store := vm.store.grab vm.base (vm.register a) }

/-- `ADDCLEAN`. -/
def addClean (a : Nat) : Vm :=
  { vm with cleantab := Function.update vm.cleantab vm.base (a :: vm.cleantab vm.base) }

/-- `eel_v_copy` to the argument stack. -/
def push (v : Value) : Vm := { vm with store := vm.store.copy vm.sp v, sp := vm.sp + 1 }

/-- A value written to the argument stack as it is. -/
def pushRaw (v : Value) : Vm := { vm with store := vm.store.setHeap vm.sp v, sp := vm.sp + 1 }

/-- The items of the heap from `i`, `n` of them, to the argument stack. -/
def pushRange (i : Nat) : Nat → Vm → Vm
  | 0, vm => vm
  | n + 1, vm => pushRange (i + 1) n (vm.push (vm.store.heap i))

def jump (a : Int) : Vm := { vm with pc := (vm.pc + a).toNat }

/-- `XCHECK` of an operator whose result goes to `R[a]`. -/
def result (a : Nat) (r : OpResult) : Outcome :=
  match r with
  | (.ok v, s) => .next (({ vm with store := s }).writeReg a v)
  | (.error x, s) => .thrown x { vm with store := s }

/-- The same, with `eel_v_receive` of the result. -/
def received (a : Nat) (r : OpResult) : Outcome :=
  match vm.result a r with
  | .next vm => .next (vm.receiveReg a)
  | .thrown x vm => .thrown x vm

/-- `XCHECK` of an operator whose result is pushed. -/
def pushed (r : OpResult) : Outcome :=
  match r with
  | (.ok v, s) => .next (({ vm with store := s }).pushRaw v)
  | (.error x, s) => .thrown x { vm with store := s }

/-- `INDGET`: `R[a] = v[key]`. -/
def indget (a : Nat) (v key : Value) : Outcome :=
  match v.obj? with
  | some o => vm.received a (E.getindex o key vm.store)
  | none => .thrown Xno.cantIndex vm

/-- `INDSET`: `v[key] = R[a]`. -/
def indset (a : Nat) (v key : Value) : Outcome :=
  match v.obj? with
  | some o =>
    let (x, s) := E.setindex o key (vm.register a) vm.store
    if x = Xno.ok then .next { vm with store := s } else .thrown x { vm with store := s }
  | none => .thrown Xno.cantIndex vm

/-- `R[a]` from argument `i` of the frame at `b`, or from its default. -/
def getarg (a b i : Nat) (default : Option Value) : Outcome :=
  if i < (vm.callframe b).argc then
    .next ((vm.qcopyReg a (vm.store.heap ((vm.callframe b).argv + i))).grabReg a)
  else
    match default with
    | some v => .next (vm.qcopyReg a v)
    | none => .thrown Xno.highIndex vm

/-- `R[a]` to argument `i` of the frame at `b`. -/
def setarg (a b i : Nat) : Outcome :=
  if i < (vm.callframe b).argc then
    let arg := (vm.callframe b).argv + i
    let vm := vm.disownHeap arg
    .next { vm with store := vm.store.copy arg (vm.register a) }
  else .thrown Xno.highIndex vm

/-- The argument that is at position `pos` of tuple `tup`, as 32 bits have it. -/
def targ (f : Function) (pos tup : Nat) : Nat := (pos + f.reqargs + f.optargs + tup * f.tupargs) % 2 ^ 32

/-- `R[a]` from position `pos` of tuple `tup` of the frame at `b`. -/
def gettarg (a b pos : Nat) (tup : Int) : Outcome :=
  let f := E.function (vm.fo b)
  if tup < 0 then .thrown Xno.wrongType vm
  else vm.getarg a b (targ f pos tup.toNat) (vm.tupargDefault E b pos)

/-- The argument that `PHARGI` pushes. -/
def pushedArg (i : Nat) : Option Value :=
  let cf := vm.callframe vm.base
  if i < cf.argc then some (vm.store.heap (cf.argv + i)) else vm.optargDefault E vm.base i

/-- `R[a]` cast to real for a loop. -/
def castLoop (a : Nat) (k : Vm → BitVec 64 → Outcome) : Outcome :=
  match vm.register a with
  | .real bits => k vm bits
  | v =>
    match E.realval v with
    | .ok bits => k (vm.writeReg a (.real bits)) bits
    | .error x => .thrown x vm

/-- The same for the loop variable, which is disowned. -/
def castLoopVar (a : Nat) (k : Vm → BitVec 64 → Outcome) : Outcome :=
  match vm.register a with
  | .real bits => k vm bits
  | v =>
    match E.realval v with
    | .ok bits => k ((vm.disownHeap (vm.base + a)).writeReg a (.real bits)) bits
    | .error x => .thrown x vm

/-! ## Instructions -/

/-- The instructions that stay within the frame. -/
def exec (i : Instr) : Outcome :=
  match i with
  | .nop => .next vm
  | .jump a => .next (vm.jump a)
  | .jumpz a b => .next (if (vm.register a).testNz then vm else vm.jump b)
  | .jumpnz a b => .next (if (vm.register a).testNz then vm.jump b else vm)
  | .«switch» a b c =>
    match (vm.constant (vm.fo vm.base) b).obj? with
    | some o =>
      match E.getindex o (vm.register a) vm.store with
      | (.ok (.integer offs), s) => .next { vm with store := s, pc := offs.toNat }
      | (.ok _, s) => .next { vm with store := s }
      | (.error _, s) => .next (({ vm with store := s }).jump c)
    | none => .next (vm.jump c)
  | .preloop a b c d =>
    vm.castLoopVar E a fun vm ra =>
      vm.castLoop E b fun vm rb =>
        vm.castLoop E c fun vm rc =>
          .next (if E.realLt rb 0 then (if E.realLt ra rc then vm.jump d else vm)
            else if E.realLt rc ra then vm.jump d else vm)
  | .loop a b c d =>
    vm.castLoopVar E a fun vm ra =>
      match vm.register b, vm.register c with
      | .real rb, .real rc =>
        let ra := E.realAdd ra rb
        let vm := vm.writeReg a (.real ra)
        .next (if E.realLt rb 0 then (if E.realLt ra rc then vm else vm.jump d)
          else if E.realLt rc ra then vm else vm.jump d)
      | _, _ => .next vm
  | .push a => .next (vm.push (vm.register a))
  | .push2 a b => .next ((vm.push (vm.register a)).push (vm.register b))
  | .push3 a b c =>
    .next (((vm.push (vm.register a)).push (vm.register b)).push (vm.register c))
  | .push4 a b c d =>
    .next ((((vm.push (vm.register a)).push (vm.register b)).push (vm.register c)).push
      (vm.register d))
  | .pushi a => .next (vm.pushRaw (.integer (BitVec.ofInt 32 a)))
  | .phtrue => .next (vm.pushRaw (.boolean 1))
  | .phfalse => .next (vm.pushRaw (.boolean 0))
  | .pushnil => .next (vm.pushRaw .nil)
  | .pushc a => .next (vm.push (vm.constant (vm.fo vm.base) a))
  | .pushc2 a b =>
    .next ((vm.push (vm.constant (vm.fo vm.base) a)).push (vm.constant (vm.fo vm.base) b))
  | .pushic a b =>
    .next ((vm.pushRaw (.integer (BitVec.ofInt 32 b))).push (vm.constant (vm.fo vm.base) a))
  | .pushci a b =>
    .next ((vm.push (vm.constant (vm.fo vm.base) a)).pushRaw (.integer (BitVec.ofInt 32 b)))
  | .phvar a => .next (vm.push (vm.static E a))
  | .phuval a b => .next (vm.push (vm.store.heap (vm.uvBase b + a)))
  | .pushtup =>
    let cf := vm.callframe vm.base
    .next (pushRange (cf.argv + (vm.fn E).reqargs) (cf.argc - (vm.fn E).reqargs) vm)
  | .phargs =>
    let cf := vm.callframe vm.base
    .next (pushRange cf.argv cf.argc vm)
  | .clean a => .next (vm.clean a)
  | .argc a => .next (vm.writeReg a (.integer (BitVec.ofNat 32 (vm.callframe vm.base).argc)))
  | .tupc a =>
    let tupc := ((vm.callframe vm.base).argc - (vm.fn E).reqargs) / (vm.fn E).tupargs
    .next (vm.writeReg a (.integer (BitVec.ofNat 32 tupc)))
  | .spec a b =>
    .next (vm.writeReg b (.boolean (if a < (vm.callframe vm.base).argc then 1 else 0)))
  | .tspec a b =>
    let ind := E.indexval (vm.register a)
    let tupc := ((vm.callframe vm.base).argc - (vm.fn E).reqargs) / (vm.fn E).tupargs
    if ind < 0 then .thrown Xno.lowIndex vm
    else .next (vm.writeReg b (.boolean (if ind < tupc then 1 else 0)))
  | .ldi a b => .next (vm.writeReg a (.integer (BitVec.ofInt 32 b)))
  | .ldtrue a => .next (vm.writeReg a (.boolean 1))
  | .ldfalse a => .next (vm.writeReg a (.boolean 0))
  | .ldnil a => .next (vm.writeReg a .nil)
  | .ldc a b => .next (vm.qcopyReg a (vm.constant (vm.fo vm.base) b))
  | .move a b => .next (vm.qcopyReg a (vm.register b))
  | .init a b => .next ((vm.copyReg a (vm.register b)).addClean a)
  | .initi a b => .next ((vm.writeReg a (.integer (BitVec.ofInt 32 b))).addClean a)
  | .initnil a => .next ((vm.writeReg a .nil).addClean a)
  | .initc a b => .next ((vm.copyReg a (vm.constant (vm.fo vm.base) b)).addClean a)
  | .assign a b =>
    let vm := vm.disownHeap (vm.base + a)
    .next (vm.copyReg a (vm.register b))
  | .assigni a b =>
    .next ((vm.disownHeap (vm.base + a)).writeReg a (.integer (BitVec.ofInt 32 b)))
  | .asnnil a => .next ((vm.disownHeap (vm.base + a)).writeReg a .nil)
  | .assignc a b =>
    let vm := vm.disownHeap (vm.base + a)
    .next (vm.copyReg a (vm.constant (vm.fo vm.base) b))
  | .getuval a b c =>
    .next ((vm.qcopyReg a (vm.store.heap (vm.uvBase c + b))).grabReg a)
  | .setuval a b c =>
    let rf := vm.uvBase c + b
    let vm := vm.disownHeap rf
    .next { vm with store := vm.store.copy rf (vm.register a) }
  | .getvar a b => .next ((vm.qcopyReg a (vm.static E b)).grabReg a)
  | .setvar a b =>
    let s := vm.store.disown (vm.static E b)
    let v := (s.heap (vm.base + a)).copy
    let s := s.modify (vm.fn E).module fun ob => { ob with values := ob.values.set b v }
    .next { vm with store := s.own v }
  | .indseti a b c => vm.indset E a (vm.register c) (.integer (BitVec.ofNat 32 b))
  | .indgeti a b c => vm.indget E a (vm.register c) (.integer (BitVec.ofNat 32 b))
  | .indset a b c => vm.indset E a (vm.register c) (vm.register b)
  | .indget a b c => vm.indget E a (vm.register c) (vm.register b)
  | .indsetc a b c => vm.indset E a (vm.register b) (vm.constant (vm.fo vm.base) c)
  | .indgetc a b c => vm.indget E a (vm.register b) (vm.constant (vm.fo vm.base) c)
  | .getargi a b => vm.getarg a vm.base b (vm.optargDefault E vm.base b)
  | .phargi a =>
    match vm.pushedArg E a with
    | some v => .next (vm.push v)
    | none => .thrown Xno.highIndex vm
  | .phargi2 a b =>
    match vm.pushedArg E a, vm.pushedArg E b with
    | some v, some w => .next ((vm.push v).push w)
    | _, _ => .thrown Xno.highIndex vm
  | .setargi a b => vm.setarg a vm.base b
  | .gettargi a b c => vm.gettarg E a vm.base b (E.indexval (vm.register c))
  | .getuvargi a b c => vm.getarg a (vm.uvBase c) b (vm.optargDefault E (vm.uvBase c) b)
  | .setuvargi a b c => vm.setarg a (vm.uvBase c) b
  | .getuvtargi a b c d => vm.gettarg E a (vm.uvBase d) b (E.indexval (vm.register c))
  | .bop a b c d => vm.received a (E.operate c (vm.register b) (vm.register d) vm.store)
  | .phbop a b c => vm.pushed (E.operate b (vm.register a) (vm.register c) vm.store)
  | .ipbop a b c d => vm.received a (E.ipoperate c (vm.register b) (vm.register d) vm.store)
  | .bops a b c d => vm.received a (E.operate c (vm.register b) (vm.static E d) vm.store)
  | .ipbops a b c d => vm.received a (E.ipoperate c (vm.register b) (vm.static E d) vm.store)
  | .bopi a b c d =>
    vm.received a (E.operate c (vm.register b) (.integer (BitVec.ofInt 32 d)) vm.store)
  | .phbopi a b c =>
    vm.pushed (E.operate b (vm.register a) (.integer (BitVec.ofInt 32 c)) vm.store)
  | .ipbopi a b c d =>
    vm.received a (E.ipoperate c (vm.register b) (.integer (BitVec.ofInt 32 d)) vm.store)
  | .bopc a b c d =>
    vm.received a (E.operate c (vm.register b) (vm.constant (vm.fo vm.base) d) vm.store)
  | .neg a b => vm.result a (E.unary .neg (vm.register b) vm.store)
  | .bnot a b => vm.result a (E.unary .bnot (vm.register b) vm.store)
  | .not a b => vm.result a (E.unary .not (vm.register b) vm.store)
  | .castr a b => vm.received a (E.unary .castr (vm.register b) vm.store)
  | .casti a b => vm.received a (E.unary .casti (vm.register b) vm.store)
  | .castb a b => vm.received a (E.unary .castb (vm.register b) vm.store)
  | .cast a b c =>
    match vm.register c with
    | .classid cid => vm.received a (E.cast (vm.register b) cid vm.store)
    | _ => .thrown Xno.wrongType vm
  | .typeof a b => vm.result a (E.unary .typeof (vm.register b) vm.store)
  | .sizeof a b => vm.result a (E.unary .sizeof (vm.register b) vm.store)
  | .weakref a b =>
    match vm.register b with
    | .nil => .next (vm.writeReg a .nil)
    | .objref o => .next (vm.writeReg a (.weakref o false))
    | _ => .thrown Xno.needObject vm
  | .add a b c => vm.received a (E.operate .add (vm.register b) (vm.register c) vm.store)
  | .sub a b c => vm.received a (E.operate .sub (vm.register b) (vm.register c) vm.store)
  | .mul a b c => vm.received a (E.operate .mul (vm.register b) (vm.register c) vm.store)
  | .div a b c => vm.received a (E.operate .div (vm.register b) (vm.register c) vm.store)
  | .mod a b c => vm.received a (E.operate .mod (vm.register b) (vm.register c) vm.store)
  | .power a b c => vm.received a (E.operate .power (vm.register b) (vm.register c) vm.store)
  | .phadd a b => vm.pushed (E.operate .add (vm.register a) (vm.register b) vm.store)
  | .phsub a b => vm.pushed (E.operate .sub (vm.register a) (vm.register b) vm.store)
  | .phmul a b => vm.pushed (E.operate .mul (vm.register a) (vm.register b) vm.store)
  | .phdiv a b => vm.pushed (E.operate .div (vm.register a) (vm.register b) vm.store)
  | .phmod a b => vm.pushed (E.operate .mod (vm.register a) (vm.register b) vm.store)
  | .phpower a b => vm.pushed (E.operate .power (vm.register a) (vm.register b) vm.store)
  | .new a b =>
    let args := (List.range (vm.sp - vm.sbase)).map fun i => vm.store.heap (vm.sbase + i)
    match vm.received a (E.construct b args vm.store) with
    | .next vm => .next vm.stackClear
    | .thrown x vm => .thrown x vm
  | .clone a b => vm.received a (E.unary .clone (vm.register b) vm.store)
  | .illegal | .call _ | .callr .. | .ccall .. | .ccallr .. | .«return» | .returnr _
  | .«try» .. | .untry _ | .throw _ | .retry | .retx | .retxr _ => .thrown Xno.illegal vm

end Vm

end Eel
