-- SUMMARY: Argument manipulators, and the code that reads, writes and operates on what they stand for.
import Eel.Core.Operate

/-!
# Argument manipulators

Code is a list of instructions, as it is before the optimizer sees it. Objects that
are constants are told apart by `same`, the COMPARE metamethod of their class.
-/

namespace Eel

/-- `EEL_manipulator`. The operand of `unop` is the right one. -/
inductive Manip where
  | void
  | constant (v : Value)
  | result (reg : Nat)
  | register (reg : Nat)
  | «variable» (level r : Nat)
  | statvar (index : Nat)
  | argument (level arg : Nat)
  | optarg (level arg : Nat)
  | tuparg (level arg : Nat)
  | unop (op : Operator) (right : Manip)
  | binop (left : Manip) (op : Operator) (right : Manip)
  | cast (object : Manip) (classid : BitVec 32)
  | index (object index : Manip)
  | args
  | tupargs

/-- The answers of `eel_test_init`. -/
inductive Tristate where
  | no
  | yes
  | maybe
  deriving DecidableEq

/-- Why no code is made. -/
inductive ManipError where
  /-- "Reading uninitialized variable". -/
  | uninitialized (r : Nat)
  /-- "Reading variable, which may be uninitialized at this point". -/
  | maybeUninitialized (r : Nat)
  /-- "Cannot tell if variable is initialized at this point". -/
  | cannotTell (r : Nat)
  /-- "Tried to read tuparg array". -/
  | tupargArray
  /-- "Writing tuple arguments not yet implemented". -/
  | tupargWrite
  /-- "Assignment to constant", or to a term or expression. -/
  | readOnly
  /-- "Weak assignment to target that cannot receive weak references". -/
  | noWeakref
  /-- The internal errors. -/
  | internal
  deriving DecidableEq

/-- What making code needs and changes. -/
structure CoderState where
  constants : List Value
  /-- The registers in use. -/
  registers : List Nat
  inits : Nat → Tristate

namespace Operator

def isBinary : Operator → Bool
  | .assign | .wkassn | .neg | .castr | .casti | .castb | .typeof | .sizeof | .clone | .not
  | .bnot => false
  | _ => true

/-- The instruction of a unary operator. -/
def unary? : Operator → Option (Nat → Nat → Instr)
  | .neg => some .neg
  | .not => some .not
  | .castr => some .castr
  | .casti => some .casti
  | .castb => some .castb
  | .typeof => some .typeof
  | .sizeof => some .sizeof
  | .clone => some .clone
  | .bnot => some .bnot
  | _ => none

end Operator

/-! ## Constants and registers -/

/-- A `short`. -/
def BitVec.isShort (v : BitVec 32) : Bool := -32768 ≤ v.toInt ∧ v.toInt ≤ 32767

/-- Whether `eel_coder_add_constant` takes a constant that there is for another one. -/
def Value.sameConstant (same : ObjId → ObjId → Bool) : Value → Value → Bool
  | .nil, .nil => true
  | .real a, .real b => Value.realEq a b
  | .integer a, .integer b | .boolean a, .boolean b | .classid a, .classid b => a == b
  | .objref a, .objref b => a == b || same a b
  | .weakref a _, .weakref b _ => a == b || same a b
  | _, _ => false

namespace CoderState

variable (same : ObjId → ObjId → Bool) (cdr : CoderState)

/-- `eel_coder_add_constant`. -/
def addConstant (v : Value) : Nat × CoderState :=
  match cdr.constants.findIdx? (Value.sameConstant same · v) with
  | some i => (i, cdr)
  | none => (cdr.constants.length, { cdr with constants := cdr.constants ++ [v.qcopy] })

/-- The first register that is free: `eel_r_alloc` of one register. -/
def alloc : Nat := ((List.range (cdr.registers.length + 1)).find? (· ∉ cdr.registers)).getD 0

def use (r : Nat) : CoderState := { cdr with registers := r :: cdr.registers }

/-- `eel_r_free`. -/
def free (r : Nat) : CoderState := { cdr with registers := cdr.registers.erase r }

/-- A variable that is read has to be initialized. -/
def checkInit (r : Nat) : Except ManipError Unit :=
  match cdr.inits r with
  | .no => .error (.uninitialized r)
  | .yes => .ok ()
  | .maybe => .error (.maybeUninitialized r)

/-- `read_constant`, with `eel_m_prepare_constant`. -/
def readConstant (v : Value) (r : Nat) : List Instr × CoderState :=
  let load :=
    let (c, cdr) := cdr.addConstant same v
    ([Instr.ldc r c], cdr)
  match v with
  | .nil => ([.ldnil r], cdr)
  | .boolean b => ([if b ≠ 0 then .ldtrue r else .ldfalse r], cdr)
  | .integer i => if BitVec.isShort i then ([.ldi r i.toInt], cdr) else load
  | _ => load

end CoderState

namespace Manip

/-! ## Information -/

/-- `eel_m_direct_read`. -/
def directRead (cdr : CoderState) : Manip → Except ManipError (Option Nat)
  | .result reg | .register reg => return some reg
  | .«variable» level r => if level ≠ 0 then return none else do cdr.checkInit r; return some r
  | _ => return none

/-- `eel_m_direct_write`. -/
def directWrite : Manip → Option Nat
  | .result reg => some reg
  | _ => none

/-- `eel_m_direct_uint8`. -/
def directUint8 : Manip → Option Nat
  | .constant (.integer v) => if 0 ≤ v.toInt ∧ v.toInt ≤ 255 then some v.toNat else none
  | _ => none

/-- `eel_m_direct_short`. -/
def directShort : Manip → Option Int
  | .constant (.integer v) => if BitVec.isShort v then some v.toInt else none
  | _ => none

/-- `eel_m_is_constant`, with `eel_m_get_constant`. -/
def constant? : Manip → Option Value
  | .constant v => some v
  | _ => none

/-! ## Reading -/

/-- What making code results in. -/
abbrev Code := Except ManipError (List Instr × CoderState)

/-- The same, with the register where a value is. -/
abbrev CodeIn := Except ManipError ((List Instr × Nat) × CoderState)

/-- An operand is used where it is, or read into `r`. -/
def operandIn (m : Manip) (r : Nat) (cdr : CoderState) (code : CoderState → Code) : CodeIn := do
  match ← m.directRead cdr with
  | some q => return (([], q), cdr)
  | none =>
    let (code, cdr) ← code cdr
    return ((code, r), cdr)

/-- An operand is read into a temporary register, which is freed. -/
def inTemporary (cdr : CoderState) (code : Nat → CoderState → Code) : CodeIn := do
  let r := cdr.alloc
  let (code, cdr) ← code r (cdr.use r)
  return ((code, r), cdr.free r)

variable (same : ObjId → ObjId → Bool)

/-- `eel_m_read`. With `ip`, the operator at the top is `do_operate` in place. -/
def code (ip : Bool) : Manip → Nat → CoderState → Code
  | .void, _, _ | .args, _, _ | .tupargs, _, _ => .error .internal
  | .constant v, r, cdr => .ok (cdr.readConstant same v r)
  | .result reg, r, cdr | .register reg, r, cdr => .ok ([.move r reg], cdr)
  | .«variable» level v, r, cdr =>
    if level ≠ 0 then .ok ([.getuval r v level], cdr)
    else do
      cdr.checkInit v
      return ([.move r v], cdr)
  | .statvar i, r, cdr => .ok ([.getvar r i], cdr)
  | .argument level arg, r, cdr | .optarg level arg, r, cdr =>
    .ok ([if level ≠ 0 then .getuvargi r arg level else .getargi r arg], cdr)
  | .tuparg .., _, _ => .error .tupargArray
  | .unop op right, r, cdr =>
    match op, right, op.unary? with
    | .sizeof, .tuparg .., _ => .ok ([.tupc r], cdr)
    | _, _, none => .error .internal
    | _, _, some ins => do
      let ((code, rr), cdr) ← operandIn right r cdr fun cdr => right.code false r cdr
      return (code ++ [ins r rr], cdr)
  | .binop left op right, r, cdr =>
    if !op.isBinary then .error .internal
    else do
      let ((code, lr), cdr) ← operandIn left r cdr fun cdr => left.code false r cdr
      match ← right.directRead cdr with
      | some rr => return (code ++ [if ip then .ipbop r lr op rr else .bop r lr op rr], cdr)
      | none =>
        match right.directShort, right with
        | some rv, _ => return (code ++ [if ip then .ipbopi r lr op rv else .bopi r lr op rv], cdr)
        | none, .statvar i =>
          return (code ++ [if ip then .ipbops r lr op i else .bops r lr op i], cdr)
        | none, _ =>
          let ((code', rr), cdr) ← inTemporary cdr fun rr cdr => right.code false rr cdr
          return (code ++ code' ++ [if ip then .ipbop r lr op rr else .bop r lr op rr], cdr)
  | .cast object classid, r, cdr => do
    let ((code, dr), cdr) ← operandIn object r cdr fun cdr => object.code false r cdr
    match classid with
    | 1 => return (code ++ [.castr r dr], cdr)
    | 2 => return (code ++ [.casti r dr], cdr)
    | 3 => return (code ++ [.castb r dr], cdr)
    | _ =>
      let ((code', cr), cdr) ← inTemporary cdr fun cr cdr =>
        let (c, cdr) := cdr.addConstant same (.classid classid)
        .ok ([.ldc cr c], cdr)
      return (code ++ code' ++ [.cast r dr cr], cdr)
  | .index (.tuparg level arg) im, r, cdr => do
    let get ir := if level ≠ 0 then Instr.getuvtargi r arg ir level else .gettargi r arg ir
    match ← im.directRead cdr with
    | some ir => return ([get ir], cdr)
    | none =>
      let ((code, ir), cdr) ← inTemporary cdr fun ir cdr => im.code false ir cdr
      return (code ++ [get ir], cdr)
  | .index om im, r, cdr => do
    let ((code, or), cdr) ← operandIn om r cdr fun cdr => om.code false r cdr
    match ← im.directRead cdr with
    | some ir => return (code ++ [.indget r ir or], cdr)
    | none =>
      match im.directUint8 with
      | some iv => return (code ++ [.indgeti r iv or], cdr)
      | none =>
        let ((code', ir), cdr) ← inTemporary cdr fun ir cdr => im.code false ir cdr
        return (code ++ code' ++ [.indget r ir or], cdr)

/-- `eel_m_read`. -/
def read (m : Manip) (r : Nat) (cdr : CoderState) : Code :=
  m.code same false r cdr

/-! ## Writing -/

/-- `do_write_index_obj`. -/
def writeIndex (om im : Manip) (r : Nat) (cdr : CoderState) : Code := do
  let direct ← om.directRead cdr
  let or := direct.getD cdr.alloc
  let (code, cdr) ← if direct.isSome then pure ([], cdr) else om.read same or (cdr.use or)
  let (code', cdr) ←
    match ← im.directRead cdr with
    | some ir => pure ([.indset r ir or], cdr)
    | none =>
      match im.directUint8 with
      | some iv => pure ([.indseti r iv or], cdr)
      | none => do
        let ((code, ir), cdr) ← inTemporary cdr fun ir cdr => im.read same ir cdr
        pure (code ++ [.indset r ir or], cdr)
  return (code ++ code', if direct.isSome then cdr else cdr.free or)

/-- `eel_m_write`. A variable is declared by its first write: `eel_e_init`. -/
def write (m : Manip) (r : Nat) (cdr : CoderState) : Code :=
  match m with
  | .void | .args | .tupargs => .error .internal
  | .constant _ | .register _ | .unop .. | .binop .. | .cast .. => .error .readOnly
  | .result reg => .ok ([.move reg r], cdr)
  | .«variable» level v =>
    if level ≠ 0 then .ok ([.setuval r v level], cdr)
    else
      match cdr.inits v with
      | .no => .ok ([.init v r], { cdr with inits := Function.update cdr.inits v .yes })
      | .yes => .ok ([.assign v r], cdr)
      | .maybe => .error (.cannotTell v)
  | .statvar i => .ok ([.setvar r i], cdr)
  | .argument level arg | .optarg level arg =>
    .ok ([if level ≠ 0 then .setuvargi r arg level else .setargi r arg], cdr)
  | .tuparg .. => .error .tupargArray
  | .index (.tuparg ..) _ => .error .tupargWrite
  | .index om im => writeIndex same om im r cdr

/-- `can_write_weakref`. -/
def canWriteWeakref : Manip → Bool
  | .statvar _ | .index .. => true
  | _ => false

/-- `eel_m_copy`. -/
def copy (src dst : Manip) (cdr : CoderState) : Code := do
  match ← src.directRead cdr with
  | some dr => dst.write same dr cdr
  | none =>
    match dst.directWrite with
    | some dw => src.read same dw cdr
    | none =>
      let r := cdr.alloc
      let (code, cdr) ← src.read same r (cdr.use r)
      let (code', cdr) ← dst.write same r cdr
      return (code ++ code', cdr.free r)

/-- `apply_op`. Two constants would be folded, and then there is no target. -/
def applyOp (src : Manip) (op : Operator) (dst : Manip) (inplace : Bool) (cdr : CoderState) : Code :=
  let m := Manip.binop dst op src
  match dst.constant?, dst.directWrite with
  | some _, _ => .error .readOnly
  | none, some dw => m.code same inplace dw cdr
  | none, none => do
    let r := cdr.alloc
    let (code, cdr) ← m.code same inplace r (cdr.use r)
    let (code', cdr) ← if inplace then pure ([], cdr) else dst.write same r cdr
    return (code ++ code', cdr.free r)

/-- `eel_m_operate`. -/
def operate (src : Manip) (op : Operator) (dst : Manip) (cdr : CoderState) : Code :=
  match op with
  | .assign => src.copy same dst cdr
  | .wkassn => do
    let wr := cdr.alloc
    let cdr := cdr.use wr
    if !dst.canWriteWeakref then .error .noWeakref
    else
      let (code, cdr) ←
        match ← src.directRead cdr with
        | some dr => pure ([.weakref wr dr], cdr)
        | none => do
          let ((code, r), cdr) ← inTemporary cdr fun r cdr => src.read same r cdr
          pure (code ++ [.weakref wr r], cdr)
      let (code', cdr) ← dst.write same wr cdr
      return (code ++ code', cdr.free wr)
  | op => src.applyOp same op dst false cdr

/-- `eel_m_ipoperate`. -/
def ipoperate (src : Manip) (op : Operator) (dst : Manip) (cdr : CoderState) : Code :=
  if op = .assign then src.copy same dst cdr else src.applyOp same op dst true cdr

end Manip

end Eel
