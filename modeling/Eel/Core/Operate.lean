-- SUMMARY: The operators on values, as the VM and the compiler call them.
import Eel.Core.Value
import Eel.Vm.Instr

/-!
# Operators

The arithmetic of reals is given, and so are the metamethods of objects, which
work on a world `W`. An operator writes its result to a value that its caller has.
-/

namespace Eel

namespace Xno

def notImplemented : Xno := 12
def cantInplace : Xno := 16
def lowValue : Xno := 48
def highValue : Xno := 49
def divByZero : Xno := 51

end Xno

/-! ## Operands -/

namespace Value

/-- `eel_v_qcopy`. A weak reference becomes a strong one. -/
def qcopy : Value → Value
  | .weakref o _ => .objref o
  | v => v

/-- `classid`. -/
def cls : Value → Nat
  | .nil => 0
  | .real _ => 1
  | .integer _ => 2
  | .boolean _ => 3
  | .classid _ => 4
  | .objref _ => 5
  | .weakref .. => 6

/-- `integer.v`, of the classes that have it. -/
def int? : Value → Option (BitVec 32)
  | .integer v | .boolean v | .classid v => some v
  | _ => none

/-- `real.v`. The address of an object is in the same place. -/
def num? : Value → Option (BitVec 64)
  | .real bits => some bits
  | .objref o | .weakref o _ => some (BitVec.ofNat 64 o)
  | _ => none

end Value

/-- The classes with an `integer.v`. -/
inductive Whole where
  | integer
  | boolean
  | classid
  deriving DecidableEq

/-- An operand, as a case of a `switch` takes it. What it reads may not be there. -/
inductive CaseOperand where
  | nil
  | real (bits : Option (BitVec 64))
  | whole (k : Whole) (v : Option (BitVec 32))

/-- A value, taken to be of a class. -/
def Value.as (v : Value) : Nat → CaseOperand
  | 0 => .nil
  | 1 => .real v.num?
  | 2 => .whole .integer v.int?
  | 3 => .whole .boolean v.int?
  | _ => .whole .classid v.int?

/-- `EEL_MK2TYPES`. -/
def mk2types (left right : Value) : Nat := left.cls * 5 + right.cls

/-- The case that `EEL_MK2TYPES` selects. An object to the right makes the number that of
the next class to the left, and of nil or a real to the right. -/
def operands (left right : Value) : Option (CaseOperand × CaseOperand) :=
  let n := mk2types left right
  if n < 25 then some (left.as (n / 5), right.as (n % 5)) else none

/-- What an operator leaves in its result. -/
inductive Written where
  | value (v : Value)
  /-- `integer.v` alone. The class is that of the value there was. -/
  | payload (v : BitVec 32)
  deriving DecidableEq

/-- The result, over what was there. The `integer.v` is not where the number of a real
or the object of a reference is. -/
def Written.over (old : Value) : Written → Value
  | .value v => v
  | .payload v =>
    match old with
    | .integer _ => .integer v
    | .boolean _ => .boolean v
    | .classid _ => .classid v
    | old => old

/-! ## What operators work with -/

/-- The arithmetic of `double`. -/
structure Reals where
  lt : BitVec 64 → BitVec 64 → Bool
  add : BitVec 64 → BitVec 64 → BitVec 64
  sub : BitVec 64 → BitVec 64 → BitVec 64
  mul : BitVec 64 → BitVec 64 → BitVec 64
  div : BitVec 64 → BitVec 64 → BitVec 64
  fmod : BitVec 64 → BitVec 64 → BitVec 64
  pow : BitVec 64 → BitVec 64 → BitVec 64
  ofInt : BitVec 32 → BitVec 64
  /-- The conversion of C, which truncates. -/
  toInt : BitVec 64 → BitVec 32
  /-- `floor`, and then the conversion. -/
  floor : BitVec 64 → BitVec 32

namespace Reals

/-- The truth of a `double`. -/
def nz (bits : BitVec 64) : Bool := !Value.realEq bits 0

def neg (bits : BitVec 64) : BitVec 64 := bits ^^^ 0x8000000000000000

def ge (R : Reals) (a b : BitVec 64) : Bool := R.lt b a || Value.realEq a b

end Reals

/-- Why there is no value: an exception, with the world it was raised in, or bytes that
were read as what they are not. -/
inductive Stop (W : Type) where
  | thrown (x : Xno) (w : W)
  | undetermined
  deriving DecidableEq

/-- What the operators take from the classes of objects. -/
structure Meta (W : Type) where
  real : Reals
  /-- `eel_object_op`, with `inplace`. -/
  objectOp : Bool → Value → Operator → Value → W → Except (Stop W) (Value × W)
  /-- `eel_object_rop`. -/
  objectRop : Value → Operator → Value → W → Except (Stop W) (Value × W)
  /-- `eel_cast`. -/
  cast : Value → BitVec 32 → W → Except (Stop W) (Value × W)
  /-- `EEL_MM_LENGTH`. -/
  length : ObjId → W → Except (Stop W) (Value × W)
  classOf : ObjId → BitVec 32

/-- What an operator does to a world: it writes a result, or there is none. -/
abbrev Op (W : Type) := W → Except (Stop W) (Written × W)

namespace Op

variable {W : Type}

/-- `return` with a result. -/
def give (v : Value) : Op W := fun w => .ok (.value v, w)

/-- `return` of a code. -/
def throw (x : Xno) : Op W := fun w => .error (.thrown x w)

/-- What was read is used, if it was there. -/
def read {α : Type} (a : Option α) (f : α → Op W) : Op W :=
  match a with
  | some a => f a
  | none => fun _ => .error .undetermined

/-- What a metamethod returns. -/
def method (f : W → Except (Stop W) (Value × W)) : Op W := fun w => do
  let (v, w) ← f w
  return (.value v, w)

end Op

namespace CaseOperand

/-- The truth of a number. -/
def nz : CaseOperand → Option Bool
  | .nil => some false
  | .real a => a.map Reals.nz
  | .whole _ a => a.map (· ≠ 0)

/-- A number, as C converts it to `double`. -/
def toReal (R : Reals) : CaseOperand → Option (BitVec 64)
  | .nil => none
  | .real a => a
  | .whole _ a => a.map R.ofInt

end CaseOperand

def Value.truth (b : Bool) : Value := .boolean (if b then 1 else 0)

namespace Meta

open Op

variable {W : Type} (M : Meta W)

/-- `eel__op_fallback`. -/
def fallback (left : Value) (binop : Operator) (right : Value) : Op W :=
  match left.obj?, right.obj? with
  | some _, _ => method (M.objectOp false left binop right)
  | none, some _ => method (M.objectRop right binop left)
  | none, none => throw Xno.notImplemented

/-- A function of two reals. -/
def onReals (a b : CaseOperand) (f : BitVec 64 → BitVec 64 → Value) : Op W :=
  read (a.toReal M.real) fun a => read (b.toReal M.real) fun b => give (f a b)

/-- A function of two integers. -/
def onWholes (a b : Option (BitVec 32)) (f : BitVec 32 → BitVec 32 → Value) : Op W :=
  read a fun a => read b fun b => give (f a b)

/-! ## Boolean operators -/

def opAnd (left right : Value) : Op W :=
  match operands left right with
  | some (.nil, _) | some (_, .nil) => give (.truth false)
  | some (a, b) => read a.nz fun a => if a then read b.nz fun b => give (.truth b) else give (.truth false)
  | none => M.fallback left .and right

def opOr (left right : Value) : Op W :=
  match operands left right with
  | some (a, b) => read a.nz fun a => if a then give (.truth true) else read b.nz fun b => give (.truth b)
  | none => M.fallback left .or right

def opXor (left right : Value) : Op W :=
  match operands left right with
  | some (a, b) => read a.nz fun a => read b.nz fun b => give (.truth (xor a b))
  | none => M.fallback left .xor right

/-- Numbers are equal if they are of one class, or if they are an integer and a real. -/
def opEq (left right : Value) : Op W :=
  match operands left right with
  | some (.nil, .nil) => give (.truth true)
  | some (.real a, .real b) => M.onReals (.real a) (.real b) fun a b => .truth (Value.realEq a b)
  | some (.real a, .whole .integer b) =>
    M.onReals (.real a) (.whole .integer b) fun a b => .truth (Value.realEq a b)
  | some (.whole .integer a, .real b) =>
    M.onReals (.whole .integer a) (.real b) fun a b => .truth (Value.realEq a b)
  | some (.whole k a, .whole k' b) =>
    if k = k' then onWholes a b fun a b => .truth (a = b) else give (.truth false)
  | some _ => give (.truth false)
  | none => M.fallback left .eq right

/-- `result->integer.v = !result->integer.v`. -/
def flip : Written → Written
  | .value (.integer v) => .value (.integer (if v = 0 then 1 else 0))
  | .value (.boolean v) => .value (.boolean (if v = 0 then 1 else 0))
  | .value (.classid v) => .value (.classid (if v = 0 then 1 else 0))
  | .payload v => .payload (if v = 0 then 1 else 0)
  | wr => wr

/-- An operator whose result is that of another one, inverted. -/
def inverted (f : Op W) : Op W := fun w => do
  let (wr, w) ← f w
  return (flip wr, w)

def opGt (left right : Value) : Op W :=
  match operands left right with
  | some (.nil, _) => give (.truth false)
  | some (_, .nil) => give (.truth true)
  | some (.whole _ a, .whole _ b) => onWholes a b fun a b => .truth (b.slt a)
  | some (a, b) => M.onReals a b fun a b => .truth (M.real.lt b a)
  | none => M.fallback left .gt right

def opGe (left right : Value) : Op W :=
  match operands left right with
  | some (_, .nil) => give (.truth true)
  | some (.nil, _) => give (.truth false)
  | some (.whole _ a, .whole _ b) => onWholes a b fun a b => .truth (b.sle a)
  | some (a, b) => M.onReals a b fun a b => .truth (M.real.ge a b)
  | none => M.fallback left .ge right

/-! ## Arithmetic operators -/

def opPower (left right : Value) : Op W :=
  match operands left right with
  | some (.nil, _) => give .nil
  | some (_, .nil) => give (.integer 1)
  | some (.whole _ a, .whole _ b) =>
    onWholes a b fun a b => .integer (M.real.floor (M.real.pow (M.real.ofInt a) (M.real.ofInt b)))
  | some (a, b) => M.onReals a b fun a b => .real (M.real.pow a b)
  | none => M.fallback left .power right

/-- A divisor is tested, before anything is divided. -/
def nonzero (b : CaseOperand) (f : Op W) : Op W :=
  read b.nz fun b => if b then f else throw Xno.divByZero

def opMod (left right : Value) : Op W :=
  match operands left right with
  | some (.nil, b) => nonzero b (give .nil)
  | some (.whole _ a, .whole k b) => nonzero (.whole k b) (onWholes a b fun a b => .integer (a.srem b))
  | some (a, b) => nonzero b (M.onReals a b fun a b => .real (M.real.fmod a b))
  | none => M.fallback left .mod right

/-- Integers are divided as reals, unless the divisor is a boolean. -/
def opDiv (left right : Value) : Op W :=
  match operands left right with
  | some (.nil, b) => nonzero b (give .nil)
  | some (.whole _ a, .whole .boolean b) =>
    nonzero (.whole .boolean b) (onWholes a b fun a b => .integer (a.sdiv b))
  | some (a, b) => nonzero b (M.onReals a b fun a b => .real (M.real.div a b))
  | none => M.fallback left .div right

def opMul (left right : Value) : Op W :=
  match operands left right with
  | some (.nil, _) | some (_, .nil) => give .nil
  | some (.whole _ a, .whole _ b) => onWholes a b fun a b => .integer (a * b)
  | some (a, b) => M.onReals a b fun a b => .real (M.real.mul a b)
  | none => M.fallback left .mul right

def opSub (left right : Value) : Op W :=
  match operands left right with
  | some (.nil, .nil) => give .nil
  | some (.nil, .real b) => read b fun b => give (.real (Reals.neg b))
  | some (.nil, .whole _ b) => read b fun b => give (.integer (-b))
  | some (.real a, .nil) => read a fun a => give (.real a)
  | some (.whole _ a, .nil) => read a fun a => give (.integer a)
  | some (.whole _ a, .whole _ b) => onWholes a b fun a b => .integer (a - b)
  | some (a, b) => M.onReals a b fun a b => .real (M.real.sub a b)
  | none => M.fallback left .sub right

/-- An integer is negated when it is added to nil, as it is when subtracted. -/
def opAdd (left right : Value) : Op W :=
  match operands left right with
  | some (.nil, .nil) => give .nil
  | some (.nil, .real b) => read b fun b => give (.real b)
  | some (.nil, .whole _ b) => read b fun b => give (.integer (-b))
  | some (.real a, .nil) => read a fun a => give (.real a)
  | some (.whole _ a, .nil) => read a fun a => give (.integer a)
  | some (.whole _ a, .whole _ b) => onWholes a b fun a b => .integer (a + b)
  | some (a, b) => M.onReals a b fun a b => .real (M.real.add a b)
  | none => M.fallback left .add right

/-! ## Bit operators -/

/-- `eel_op_band`, `eel_op_bor` and `eel_op_bxor`. A boolean is a mask for an integer. -/
def bits (binop : Operator) (f g : BitVec 32 → BitVec 32 → BitVec 32) (left right : Value) : Op W :=
  match operands left right with
  | some (.whole .integer a, .whole .integer b) => onWholes a b fun a b => .integer (f a b)
  | some (.whole .integer a, .whole .boolean b) => onWholes a b fun a b => .integer (f a (-b))
  | some (.whole .boolean a, .whole .integer b) => onWholes a b fun a b => .integer (f (-a) b)
  | some (.whole .boolean a, .whole .boolean b) => onWholes a b fun a b => .boolean (g a b)
  | _ => M.fallback left binop right

/-- `eel_op_shl` and `eel_op_shr`. A real that is shifted by an integer or boolean leaves
the class of the result as it is. -/
def shift (binop : Operator) (f : BitVec 32 → BitVec 32 → BitVec 32) (left right : Value) : Op W :=
  match operands left right with
  | some (.real a, .whole .integer b) | some (.real a, .whole .boolean b) =>
    read a fun a => read b fun b => fun w => .ok (.payload (f (M.real.toInt a) b), w)
  | some (.whole .integer a, .real b) | some (.whole .boolean a, .real b) =>
    read a fun a => read b fun b => give (.integer (f a (M.real.toInt b)))
  | some (.real a, .real b) =>
    read a fun a => read b fun b => give (.integer (f (M.real.toInt a) (M.real.toInt b)))
  | some (.whole .integer a, .whole .integer b) | some (.whole .integer a, .whole .boolean b)
  | some (.whole .boolean a, .whole .integer b) => onWholes a b fun a b => .integer (f a b)
  | _ => M.fallback left binop right

/-- `<<` and `>>` of C. The hardware uses five bits of the count. -/
def shl (a b : BitVec 32) : BitVec 32 := a <<< (b.toNat % 32)

def shr (a b : BitVec 32) : BitVec 32 := a.sshiftRight (b.toNat % 32)

/-- `eel_op_rol` and `eel_op_ror`. -/
def rotate (binop : Operator) (f : BitVec 32 → Nat → BitVec 32) (left right : Value) : Op W :=
  match operands left right with
  | some (.whole .integer a, .whole .integer b) | some (.whole .integer a, .whole .boolean b)
  | some (.whole .boolean a, .whole .integer b) => onWholes a b fun a b => .integer (f a (b.toNat % 32))
  | _ => M.fallback left binop right

/-- The swaps of `eel_op_brev`. -/
def reverse (v : BitVec 32) : BitVec 32 :=
  let tmp := (v <<< 16) ||| (v >>> 16)
  let tmp := ((tmp &&& 0x00ff00ff) <<< 8) ||| ((tmp &&& 0xff00ff00) >>> 8)
  let tmp := ((tmp &&& 0x0f0f0f0f) <<< 4) ||| ((tmp &&& 0xf0f0f0f0) >>> 4)
  let tmp := ((tmp &&& 0x33333333) <<< 2) ||| ((tmp &&& 0xcccccccc) >>> 2)
  ((tmp &&& 0x55555555) <<< 1) ||| ((tmp &&& 0xaaaaaaaa) >>> 1)

def opBrev (left right : Value) : Op W :=
  match operands left right with
  | some (.whole .integer a, .whole .integer b) | some (.whole .boolean a, .whole .integer b) =>
    read a fun a => read b fun b =>
      if (32 : BitVec 32).slt b then throw Xno.highValue
      else if b.slt 0 then throw Xno.lowValue
      else give (.integer (reverse a >>> ((32 - b).toNat % 32)))
  | _ => M.fallback left .brev right

/-! ## Selectors -/

/-- `r.integer.v`, of the result of a comparison. -/
def isSet : Written → Bool
  | .value (.integer v) | .value (.boolean v) | .value (.classid v) | .payload v => v ≠ 0
  | .value _ => false

/-- `eel_op_max` and `eel_op_min`: the one if left is not less, or else the other. -/
def select (left right one other : Value) : Op W := fun w => do
  let (r, w) ← M.opGe left right w
  return (.value (if isSet r then one.copy else other.copy), w)

/-- `eel__operate`. -/
def operate (left : Value) (binop : Operator) (right : Value) : Op W :=
  match binop with
  | .power => M.opPower left right
  | .mod => M.opMod left right
  | .div => M.opDiv left right
  | .mul => M.opMul left right
  | .sub => M.opSub left right
  | .add => M.opAdd left right
  | .band => M.bits .band (· &&& ·) (fun a b => if a ≠ 0 ∧ b ≠ 0 then 1 else 0) left right
  | .bor => M.bits .bor (· ||| ·) (fun a b => if a ≠ 0 ∨ b ≠ 0 then 1 else 0) left right
  | .bxor => M.bits .bxor (· ^^^ ·) (· ^^^ ·) left right
  | .shl => M.shift .shl shl left right
  | .shr => M.shift .shr shr left right
  | .rol => M.rotate .rol BitVec.rotateLeft left right
  | .ror => M.rotate .ror BitVec.rotateRight left right
  | .brev => M.opBrev left right
  | .and => M.opAnd left right
  | .or => M.opOr left right
  | .xor => M.opXor left right
  | .eq => M.opEq left right
  | .ne => inverted (M.opEq left right)
  | .gt => M.opGt left right
  | .ge => M.opGe left right
  | .lt => inverted (M.opGe left right)
  | .le => inverted (M.opGt left right)
  | .min => M.select left right right left
  | .max => M.select left right left right
  | op => M.fallback left op right

/-- `eel__ipoperate`. -/
def ipoperate (left : Value) (binop : Operator) (right : Value) : Op W :=
  match left.obj? with
  | some _ => method (M.objectOp true left binop right)
  | none => if right.obj?.isSome then throw Xno.notImplemented else throw Xno.cantInplace

/-! ## Unary operators -/

def opNeg : Value → Op W
  | .real a => give (.real (Reals.neg a))
  | .integer a | .boolean a => give (.integer (-a))
  | .objref _ | .weakref .. => throw Xno.notImplemented
  | .nil | .classid _ => throw Xno.wrongType

def opCastr (right : Value) : Op W :=
  match right with
  | .nil => give (.real 0)
  | .real a => give (.real a)
  | .integer a | .classid a => give (.real (M.real.ofInt a))
  | .boolean a => give (.real (if a = 0 then 0 else M.real.ofInt 1))
  | .objref _ | .weakref .. => method (M.cast right 1)

def opCasti (right : Value) : Op W :=
  match right with
  | .nil => give (.integer 0)
  | .real a => give (.integer (M.real.floor a))
  | .integer a | .boolean a | .classid a => give (.integer a)
  | .objref _ | .weakref .. => method (M.cast right 2)

def opCastb (right : Value) : Op W :=
  match right with
  | .nil => give (.boolean 0)
  | .real a => give (.truth (Reals.nz a))
  | .integer a | .classid a => give (.truth (a ≠ 0))
  | .boolean a => give (.boolean a)
  | .objref _ | .weakref .. => method (M.cast right 3)

def opTypeof : Value → Op W
  | .nil => give .nil
  | .objref o | .weakref o _ => give (.classid (M.classOf o))
  | v => give (.classid (BitVec.ofNat 32 v.cls))

def opSizeof : Value → Op W
  | .objref o | .weakref o _ => method (M.length o)
  | _ => give (.integer 1)

def opClone (right : Value) : Op W :=
  match right with
  | .objref o | .weakref o _ => method (M.cast right (M.classOf o))
  | v => give v

def opNot : Value → Op W
  | .nil => give (.boolean 1)
  | .real a => give (.real (if Reals.nz a then 0 else M.real.ofInt 1))
  | .integer a => give (.integer (if a = 0 then 1 else 0))
  | .boolean a => give (.boolean (if a = 0 then 1 else 0))
  | .objref _ | .weakref .. | .classid _ => give (.boolean 0)

def opBnot : Value → Op W
  | .integer a => give (.integer (~~~a))
  | _ => throw Xno.wrongType

/-- `eel_unop`. -/
def unop (op : Operator) (right : Value) : Op W :=
  match op with
  | .neg => opNeg right
  | .castr => M.opCastr right
  | .casti => M.opCasti right
  | .castb => M.opCastb right
  | .typeof => M.opTypeof right
  | .sizeof => M.opSizeof right
  | .clone => M.opClone right
  | .not => M.opNot right
  | .bnot => opBnot right
  | _ => throw Xno.notImplemented

end Meta

end Eel
