-- SUMMARY: Values, exception codes and objects as the core sees them, with the hash codes of values.
import Mathlib.Logic.Function.Basic

/-!
# Values

An `EEL_value` is a class tag with a payload. Reals are kept as their bits, and
references as the identity of the object they refer to.
-/

namespace Eel

/-! ## Exception codes -/

/-- `EEL_xno`. Any integer can be thrown, so codes are not an enumeration. -/
abbrev Xno := BitVec 32

namespace Xno

def ok : Xno := 0
def yield : Xno := 1
def counter : Xno := 2
def «end» : Xno := 3
def «return» : Xno := 4
def refuse : Xno := 5
def other : Xno := 6
def internal : Xno := 9
def illegal : Xno := 11
def cantIndex : Xno := 15
def arguments : Xno := 23
def fewArgs : Xno := 24
def manyArgs : Xno := 25
def tupleArgs : Xno := 26
def noResult : Xno := 27
def needObject : Xno := 32
def needCallable : Xno := 39
def wrongType : Xno := 41
def lowIndex : Xno := 44
def highIndex : Xno := 45
def wrongIndex : Xno := 46

end Xno

/-! ## Values -/

/-- `char`. -/
abbrev Byte := BitVec 8

/-- The identity of an object: its address. -/
abbrev ObjId := Nat

/-- `EEL_hash`. -/
abbrev Hash := BitVec 32

inductive Value where
  | nil
  | real (bits : BitVec 64)
  | integer (v : BitVec 32)
  | boolean (v : BitVec 32)
  | classid (v : BitVec 32)
  | objref (o : ObjId)
  /-- `wired` unless the index field is `EEL_WEAKREF_UNWIRED`. -/
  | weakref (o : ObjId) (wired : Bool)
  deriving DecidableEq, Repr

/-- What tables and strings read of the objects that values refer to. -/
structure Objects where
  /-- Whether the object is a pooled string. -/
  isString : ObjId → Bool
  /-- The `hash` field of a pooled string. -/
  hash : ObjId → Hash
  /-- `EEL_MM_COMPARE`, or `none` when the metamethod fails. -/
  compare : ObjId → Value → Option (BitVec 32)
  /-- The hash code of a real. The source reads the class tag and the padding in
  front of the number, so nothing relates this code to the number. -/
  realHash : BitVec 64 → Hash

namespace Value

/-- `eel_v2o`, of the values `EEL_IS_OBJREF` accepts. -/
def obj? : Value → Option ObjId
  | .objref o => some o
  | .weakref o _ => some o
  | _ => none

/-- `eel_v_copy`. An unwired weak reference is attached, a wired one becomes a
strong reference. -/
def copy : Value → Value
  | .weakref o false => .weakref o true
  | .weakref o true => .objref o
  | v => v

/-- `eel_v_clone`. Weak references stay weak. -/
def clone : Value → Value
  | .weakref o _ => .weakref o true
  | v => v

/-- What `eel_kill_weakrefs` leaves of a value when object `o` is destroyed. -/
def kill (o : ObjId) : Value → Value
  | .weakref o' true => if o' = o then .nil else .weakref o' true
  | v => v

/-- Equality of doubles: zeros are equal whatever their sign, NaNs to nothing. -/
def realEq (a b : BitVec 64) : Bool :=
  let mag (x : BitVec 64) := x &&& 0x7fffffffffffffff
  let nan (x : BitVec 64) := 0x7ff0000000000000 < mag x
  !nan a && !nan b && (a == b || mag a == 0 && mag b == 0)

/-! ## Hash codes -/

/-- The constant every hash code starts from. -/
def hashSeed : Hash := 1315423911

/-- One step of the hash loops: mix the next unit of data in. -/
def hashMix (hash unit : Hash) : Hash :=
  hash ^^^ ((hash <<< 5) + unit + (hash >>> 2))

/-- `eel_v2hash`. -/
def hash (O : Objects) : Value → Hash
  | .nil => hashSeed
  | .real bits => O.realHash bits
  | .integer v => (hashSeed <<< 2) ^^^ v
  | .boolean v => (hashSeed <<< 3) ^^^ v
  | .classid v => (hashSeed <<< 4) ^^^ v
  | .objref o | .weakref o _ =>
    if O.isString o then O.hash o
    else hashMix (hashMix hashSeed (BitVec.ofNat 32 o)) (BitVec.ofNat 32 (o >>> 32))

end Value

end Eel
