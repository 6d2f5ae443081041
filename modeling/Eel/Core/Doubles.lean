-- SUMMARY: The numbers of the VM as a machine with IEEE 754 arithmetic has them.
import Eel.Core.Operate
import Eel.Lib.Binary64

/-!
# Doubles

The arithmetic is that of floating-point numbers of 64 bits. Only `fmod` and `pow`, which a
library has, are left open.
-/

namespace Eel

/-- The conversion to `int`. The hardware makes one integer of all that are out of range. -/
def toInt32 : Option Int → BitVec 32
  | some n => if -2 ^ 31 ≤ n ∧ n < 2 ^ 31 then BitVec.ofInt 32 n else BitVec.intMin 32
  | none => BitVec.intMin 32

def Reals.binary64 (fmod pow : BitVec 64 → BitVec 64 → BitVec 64) : Reals where
  lt := Binary64.lt
  add := Binary64.add
  sub := Binary64.sub
  mul := Binary64.mul
  div := Binary64.div
  fmod := fmod
  pow := pow
  ofInt v := Binary64.ofInt v.toInt
  toInt bits := toInt32 (Binary64.toInt? Int.tdiv bits)
  floor bits := toInt32 (Binary64.toInt? Int.fdiv bits)

theorem natAbs_toInt_lt (v : BitVec 32) : v.toInt.natAbs < 2 ^ 53 := by
  have := BitVec.two_mul_toInt_lt (x := v)
  have := BitVec.le_two_mul_toInt (x := v)
  omega

namespace Meta

/-- The operators of a machine with doubles. -/
def doubles {W : Type} (M : Meta W) (fmod pow : BitVec 64 → BitVec 64 → BitVec 64) : Meta W :=
  { M with real := Reals.binary64 fmod pow }

/-- The operators of a machine with no classes but those of values. -/
def primitives (fmod pow : BitVec 64 → BitVec 64 → BitVec 64) : Meta Unit where
  real := Reals.binary64 fmod pow
  objectOp _ _ _ _ w := .error (.thrown Xno.notImplemented w)
  objectRop _ _ _ w := .error (.thrown Xno.notImplemented w)
  cast _ _ w := .error (.thrown Xno.notImplemented w)
  length _ w := .error (.thrown Xno.notImplemented w)
  classOf _ := 0

end Meta

end Eel
