-- SUMMARY: The scanner of numeric literals: base prefixes, figures, fractions and exponents.
import Eel.Compiler.Lexer
import Eel.Lib.CInt

/-!
# The scanner of numbers

The scanner looks at the character that was read last. Its loops are given a number of rounds,
and do not return when these are used up. Arithmetic is exact.
-/

namespace Eel

namespace Bio

/-- `eel_bio_last`. -/
def last (b : Bio) : Int :=
  if b.pos = 0 then -1
  else match b.data[b.pos - 1]? with
    | some c => c.toNat
    | none => -1

/-- `eel_bio_seek_set`. -/
def seekSet (b : Bio) (offset : Int) : Bio := { b with pos := min offset.toNat b.data.length }

end Bio

/-- Code that reads the source, and may stop with an error, or not return. -/
abbrev Scan (ε : Type) := StateT Bio (ExceptT ε Option)

namespace Scan

variable {ε α : Type}

/-- There are no rounds left. -/
def running : Scan ε α := fun _ => none

/-- `eel_bio_getchar`. -/
def getchar : Scan ε Int := modifyGet Bio.getchar

/-- A number that C may not have. -/
def defined (x : Option α) : Scan ε α := fun b => x.map fun a => .ok (a, b)

end Scan

/-- What `read_num` fails with. -/
inductive NumError where
  | noNumber | badBase | bigBase | badInteger | badExponent
  deriving DecidableEq

namespace Lexer

/-- `IS_NUM`. -/
def isNum (c : Int) : Bool := 48 ≤ c && c ≤ 57

/-- `getfigure`. -/
def figureAt (b : Bio) : Int :=
  let c := b.last
  if isNum c then c - 48
  else if c < 65 then -2
  else
    let c := if 97 ≤ c then c - (97 - 65) else c
    if 90 < c then -3 else c - 65 + 10

/-- The loop of `parse_num`. -/
def parseNum (base : Nat) : (rounds : Nat) → (figures value : Nat) → Scan NumError (Nat × Nat)
  | 0, _, _ => Scan.running
  | rounds + 1, figures, value => do
    let f := figureAt (← get)
    if f < 0 ∨ base ≤ f then return (figures, value)
    else
      let _ ← Scan.getchar
      parseNum base rounds (figures + 1) (value * base + f.toNat)

/-- A base in parentheses, from behind the opening one. -/
def parseBase : (rounds : Nat) → (base : Nat) → Scan NumError Nat
  | 0, _ => Scan.running
  | rounds + 1, base => do
    let c ← Scan.getchar
    if c = 41 then
      let _ ← Scan.getchar
      return base
    else if c < 0 ∨ ¬ isNum c then throw .badBase
    else
      let base ← Scan.defined (CInt.check (base * 10 + (c - 48)))
      parseBase rounds base.toNat

/-- A base prefix, from its leading zero. There is none at the end of the source. -/
def readBase (rounds : Nat) : Scan NumError (Option Nat) := do
  let c ← Scan.getchar
  if c < 0 then return none
  else if c = 118 then  -- v
    let _ ← Scan.getchar
    return some 20
  else if c = 120 then  -- x
    let _ ← Scan.getchar
    return some 16
  else if c = 100 then  -- d
    let c ← Scan.getchar
    if c < 0 then throw .noNumber
    else if c = 100 then
      let _ ← Scan.getchar
      return some 12
    else return some 10
  else if c = 111 then  -- o
    let _ ← Scan.getchar
    return some 8
  else if c = 113 then  -- q
    let _ ← Scan.getchar
    return some 4
  else if c = 98 then  -- b
    let _ ← Scan.getchar
    return some 2
  else if c = 110 then  -- n
    let c ← Scan.getchar
    if c ≠ 40 then throw .badBase
    else
      let base ← parseBase rounds 0
      if base < 2 then throw .badBase else return some base
  else
    modify Bio.ungetc
    return some 10

/-- The integer part, unless the literal starts with the dot. -/
def readInteger (rounds base : Nat) (hasInteger : Bool) : Scan NumError (Bool × Nat) := do
  if (← get).last = 46 then return (hasInteger, 0)
  else
    let (figures, i) ← parseNum base rounds 0 0
    if figures < (if hasInteger then 0 else 1) then throw .badInteger else return (true, i)

/-- The fraction part: how many figures it has, and their value. -/
def readFraction (rounds base : Nat) : Scan NumError (Option (Nat × Nat)) := do
  if (← get).last = 46 then
    let _ ← Scan.getchar
    return some (← parseNum base rounds 0 0)
  else return none

/-- The characters that an exponent starts with. -/
def isMarker (c : Int) : Bool := c == 101 || c == 69 || c == 112 || c == 80 || c == 64

/-- The sign of an exponent. -/
def skipSign (c : Int) : Scan NumError Unit :=
  if c = 45 ∨ c = 43 then do
    let _ ← Scan.getchar
  else return ()

/-- The exponent part. -/
def readExponent (rounds base : Nat) : Scan NumError Int := do
  if isMarker (← get).last then
    let c ← Scan.getchar
    if c < 0 then throw .badExponent
    else
      skipSign c
      let (figures, e) ← parseNum base rounds 0 0
      if figures = 0 then throw .badExponent else return if c = 45 then -(e : Int) else e
  else return 0

/-- `read_num` behind the base. The result tells whether there was a dot. -/
def readParts (rounds base : Nat) (hasInteger : Bool) : Scan NumError (Bool × ℚ) := do
  let (hasInteger, i) ← readInteger rounds base hasInteger
  let fraction ← readFraction rounds base
  let (figures, f) := fraction.getD (0, 0)
  if fraction.isSome ∧ ¬ (hasInteger ∨ 0 < figures) then throw .noNumber
  else
    let e ← readExponent rounds base
    return (fraction.isSome, (i + f / base ^ figures) * (base : ℚ) ^ e)

/-- `read_num`. -/
def readNum (rounds : Nat) : Scan NumError (Bool × ℚ) := do
  let c := (← get).last
  if ¬ isNum c ∧ c ≠ 46 then throw .noNumber
  else if c = 48 then
    match ← readBase rounds with
    | none => return (false, 0)
    | some base =>
      if 36 < base then throw .bigBase else readParts rounds base true
  else readParts rounds 10 false

/-- `eel_bio_read_num`. -/
def bioReadNum (rounds : Nat) (b : Bio) : Option (Except NumError (Bool × ℚ) × Bio) :=
  let result : Option (Except NumError ((Bool × ℚ) × Bio)) := readNum rounds b
  result.map fun
    | .ok (r, b) => (.ok r, b.ungetc)
    | .error e => (.error e, b.seekSet b.pos)

end Lexer

end Eel
