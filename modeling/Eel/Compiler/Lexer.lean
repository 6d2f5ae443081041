-- SUMMARY: The lexer's characters, white space and string literals.
import Eel.Compiler.Bio

/-!
# The lexer

Characters are integers, with -1 for the end of the source. A compile error
leaves the lexer at once; here it is an `Except.error` with its message. Loops
are given as many rounds as there are characters left: each round reads at least
one, and with none left it does what it does at the end of the source.
-/

namespace Eel

/-- The message of `eel_cerror`. -/
abbrev CompileError := String

/-- Code that reads the source, and may stop with a compile error. -/
abbrev Lex := StateT Bio (Except CompileError)

namespace Lex

variable {α β : Type} {x : Lex α} {f : α → Lex β} {a : α} {b b' : Bio}

/-- A step that is known to return goes on from where it leaves the source. -/
theorem bind_eq (h : x b = .ok (a, b')) : (x >>= f) b = f a b' := by
  change (x b >>= fun p => f p.1 p.2) = f a b'
  rw [h]
  rfl

@[simp] theorem pure_apply (a : α) (b : Bio) : (pure a : Lex α) b = .ok (a, b) := rfl

@[simp] theorem modify_apply (g : Bio → Bio) (b : Bio) :
    (modify g : Lex PUnit) b = .ok (⟨⟩, g b) := rfl

@[simp] theorem get_apply (b : Bio) : (get : Lex Bio) b = .ok (b, b) := rfl

@[simp] theorem throw_apply (e : CompileError) (b : Bio) : (throw e : Lex α) b = .error e := rfl

end Lex

namespace Lexer

/-! ## Characters -/

/-- Line feed, carriage return and tab, which `lex_getchar` lets through. -/
def isBreak (c : Int) : Bool := c == 10 || c == 13 || c == 9

/-- `lex_getchar`. -/
def lexGetchar : Lex Int := do
  let c ← modifyGet Bio.getchar
  if 32 ≤ c then return c
  else if c < 0 then return c
  else if 1 ≤ c ∧ c ≤ 8 then return 10
  else if isBreak c then return c
  else throw "Illegal character! Binary file?"

/-! ## White space -/

/-- The rest of a single line comment, from behind its slashes. -/
def lineComment : Nat → Lex Unit
  | 0 => return ()
  | fuel + 1 => do
    let c ← lexGetchar
    if c < 0 ∨ c = 10 then return () else lineComment fuel

/-- The rest of a C style comment, from behind its opening. -/
def blockComment : Nat → (prevc : Int) → Lex Unit
  | 0, _ => return ()
  | fuel + 1, prevc => do
    let c ← lexGetchar
    if c < 0 ∨ prevc = 42 ∧ c = 47 then return () else blockComment fuel c

/-- `skipwhite`: the first character that is not white space. With `reportEoln`
a line feed is not. -/
def skipWhite (reportEoln : Bool) : Nat → Lex Int
  | 0 => return -1
  | fuel + 1 => do
    let c ← lexGetchar
    if c = 32 ∨ c = 9 ∨ c = 13 then skipWhite reportEoln fuel
    else if c = 10 then
      if reportEoln then return 10 else skipWhite reportEoln fuel
    else if c = 47 then
      let c ← lexGetchar
      if c = 47 then
        lineComment (← get).left
        skipWhite reportEoln fuel
      else if c = 42 then
        blockComment (← get).left 0
        skipWhite reportEoln fuel
      else
        modify Bio.ungetc
        return 47
    else return c

/-- The loop of `parse_string` behind a delimiter: skip white space and line
feeds. That it warns of a continuation without a line feed is left out. -/
def skipToNext : Nat → Lex Int
  | 0 => return -1
  | fuel + 1 => do
    let c ← skipWhite true (← get).left
    if c = 10 then skipToNext fuel else return c

/-! ## Numbers in escapes -/

/-- The value of a character as a figure of any base. -/
def figureValue (n : Int) : Int :=
  if 48 ≤ n ∧ n ≤ 57 then n - 48
  else if 97 ≤ n ∧ n ≤ 122 then n - (97 - 10)
  else if 65 ≤ n ∧ n ≤ 90 then n - (65 - 10)
  else -1

/-- `get_figure`. A character that is no figure is read all the same. -/
def getFigure (base : Int) : Lex Int := do
  let n := figureValue (← lexGetchar)
  return if n < 0 then -1 else if n ≥ base then -1 else n

/-- The loop of `get_num`, with `figures` to go. -/
def getNumLoop (base : Int) (limitOnly : Bool) :
    (figures : Nat) → (value : Int) → (figuresRead : Nat) → Lex Int
  | 0, value, _ => return value
  | figures + 1, value, figuresRead => do
    let n ← getFigure base
    if n < 0 then
      if limitOnly ∧ figuresRead ≠ 0 then return value else return n
    else getNumLoop base limitOnly figures (value * base + n) (figuresRead + 1)

/-- `get_num`. -/
def getNum (base figures : Int) : Lex Int :=
  getNumLoop base (figures < 0) figures.natAbs 0 0

/-! ## String literals -/

/-- The characters that name a control character after a backslash. -/
def namedEscape (c : Int) : Option Int :=
  if c = 97 then some 7         -- a
  else if c = 98 then some 8    -- b
  else if c = 102 then some 12  -- f
  else if c = 110 then some 10  -- n
  else if c = 114 then some 13  -- r
  else if c = 116 then some 9   -- t
  else if c = 118 then some 11  -- v
  else none

/-- What a backslash and what follows it stand for: a character that is stored as
it is, or a code that is still compared with the delimiter. -/
inductive Escape where
  | char (c : Int)
  | code (c : Int)

/-- A number that an escape gives, unless it has no figures. -/
def numEscape (base figures : Int) (message : CompileError) : Lex Int := do
  let c ← getNum base figures
  if c < 0 then throw message
  return c

/-- The escapes of `parse_string`, from behind the backslash. -/
def readEscape : Lex Escape := do
  let c ← lexGetchar
  if c = -1 then throw "End of file inside string escape sequence!"
  else if 48 ≤ c ∧ c ≤ 51 then  -- 0 to 3
    modify Bio.ungetc
    return .code (← numEscape 8 (-3) "Illegal octal number!")
  else if c = 100 then  -- d
    return .code (← numEscape 10 (-3) "Illegal decimal number!")
  else if c = 120 then  -- x
    return .code (← numEscape 16 (-2) "Illegal hex number!")
  else if c = 117 then  -- u
    let c ← numEscape 16 4 "Bad Unicode escape!"
    if c > 255 then
      throw "Unsupported Unicode code point! (Only C0 and C1 implemented at this point.)"
    return .code c
  else match namedEscape c with
    | some c => return .code c
    | none => return .char c

/-- The delimiters of string and character literals. -/
inductive Delim where
  | string
  | character

def Delim.code : Delim → Int
  | .string => 34
  | .character => 39

def Delim.eofMessage : Delim → CompileError
  | .string => "End of file inside string literal!"
  | .character => "End of file inside character literal!"

/-- One round of `parse_string` up to the comparison with the delimiter: nothing
to store, a character to store, or a code to compare. -/
def readPiece (delim : Delim) : Lex (Option Escape) := do
  let c ← lexGetchar
  if c = -1 then throw delim.eofMessage
  else if c = 92 then return some (← readEscape)
  else if isBreak c then return none
  else return some (.code c)

/-- The loop of `parse_string`; `buf` is what the lexer's buffer holds. -/
def parseLoop (delim : Delim) : Nat → List Byte → Lex (List Byte)
  | 0, _ => throw delim.eofMessage
  | fuel + 1, buf => do
    match ← readPiece delim with
    | none => parseLoop delim fuel buf
    | some (.char c) => parseLoop delim fuel (buf ++ [BitVec.ofInt 8 c])
    | some (.code c) =>
      if c = delim.code then
        let c ← skipToNext ((← get).left + 1)
        if c = delim.code then parseLoop delim fuel buf
        else
          modify Bio.ungetc
          return buf
      else parseLoop delim fuel (buf ++ [BitVec.ofInt 8 c])

/-- `parse_string`, from behind the opening delimiter. -/
def parseString (delim : Delim) : Lex (List Byte) := do
  parseLoop delim (← get).left []

end Lexer

end Eel
