-- SUMMARY: The tokens of the lexer: names, operators, literals, and the saved states that tokens are pushed back to.
import Eel.Compiler.NumberScan

/-!
# Tokens

The loops of the lexer are those of the source here: they do not return when their rounds are
used up. Symbols are looked up in tables that the lexer does not change.
-/

namespace Eel

namespace Bio

/-- `eel_bio_read`. -/
def read (b : Bio) (count : Nat) : List Byte × Bio :=
  let count := min count b.left
  ((b.data.drop b.pos).take count, b.advance count)

end Bio

/-- `EEL_symtypes`, with what the lexer takes from a symbol. -/
inductive LexSymType where
  | skeyword (token : Nat)
  | svariable | supvalue | sbody
  /-- A namespace, and the table of its symbols. -/
  | snamespace (table : Nat)
  | sconstant | sclass | smodule | sfunction
  /-- An operator, and whether it has the flag `EOPF_NOSHORT`. -/
  | soperator (noshort : Bool)
  deriving DecidableEq

/-- `EEL_symbol`, as far as the lexer reads it. -/
structure LexSymbol where
  id : Nat
  name : List Byte
  type : LexSymType
  deriving DecidableEq

namespace LexSymType

/-- The types of symbols that names are looked up for. -/
def isNamed : LexSymType → Bool
  | smodule => false
  | _ => true

/-- `EEL_SMOPERATOR`. -/
def isOperator : LexSymType → Bool
  | soperator _ => true
  | _ => false

end LexSymType

/-- The symbol tables that the lexer reads. -/
structure SymTables where
  table : Nat → List LexSymbol
  /-- The table of the context, its parent, and so on. -/
  scope : List Nat
  /-- `es->tokentab`. -/
  tokentab : Nat → Option LexSymbol

/-- `eel_finder_go`, of a name in a table, and in those above it unless `localsOnly` is set. -/
def SymTables.find (S : SymTables) (st : List Nat) (localsOnly : Bool) (types : LexSymType → Bool) (name : List Byte) :
    Option LexSymbol :=
  (if localsOnly then st.take 1 else st).findSome? fun t => (S.table t).find? fun s => s.name == name && types s.type

/-- `EEL_lexflags`. -/
structure LexFlags where
  reportEoln : Bool
  localsOnly : Bool
  noOperators : Bool
  characters : Bool
  noSkipwhite : Bool
  dottedName : Bool
  deriving DecidableEq

/-- `EEL_token`, as far as the lexer returns them. -/
inductive LexToken where
  | eof
  | char (c : Int)
  | rnum | inum | string | name | weakassign
  | keyword (token : Nat)
  | symConstant | symClass | symVariable | symFunction | symOperator | symShortop | symBody
  | symbol
  deriving DecidableEq

/-- `EEL_lval`. -/
inductive LVal where
  | none
  | real (r : ℚ)
  | integer (i : BitVec 32)
  | string (s : List Byte)
  | symref (sym : LexSymbol)
  deriving DecidableEq

/-- What conversions of numbers to integers give that have no result in C. -/
structure NumCasts where
  int : ℚ → Int
  uint : ℚ → Int

namespace Scan

def ofLex {α : Type} (x : Lex α) : Scan CompileError α := fun b => some (x b)

/-- `lex_getchar`. -/
def lexGetchar : Scan CompileError Int := ofLex Lexer.lexGetchar

end Scan

namespace Lexer

/-! ## White space -/

def lineCommentLoop : (rounds : Nat) → Scan CompileError Unit
  | 0 => Scan.running
  | rounds + 1 => do
    let c ← Scan.lexGetchar
    if c < 0 ∨ c = 10 then return () else lineCommentLoop rounds

def blockCommentLoop : (rounds : Nat) → (prevc : Int) → Scan CompileError Unit
  | 0, _ => Scan.running
  | rounds + 1, prevc => do
    let c ← Scan.lexGetchar
    if c < 0 ∨ prevc = 42 ∧ c = 47 then return () else blockCommentLoop rounds c

/-- `skipwhite`. -/
def skipwhiteLoop (reportEoln : Bool) : (rounds : Nat) → Scan CompileError Int
  | 0 => Scan.running
  | rounds + 1 => do
    let c ← Scan.lexGetchar
    if c = 32 ∨ c = 9 ∨ c = 13 then skipwhiteLoop reportEoln rounds
    else if c = 10 then
      if reportEoln then return 10 else skipwhiteLoop reportEoln rounds
    else if c = 47 then
      let c ← Scan.lexGetchar
      if c = 47 then
        lineCommentLoop rounds
        skipwhiteLoop reportEoln rounds
      else if c = 42 then
        blockCommentLoop rounds 0
        skipwhiteLoop reportEoln rounds
      else
        modify Bio.ungetc
        return 47
    else return c

/-! ## Strings and characters -/

def skipToNextLoop : (rounds : Nat) → Scan CompileError Int
  | 0 => Scan.running
  | rounds + 1 => do
    let c ← skipwhiteLoop true (rounds + 1)
    if c = 10 then skipToNextLoop rounds else return c

/-- `parse_string`. -/
def parseStringLoop (delim : Delim) : (rounds : Nat) → List Byte → Scan CompileError (List Byte)
  | 0, _ => Scan.running
  | rounds + 1, buf => do
    match ← Scan.ofLex (readPiece delim) with
    | none => parseStringLoop delim rounds buf
    | some (.char c) => parseStringLoop delim rounds (buf ++ [BitVec.ofInt 8 c])
    | some (.code c) =>
      if c = delim.code then
        let c ← skipToNextLoop (rounds + 1)
        if c = delim.code then parseStringLoop delim rounds buf
        else
          modify Bio.ungetc
          return buf
      else parseStringLoop delim rounds (buf ++ [BitVec.ofInt 8 c])

/-- The integer that a character literal stands for. Characters have signs. -/
def charValue (s : List Byte) : BitVec 32 := s.foldl (fun val c => val <<< 8 ||| c.signExtend 32) 0

/-- A character literal. -/
def lexCharacters (rounds : Nat) : Scan CompileError (LexToken × LVal) := do
  let s ← parseStringLoop .character rounds []
  if 4 < s.length then throw "Character literal too long for the integer type!"
  else return (.inum, .integer (charValue s))

/-- A string literal. -/
def lexString (rounds : Nat) : Scan CompileError (LexToken × LVal) := do
  let s ← parseStringLoop .string rounds []
  return (.string, .string s)

/-! ## Names -/

def isAlpha (c : Int) : Bool := (65 ≤ c && c ≤ 90) || (97 ≤ c && c ≤ 122)

/-- The characters that start a name. -/
def startsName (c : Int) : Bool := isAlpha c || c == 95 || c == 36

/-- The other characters of a name. -/
def isNameChar (dotted : Bool) (c : Int) : Bool := isAlpha c || isNum c || (dotted && c == 46) || c == 95

def nameLoop (dotted : Bool) : (rounds : Nat) → (len : Nat) → Scan CompileError Nat
  | 0, _ => Scan.running
  | rounds + 1, len => do
    let c ← Scan.lexGetchar
    if isNameChar dotted c then nameLoop dotted rounds (len + 1) else return len

/-- A name, from behind its first character. -/
def readName (dotted : Bool) (rounds : Nat) : Scan CompileError (List Byte) := do
  let start := (← get).pos - 1
  let len ← nameLoop dotted rounds 1
  modify fun b => b.seekSet start
  modifyGet fun b => b.read len

/-- The token of a symbol, but for namespaces. -/
def symToken : LexSymType → LexToken
  | .skeyword token => .keyword token
  | .svariable | .supvalue => .symVariable
  | .sbody => .symBody
  | .sconstant => .symConstant
  | .sclass => .symClass
  | .sfunction => .symFunction
  | .soperator _ => .symOperator
  | .snamespace _ | .smodule => .symbol

/-- The table that the lexer looks in, and whether only there. -/
structure Lookup where
  st : List Nat
  localsOnly : Bool

/-- The loop over names that are qualified with namespaces: a token, or the character that is no
name and where operators are to be looked up. -/
def lexNames (S : SymTables) (flags : LexFlags) :
    (rounds : Nat) → (c : Int) → Lookup → Scan CompileError ((LexToken × LVal) ⊕ (Int × Lookup))
  | 0, _, _ => Scan.running
  | rounds + 1, c, l =>
    if startsName c then do
      let name ← readName flags.dottedName (rounds + 1)
      if flags.dottedName then return .inl (.name, .string name)
      else
        match S.find l.st l.localsOnly LexSymType.isNamed name with
        | none => return .inl (.name, .string name)
        | some sym =>
          match sym.type with
          | .snamespace table => do
            let c ← skipwhiteLoop flags.reportEoln (rounds + 1)
            if c ≠ 46 then
              modify Bio.ungetc
              return .inl (.symbol, .symref sym)
            else
              let c ← skipwhiteLoop flags.reportEoln (rounds + 1)
              lexNames S flags rounds c ⟨[table], true⟩
          | type => return .inl (symToken type, .symref sym)
    else return .inr (c, l)

/-- `ESS_TOKEN_BASE`. -/
def essTokenBase : Int := 128

/-- `ESS_TOKENS`. -/
def essTokens : Int := 58

/-- A keyword of a tokenized file. -/
def lexTokenized (S : SymTables) (flags : LexFlags) (c : Int) : Scan CompileError (LexToken × LVal) :=
  match S.tokentab (c - essTokenBase).toNat with
  | none => throw ("Undefined ESS token " ++ toString c ++ "!")
  | some sym =>
    match sym.type with
    | .skeyword _ | .sclass | .soperator _ =>
      if flags.localsOnly then return (.name, .string sym.name) else return (symToken sym.type, .symref sym)
    | _ => throw ("ESS token " ++ toString c ++ " gave unsupported symbol type!")

/-! ## Operators -/

/-- The characters of operators: `! # % & * + - / : < = > ? @ ^ | ~`. -/
def operatorChars : List Int := [33, 35, 37, 38, 42, 43, 45, 47, 58, 60, 61, 62, 63, 64, 94, 124, 126]

/-- `grab_operator`, with room for as many characters. -/
def grabOperator : (room : Nat) → (c : Int) → (buf : List Byte) → Scan CompileError (List Byte)
  | 0, _, _ => throw "That's a pretty long operator token...!"
  | room + 1, c, buf =>
    if c ∈ operatorChars then do
      let c' ← Scan.lexGetchar
      grabOperator room c' (buf ++ [BitVec.ofInt 8 c])
    else do
      if buf ≠ [] then modify Bio.ungetc
      return buf

/-- `check_weakassign`. -/
def checkWeakassign (c : Int) : Scan CompileError Bool :=
  if c = 40 then do
    let c ← Scan.lexGetchar
    if c = 61 then
      let c ← Scan.lexGetchar
      if c = 41 then return true
      else
        modify Bio.ungetc
        modify Bio.ungetc
        return false
    else
      modify Bio.ungetc
      return false
  else return false

/-- The loop that shortens a word until it is an operator, if it ever is. -/
def findOperator (S : SymTables) (l : Lookup) (word : List Byte) :
    (len : Nat) → (removedEq : Bool) → Scan CompileError (Option (LexToken × LVal))
  | 0, _ => return none
  | len + 1, removedEq =>
    match S.find l.st l.localsOnly LexSymType.isOperator (word.take (len + 1)) with
    | some sym =>
      if sym.type = .soperator true then return some (.symOperator, .symref sym)
      else if removedEq then do
        let _ ← Scan.lexGetchar
        return some (.symShortop, .symref sym)
      else return some (.symOperator, .symref sym)
    | none => do
      modify Bio.ungetc
      findOperator S l word len (word[len]? = some 61)

/-! ## Numbers -/

/-- The part of a number in front of the dot. -/
def truncate (r : ℚ) : Int := if 0 ≤ r then ⌊r⌋ else ⌈r⌉

/-- `(EEL_integer)`. -/
def toInteger (X : NumCasts) (r : ℚ) : Int := if CInt.InRange (truncate r) then truncate r else X.int r

/-- `(EEL_uinteger)`. -/
def toUinteger (X : NumCasts) (r : ℚ) : Int :=
  if 0 ≤ truncate r ∧ truncate r < 2 ^ 32 then truncate r else X.uint r

/-- The token of a number. -/
def numToken (X : NumCasts) (isReal : Bool) (r : ℚ) : LexToken × LVal :=
  if isReal then (.rnum, .real r)
  else if toInteger X r = r then (.inum, .integer (BitVec.ofInt 32 (toInteger X r)))
  else if toUinteger X r = r then (.inum, .integer (BitVec.ofInt 32 (toUinteger X r)))
  else (.rnum, .real r)

def NumError.message : NumError → CompileError
  | .noNumber => ""
  | .badBase => "Bad base syntax in numeric literal!"
  | .bigBase => "Too big base in numeric literal!"
  | .badInteger => "Bad integer part in numeric literal!"
  | .badExponent => "Bad exponent in numeric literal!"

/-- A number, or else the character that was read. -/
def lexNumber (X : NumCasts) (rounds : Nat) : Scan CompileError (LexToken × LVal) := fun b =>
  (bioReadNum rounds b).map fun
    | (.ok (isReal, r), b) => .ok (numToken X isReal r, b)
    | (.error .noNumber, b) => .ok ((.char b.last, .none), b)
    | (.error e, _) => .error (NumError.message e)

/-- Operators, unless they are not wanted, and numbers. -/
def lexRest (S : SymTables) (X : NumCasts) (flags : LexFlags) (rounds : Nat) (c : Int) (l : Lookup) :
    Scan CompileError (LexToken × LVal) :=
  if flags.noOperators then lexNumber X rounds
  else do
    let pos := (← get).pos
    if ← checkWeakassign c then return (.weakassign, .none)
    else
      let word ← grabOperator 17 c []
      match ← findOperator S l word word.length false with
      | some r => return r
      | none =>
        modify fun b => b.seekSet pos
        lexNumber X rounds

/-! ## The lexer -/

/-- `eel_lex` behind the white space. -/
def lexFrom (S : SymTables) (X : NumCasts) (flags : LexFlags) (rounds : Nat) (c : Int) :
    Scan CompileError (LexToken × LVal) :=
  if c < 0 then return (.eof, .none)
  else if essTokenBase ≤ c ∧ c < essTokenBase + essTokens then lexTokenized S flags c
  else if flags.characters ∧ 32 < c ∧ c ≤ 127 then return (.char c, .none)
  else if c = 39 then lexCharacters rounds
  else if c = 34 then lexString rounds
  else do
    match ← lexNames S flags rounds c ⟨S.scope, flags.localsOnly⟩ with
    | .inl r => return r
    | .inr (c, l) => lexRest S X flags rounds c l

/-- The token and the value that `eel_lex` finds. -/
def lexToken (S : SymTables) (X : NumCasts) (flags : LexFlags) (rounds : Nat) :
    Scan CompileError (LexToken × LVal) := do
  let c ← if flags.noSkipwhite then Scan.lexGetchar else skipwhiteLoop flags.reportEoln rounds
  lexFrom S X flags rounds c

end Lexer

/-- `EEL_lexitem`. -/
structure LexItem where
  lval : LVal
  token : LexToken
  pos : Int

/-- The part of `EEL_state` that the lexer changes. -/
structure LexState where
  bio : Bio
  lval : LVal
  token : LexToken
  /-- `es->ls[0]`. -/
  ls₀ : LexItem
  /-- `es->ls[1]`. -/
  ls₁ : LexItem

/-- `eel_lex`. -/
def eelLex (S : SymTables) (X : NumCasts) (flags : LexFlags) (rounds : Nat) (es : LexState) :
    Option (Except CompileError LexState) :=
  let result : Option (Except CompileError ((LexToken × LVal) × Bio)) := Lexer.lexToken S X flags rounds es.bio
  result.map fun r => r.map fun ((token, lval), bio) => ⟨bio, lval, token, ⟨es.lval, es.token, es.bio.pos⟩, es.ls₀⟩

/-- `eel_unlex`. -/
def eelUnlex (es : LexState) : Except CompileError LexState :=
  if es.ls₀.pos < 0 then .error " Too deep unlex()ing!"
  else .ok ⟨es.bio.seekSet es.ls₀.pos, es.ls₀.lval, es.ls₀.token, es.ls₁, ⟨.none, .eof, -1⟩⟩

end Eel
