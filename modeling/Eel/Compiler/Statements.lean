-- SUMMARY: The statement level of the parser: which rule takes what, and what `block`, `body` and `compile2` make of the answers.
import Eel.Compiler.Contexts
import Eel.Lib.Procedures

/-!
# Statements

The parser has one function for each rule of the grammar. A function that finds that the
text is not its own answers `TK_WRONG`, and has then put back what it took. The rules are
here up to the point where they answer something else or raise an error; what they read
from there on, and the code they write, is a program that may ask for further statements.
-/

namespace Eel

/-- `EEL_token`, up to the symbols. A class symbol comes with whether the class is `EEL_CMODULE`. -/
inductive Token where
  | eof
  | char (c : Char)
  | rnum
  | inum
  | string
  | name
  | weakassign
  | kwInclude
  | kwImport
  | kwAs
  | kwEnd
  | kwEelversion
  | kwReturn
  | kwIf
  | kwElse
  | kwSwitch
  | kwCase
  | kwDefault
  | kwFor
  | kwDo
  | kwWhile
  | kwUntil
  | kwBreak
  | kwContinue
  | kwRepeat
  | kwTry
  | kwUntry
  | kwExcept
  | kwThrow
  | kwRetry
  | kwException
  | kwLocal
  | kwStatic
  | kwUpvalue
  | kwExport
  | kwShadow
  | kwConstant
  | kwProcedure
  | kwTrue
  | kwFalse
  | kwNil
  | kwArguments
  | kwTuples
  | kwSpecified
  | symbol
  | symConstant
  | symClass (isModule : Bool)
  | symVariable
  | symFunction
  | symOperator
  | symShortop
  | symBody
  deriving DecidableEq

/-- The answers of the parser functions. -/
inductive Answer where
  | body
  | block
  | statement
  | void
  | empty
  | wrong
  | eof
  deriving DecidableEq

/-- The flags of a context that `body` and `statement` look at, and those that `jumps` keeps for
`break`, `continue` and `repeat`. -/
structure ContextFlags where
  function : Bool
  conditional : Bool
  keep : Bool
  jumps : Nat

/-- No flags. -/
def ContextFlags.none : ContextFlags := ⟨false, false, false, 0⟩

/-- The rules below `statement2`. -/
inductive Rule where
  | eelversion
  | throwstat
  | retrystat
  | importstat (forward : Bool)
  | ifstat
  | switchstat
  | whilestat
  | dostat
  | forstat
  | breakstat
  | contstat
  | repeatstat
  | returnstat
  | trystat
  | untrystat
  | constdeclstat (doExport : Bool)
  | assignstat

/-- The parser between two tokens: the current token, where the lexer is in the text, and the
contexts, with the symbols and the code in them. -/
structure ParserState (L C : Type) where
  token : Token
  lexer : L
  context : C

/-- What the rules ask for. -/
inductive Ask (L C : Type) where
  | statement (flags : ContextFlags) (s : ParserState L C)
  | body (flags : ContextFlags) (s : ParserState L C)

/-- The functions that call each other. -/
inductive ParserCall (L C : Type) where
  | ask (a : Ask L C)
  | statement2 (s : ParserState L C)
  | block (s : ParserState L C)
  /-- The loop of `block`. -/
  | more (s : ParserState L C)

/-- What the statement level of the parser works with: the lexer, the contexts, and the rest of each
rule. A symbol is looked up in the contexts, so the lexer depends on them. -/
structure Parser (L C : Type) where
  /-- `eel_lex`, without flags. -/
  lexed : L → C → Option (Token × L)
  /-- `eel_lex`, with `ELF_DOTTED_NAME`. -/
  lexedDotted : L → C → Option (Token × L)
  /-- `eel_relex`, without flags. -/
  relexed : L → C → Option (Token × L)
  /-- `eel_context_push`, for a body, with its name if it has one. -/
  pushBody : Option L → ContextFlags → C → C
  /-- `eel_context_push`, for a statement. -/
  pushBlock : ContextFlags → C → C
  /-- `code_leave_context` and `eel_context_pop`. -/
  leave : C → C
  /-- `eel_context_pop`. -/
  pop : C → C
  /-- What `compile2` does with the name of the module. -/
  named : L → C → Option C
  /-- The context of the function `__init_module`. -/
  init : C → C
  /-- The code of the module is finished without errors. -/
  finished : C → Bool
  /-- The rest of the rule, from where it recognizes the text as its own. -/
  rest : Rule → ParserState L C → Procedures.Prog (Ask L C) (Answer × ParserState L C) (ParserState L C)

/-- The tokens `simplexp` and `expression3` take something from, or raise an error at: those that
`parse_qualifiers` and `simplexp2` look for, with the rules `call`, `vardecl`, `funcdef`, `arginfo` and
`ctor`, and the operators. -/
def Token.startsExpression : Token → Bool
  | kwLocal | kwStatic | kwUpvalue | kwExport | kwShadow => true
  | inum | rnum | symOperator | kwTrue | kwFalse | kwNil | string | symConstant | symVariable => true
  | kwException => true
  | char '#' | char '(' => true
  | symFunction => true
  | name | symClass _ => true
  | kwProcedure => true
  | kwArguments | kwTuples | kwSpecified => true
  | char '[' | char '{' => true
  | _ => false

namespace Parser

open Procedures Prog

variable {L C : Type} (P : Parser L C)

abbrev Parse (L C α : Type) := Prog (ParserCall L C) (Answer × ParserState L C) α

/-! ## Tokens and contexts -/

/-- `eel_lex(es, 0)`. -/
def lex (s : ParserState L C) : Option (ParserState L C) :=
  (P.lexed s.lexer s.context).map fun p => { s with token := p.1, lexer := p.2 }

def lexDotted (s : ParserState L C) : Option (ParserState L C) :=
  (P.lexedDotted s.lexer s.context).map fun p => { s with token := p.1, lexer := p.2 }

def relex (s : ParserState L C) : Option (ParserState L C) :=
  (P.relexed s.lexer s.context).map fun p => { s with token := p.1, lexer := p.2 }

/-- `expect`. -/
def expect (c : Char) (s : ParserState L C) : Option (ParserState L C) :=
  if s.token = .char c then P.lex s else none

/-- The context of a body that is not that of a function. -/
def enterBody (name : Option L) (flags : ContextFlags) (s : ParserState L C) : ParserState L C :=
  if flags.function then s else { s with context := P.pushBody name flags s.context }

def leaveBody (flags : ContextFlags) (s : ParserState L C) : ParserState L C :=
  if flags.function || flags.keep then s else { s with context := P.leave s.context }

/-- The context of a conditional statement. -/
def wrap (flags : ContextFlags) (s : ParserState L C) : ParserState L C :=
  if flags.conditional then { s with context := P.pushBlock flags s.context } else s

def unwrap (flags : ContextFlags) (s : ParserState L C) : ParserState L C :=
  if flags.conditional && !flags.keep then { s with context := P.leave s.context } else s

/-- The context `forstat` parses in. -/
def enterFor (s : ParserState L C) : ParserState L C :=
  { s with context := P.pushBody none .none s.context }

/-! ## The rules -/

/-- The rest of the rule reads the statement from here on. -/
def takes (rule : Rule) (s : ParserState L C) : Parse L C (Answer × ParserState L C) := do
  let s ← (P.rest rule s).relabel .ask
  return (.statement, s)

/-- A rule that a keyword leads in. -/
def keywordstat (keyword : Token) (rule : Rule) (s : ParserState L C) :
    Parse L C (Answer × ParserState L C) :=
  if s.token = keyword then P.takes rule s else return (.wrong, s)

def importstat (s : ParserState L C) : Parse L C (Answer × ParserState L C) :=
  match s.token with
  | .kwExport => do
    let t ← ofOption (P.lex s)
    if t.token = .kwImport then P.takes (.importstat true) t else return (.wrong, s)
  | .kwImport => P.takes (.importstat false) s
  | _ => return (.wrong, s)

def ifstat := P.keywordstat .kwIf .ifstat

def switchstat := P.keywordstat .kwSwitch .switchstat

def whilestat := P.keywordstat .kwWhile .whilestat

def dostat := P.keywordstat .kwDo .dostat

/-- Where no expression follows, `forstat` does not put back the keyword it took. -/
def forstat (s : ParserState L C) : Parse L C (Answer × ParserState L C) :=
  if s.token = .kwFor then do
    let s ← ofOption (P.lex s)
    let s := P.enterFor s
    if s.token.startsExpression then P.takes .forstat s
    else return (.wrong, { s with context := P.pop s.context })
  else return (.wrong, s)

def breakstat := P.keywordstat .kwBreak .breakstat

def contstat := P.keywordstat .kwContinue .contstat

def repeatstat := P.keywordstat .kwRepeat .repeatstat

def returnstat := P.keywordstat .kwReturn .returnstat

def trystat := P.keywordstat .kwTry .trystat

def untrystat := P.keywordstat .kwUntry .untrystat

def constdeclstat (s : ParserState L C) : Parse L C (Answer × ParserState L C) :=
  match s.token with
  | .kwConstant => P.takes (.constdeclstat false) s
  | .kwExport => do
    let t ← ofOption (P.lex s)
    if t.token = .kwConstant then P.takes (.constdeclstat true) t else return (.wrong, s)
  | _ => return (.wrong, s)

def assignstat (s : ParserState L C) : Parse L C (Answer × ParserState L C) :=
  if s.token.startsExpression then P.takes .assignstat s else return (.wrong, s)

/-- The first rule that does not answer `TK_WRONG` has parsed the statement. -/
def tryRules : List (ParserState L C → Parse L C (Answer × ParserState L C)) → ParserState L C →
    Parse L C (Answer × ParserState L C)
  | [], s => return (.wrong, s)
  | rule :: rules, s => do
    let (res, s) ← rule s
    if res = .wrong then tryRules rules s else return (.statement, s)

def statement2 (s : ParserState L C) : Parse L C (Answer × ParserState L C) :=
  match s.token with
  | .eof | .kwEnd => return (.eof, s)
  | .char ';' => do
    let s ← ofOption (P.lex s)
    return (.void, s)
  | .kwEelversion => P.takes .eelversion s
  | .symClass true => fail
  | .kwThrow => P.takes .throwstat s
  | .kwRetry => P.takes .retrystat s
  | _ =>
    tryRules
      [P.importstat, P.ifstat, P.switchstat, P.whilestat, P.dostat, P.forstat, P.breakstat, P.contstat,
        P.repeatstat, P.returnstat, P.trystat, P.untrystat, P.constdeclstat, P.assignstat] s

/-! ## Bodies and blocks -/

/-- The rest of `body`, from its opening brace on. -/
def bracesBody (name : Option L) (flags : ContextFlags) (s : ParserState L C) :
    Parse L C (Answer × ParserState L C) := do
  let s ← ofOption (P.lex s)
  let (res, s) ← ask (.block (P.enterBody name flags s))
  if res = .eof then fail
  else
    let s ← ofOption (P.expect '}' (P.leaveBody flags s))
    return (if res = .void ∨ res = .empty then res else .body, s)

def body (flags : ContextFlags) (s : ParserState L C) : Parse L C (Answer × ParserState L C) :=
  match s.token with
  | .char '{' => P.bracesBody none flags s
  | .name => do
    let t ← ofOption (P.lex s)
    if t.token = .char ':' then
      if flags.function then fail
      else
        let t ← ofOption (P.lex t)
        if t.token = .char '{' then P.bracesBody (some s.lexer) flags t else fail
    else return (.wrong, s)
  | _ => return (.wrong, s)

def statement (flags : ContextFlags) (s : ParserState L C) : Parse L C (Answer × ParserState L C) := do
  let (res, s) ← ask (.ask (.body flags s))
  match res with
  | .wrong => do
    let (res, s) ← ask (.statement2 (P.wrap flags s))
    return (res, P.unwrap flags s)
  | .void => return (.empty, s)
  | _ => return (.statement, s)

def block (s : ParserState L C) : Parse L C (Answer × ParserState L C) := do
  let (res, s) ← ask (.ask (.statement .none s))
  match res with
  | .empty => return (.empty, s)
  | .void | .wrong => return (.void, s)
  | .eof => return (.eof, s)
  | _ => ask (.more s)

def more (s : ParserState L C) : Parse L C (Answer × ParserState L C) := do
  let (res, s) ← ask (.ask (.statement .none s))
  match res with
  | .wrong => return (.block, s)
  | .eof => return (.eof, s)
  | _ => ask (.more s)

/-- The functions. -/
def code : ParserCall L C → Parse L C (Answer × ParserState L C)
  | .ask (.statement flags s) => P.statement flags s
  | .ask (.body flags s) => P.body flags s
  | .statement2 s => P.statement2 s
  | .block s => block s
  | .more s => more s

/-! ## Modules -/

/-- The module declaration, if there is one. -/
def declaration (s : ParserState L C) : Option (ParserState L C) :=
  if s.token = .symClass true then do
    let s ← P.lexDotted s
    if s.token = .name then
      let context ← P.named s.lexer s.context
      let s ← P.lex { s with context := context }
      P.expect ';' s
    else none
  else some s

/-- `compile2`, from the first token on, as far as it parses. It returns where the parser stops. -/
def compile2 (s : ParserState L C) : Parse L C (ParserState L C) := do
  let s ← ofOption (P.declaration s)
  let s ← ofOption (P.relex { s with context := P.init s.context })
  let (res, s) ← ask (.block s)
  if res = .wrong then fail
  else if P.finished s.context then return s else fail

end Parser

end Eel
