-- SUMMARY: The code of `for` statements: what the compiler knows about leaving the body, and where the jumps go.
import Eel.Compiler.Jumps
import Eel.Compiler.Manip

/-!
# For statements

The loop variable is in register `a`, the step in `b` and the bound in `c`. Code is made for whatever
the compiler does not take for unreachable.
-/

namespace Eel

/-! ## Leaving a context -/

namespace Tristate

/-- `EEL_ENOT`. -/
def not : Tristate → Tristate
  | .no => .yes
  | .yes => .no
  | .maybe => .maybe

/-- The number of an `EEL_cestate`. -/
def rank : Tristate → Nat
  | .no => 0
  | .maybe => 1
  | .yes => 2

end Tristate

/-- What `eel_test_exit` looks at: events of the function, and others of the current context. -/
structure Exits where
  /-- `EEL_EEXIT`. -/
  exit : Tristate
  /-- `EEL_ERETURN`. -/
  ret : Tristate
  /-- `EEL_ETARGET` of the current context. -/
  target : Tristate
  -- Break events of the current context, by how far out they go
  breakto : Nat
  maybeBreakto : Nat

namespace Exits

variable (e : Exits)

/-- `test_break`. -/
def testBreak : Tristate :=
  if e.breakto ≠ 0 then .yes else if e.maybeBreakto ≠ 0 then .maybe else .no

/-- `eel_test_exit`. -/
def testExit : Tristate :=
  if e.target = .yes then .no
  else if e.exit = .yes then .yes
  else if e.ret = .yes then .yes
  else if e.testBreak = .yes then .yes
  else if e.exit = .no ∧ e.ret = .no ∧ e.testBreak = .no then .no
  else .maybe

/-- `eel_e_target`. -/
def eTarget (st : Tristate) : Exits :=
  if e.target.rank < st.rank then { e with target := st } else e

/-- `eel_e_break` of a context that is so many levels out. -/
def eBreak (depth : Nat) : Exits := { e with breakto := max e.breakto depth }

/-- In a new context. -/
def push : Exits := { e with target := .no, breakto := 0, maybeBreakto := 0 }

end Exits

/-- `EEL_codemark`. -/
structure Codemark where
  pos : Int
  xstate : Tristate

/-- The code so far, and the context of the body of a loop. -/
structure LoopContext where
  code : List Byte
  exits : Exits
  contjumps : List Codemark
  endjumps : List Codemark

inductive ForError where
  | code (e : CodeError)
  | jump (e : JumpError)

namespace LoopContext

variable (ctx : LoopContext)

def coder : Coder := ⟨ctx.code, ctx.exits.testExit = .yes⟩

/-- `code_leave_context`. -/
def codeClean (clean : Option (BitVec 32)) : Except CodeError Coder :=
  match clean with
  | none => .ok ctx.coder
  | some n => Prod.snd <$> ctx.coder.codeA .clean n

/-- `code_break` and `code_next`: a jump out of the context of the body, which may first clean variables. The mark is
where the jump is, if there is one. -/
def jumpOut (clean : Option (BitVec 32)) (depth : Nat) :
    Except CodeError (Option Codemark × LoopContext) :=
  let xs := ctx.exits.testExit.not
  if xs = .no then .ok (none, ctx)
  else do
    let cdr ← ctx.codeClean clean
    let (pos, cdr) ← cdr.codesAx .jump 0
    return (some ⟨pos, xs⟩, { ctx with code := cdr.code, exits := ctx.exits.eBreak depth })

/-- `code_break`. -/
def codeBreak (clean : Option (BitVec 32)) (depth : Nat) : Except CodeError LoopContext := do
  let (cm, ctx) ← ctx.jumpOut clean depth
  return { ctx with endjumps := cm.toList ++ ctx.endjumps }

/-- `code_next`. -/
def codeNext (clean : Option (BitVec 32)) (depth : Nat) : Except CodeError LoopContext := do
  let (cm, ctx) ← ctx.jumpOut clean depth
  return { ctx with contjumps := cm.toList ++ ctx.contjumps }

/-- One turn of `code_fixup_continuations` and `code_fixup_breaks`. -/
def fixup (pos : Int) (cm : Codemark) : Except JumpError LoopContext := do
  let code ← Code.setjump ctx.code cm.pos pos
  return { ctx with code, exits := ctx.exits.eTarget cm.xstate }

/-- The loop of both. -/
def fixups (pos : Int) : List Codemark → LoopContext → Except JumpError LoopContext
  | [], ctx => .ok ctx
  | cm :: marks, ctx => do fixups pos marks (← ctx.fixup pos cm)

/-- `code_fixup_continuations`. -/
def fixupContinuations : Except JumpError LoopContext :=
  fixups ctx.code.length ctx.contjumps ctx

/-- `code_fixup_breaks`. -/
def fixupBreaks : Except JumpError LoopContext :=
  fixups ctx.code.length ctx.endjumps ctx

end LoopContext

/-- A `for` statement in code. -/
structure ForCode where
  code : List Byte
  preloop : Nat
  loopstart : Nat
  /-- When the body has been compiled. -/
  body : LoopContext
  /-- Where the code of the loop ends. -/
  after : Nat

/-- The step, if none is given. -/
def defaultStep (b : BitVec 32) (given : Bool) (cdr : Coder) : Except CodeError Coder :=
  if given then .ok cdr else Prod.snd <$> cdr.codeAsBx .ldi b 1

/-- The branch at the start of the loop, and the context of the body. -/
def openLoop (a b c : BitVec 32) (given : Bool) (code : List Byte) (exits : Exits) :
    Except ForError (Int × LoopContext) := do
  let cdr ← (defaultStep b given ⟨code, exits.testExit = .yes⟩).mapError .code
  let (preloop, cdr) ← (cdr.codeABCsDx .preloop a b c 0).mapError .code
  return (preloop, ⟨cdr.code, exits.push, [], []⟩)

/-- Where `continue` has landed: the test of the loop, and the jumps to the start and to the end of it. -/
def closeLoop (a b c : BitVec 32) (preloop : Int) (loopstart : Nat) (ctx : LoopContext) :
    Except ForError LoopContext := do
  let (loopjump, cdr) ← (ctx.coder.codeABCsDx .loop a b c 0).mapError .code
  let code ← (Code.setjump cdr.code loopjump loopstart).mapError .jump
  let code ← (Code.setjump code preloop code.length).mapError .jump
  return { ctx with code }

/-- `forstat`, from where the registers of the loop variable, the bound and the step, if one is given, are set. The
body is `statement` with `code_leave_context`. -/
def forstat (a b c : BitVec 32) (given : Bool) (statement : LoopContext → Except ForError LoopContext)
    (code : List Byte) (exits : Exits) : Except ForError ForCode := do
  let (preloop, ctx) ← openLoop a b c given code exits
  let loopstart := ctx.code.length
  let body ← statement ctx
  let ctx ← body.fixupContinuations.mapError .jump
  let ctx ← closeLoop a b c preloop loopstart ctx
  let ctx ← ctx.fixupBreaks.mapError .jump
  return ⟨ctx.code, preloop.toNat, loopstart, body, ctx.code.length⟩

/-- The code of `if(x) return;`, with `x` in register `r`. -/
def returnIf (r : BitVec 32) (ctx : LoopContext) : Except ForError LoopContext := do
  let (jumpFalse, cdr) ← (ctx.coder.codeAsBx .jumpz r 0).mapError .code
  let (_, cdr) ← (cdr.code0 .«return»).mapError .code
  let code ← (Code.setjump cdr.code jumpFalse cdr.code.length).mapError .jump
  return { ctx with code, exits := { ctx.exits with ret := .maybe } }

/-- The code of `if(x) return; continue;`. -/
def returnOrContinue (r : BitVec 32) (ctx : LoopContext) : Except ForError LoopContext := do
  let ctx ← returnIf r ctx
  (ctx.codeNext none 1).mapError .code

end Eel
