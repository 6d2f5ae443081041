-- SUMMARY: How statements are coded: their contexts, events and jumps, and the instructions that are left out as dead.
import Eel.Compiler.Events

/-!
# Coding statements

Statements are coded as they are parsed. What is coded where control can not be is left out.
Jumps go to the ends of contexts, and to where loops go on, when these are known.
-/

namespace Eel

namespace Events

/-- What an expression does to a variable in a register. -/
inductive Access where
  | read (r : Fin 256)
  | write (r : Fin 256)

/-- An expression or an assignment, with the label of the instructions it is coded as. -/
structure Expr (L : Type) where
  label : L
  accesses : List Access

/-- The test of a `while`, which may be constant. -/
inductive Test (L : Type) where
  | never (jump : L)
  | always
  | expr (e : Expr L)

mutual

/-- A statement, with the labels of the jumps it is coded with. -/
inductive Stat (L : Type) where
  | void
  | assignstat (e : Expr L)
  | throwstat (e : Expr L)
  | retrystat (l : L)
  | ifstat (e : Expr L) (s : Stat L)
  | ifelse (e : Expr L) (s : Stat L) (out : L) (s' : Stat L)
  | switchstat (e : Expr L) (cs : Cases L)
  | switchdefault (e : Expr L) (cs : Cases L) (s : Stat L)
  | whilestat (e : Test L) (s : Stat L) (loop : L)
  | dostat (s : Stat L) (e : Expr L)
  | forstat (e : Expr L) (s : Stat L) (loop : L)
  | breakstat (l : L)
  | contstat (l : L)
  | repeatstat (l : L)
  | returnstat (e : Expr L)
  | trystat (s : Stat L) (l : L)
  | tryexcept (s s' : Stat L) (l : L)
  | untrystat (s : Stat L) (l : L)
  | body (b : Block L)

inductive Block (L : Type) where
  | nil
  | cons (s : Stat L) (b : Block L)

/-- The cases of a `switch`, each with the jump to the end behind it. -/
inductive Cases (L : Type) where
  | nil
  | cons (s : Stat L) (out : L) (cs : Cases L)

end

def Stat.isBody {L : Type} : Stat L → Bool
  | .body _ => true
  | _ => false

/-- An instruction, with what is coded in front of it for its operands. Displacements are from the next one. -/
inductive Instr (L : Type) where
  | op (l : L)
  /-- `EEL_OJUMP_sAx`. -/
  | jump (l : L) (disp : Int)
  /-- `EEL_OJUMPZ_AsBx`, `EEL_OJUMPNZ_AsBx`, `EEL_OPRELOOP_ABCsDx` or `EEL_OLOOP_ABCsDx`. -/
  | branch (l : L) (disp : Int)
  /-- `EEL_OSWITCH_ABxsCx`, with the positions in its table. -/
  | switch (l : L) (table : List Nat) (disp : Int)
  | throws (l : L)
  | retry (l : L)
  /-- A `return` of the source. -/
  | returns (l : L)
  /-- `EEL_OTRY_AxBx` and `EEL_OUNTRY_Ax`, with the code of the functions that are their operands. -/
  | tries (l : L) (block handler : List (Instr L))
  | untry (l : L) (block : List (Instr L))
  | clean (n : Nat)
  /-- `EEL_ORETURN_0` at the end of a function. -/
  | ret

namespace Instr

variable {L : Type}

mutual

/-- The labels of an instruction and of the code of its operands. -/
def labels : Instr L → List L
  | .op l | .jump l _ | .branch l _ | .switch l _ _ | .throws l | .retry l | .returns l => [l]
  | .tries l block handler => l :: (labelsOf block ++ labelsOf handler)
  | .untry l block => l :: labelsOf block
  | .clean _ | .ret => []

def labelsOf : List (Instr L) → List L
  | [] => []
  | i :: is => i.labels ++ labelsOf is

end

/-- What `eel_code_setjump` does to an instruction. A displacement is only set once. -/
def setDisp (disp : Int) : Instr L → Option (Instr L)
  | .jump l d => if d = 0 then some (.jump l disp) else none
  | .branch l d => if d = 0 then some (.branch l disp) else none
  | .switch l table d => if d = 0 then some (.switch l table disp) else none
  | _ => none

/-- What `caselist` does to the table of a `switch`. -/
def addCase (pos : Nat) : Instr L → Instr L
  | .switch l table d => .switch l (table ++ [pos]) d
  | i => i

end Instr

/-- The part of `EEL_state` that coding works on. -/
structure Coding (L : Type) where
  /-- `es->context`, and the previous ones. -/
  contexts : List Context
  /-- The code of the function that is coded. -/
  coded : List (Instr L)

namespace Coding

variable {L : Type} (es : Coding L)

def mapContexts (f : List Context → List Context) : Coding L := { es with contexts := f es.contexts }

/-- `do_code`. -/
def code (i : Instr L) : Coding L :=
  if testExit es.contexts = .yes then es else { es with coded := es.coded ++ [i] }

/-- The position that the next instruction has, if it is not left out. -/
def mark : Option Nat := if testExit es.contexts = .yes then none else some es.coded.length

/-- `eel_code_setjump`. -/
def setjump (pos : Option Nat) (whereto : Nat) : Option (Coding L) :=
  match pos with
  | none => some es
  | some p =>
    (es.coded[p]?.bind (Instr.setDisp (whereto - (p + 1)))).map fun i => { es with coded := es.coded.set p i }

/-- The jump goes here. -/
def jumpHere (pos : Option Nat) : Option (Coding L) := es.setjump pos es.coded.length

/-- The next case of a `switch` starts here. -/
def addCase (pos : Option Nat) : Coding L :=
  match pos with
  | none => es
  | some p => { es with coded := es.coded.modify p (Instr.addCase es.coded.length) }

/-- `eel_e_return`, `eel_e_result`, and `eel_e_init` of a variable that is not initialized. -/
def occurs (i : Event) : Coding L := es.mapContexts (mapEvents fun e => e.set i .yes)

/-- What `eel_m_read`, `eel_m_push` and `eel_m_write` do with a variable of the function. -/
def access : Access → Option (Coding L)
  | .read r => if testInit es.contexts r = .yes then some es else none
  | .write r =>
    match testInit es.contexts r with
    | .no => some (es.occurs (.init r))
    | .yes => some es
    | .maybe => none

def accesses : List Access → Coding L → Option (Coding L)
  | [], es => some es
  | a :: as, es => (es.access a).bind (accesses as)

/-- An expression and the instruction that uses it, with the position of that. -/
def codeExpr (i : L → Instr L) (e : Expr L) : Option (Coding L × Option Nat) :=
  (accesses e.accesses es).map fun es => (es.code (i e.label), es.mark)

/-- No variable may be initialized here without being known to be. -/
def checkInits : Option (Coding L) := (initializations es.contexts).map fun _ => es

/-! ## Contexts and jumps -/

def push (type : ContextType) (xblock : Bool) (flags : Flags) : Coding L :=
  es.mapContexts (contextPush type xblock flags es.coded.length)

def pop : Coding L := es.mapContexts contextPop

def merge (modulator : Cestate) : Coding L := es.mapContexts (Events.merge modulator)

/-- `code_leave_context`, of the context that is `d` below the current one. -/
def leaveContext (d : Nat) : Option (Coding L) :=
  match es.contexts.drop d with
  | [] => none
  | ctx :: previous =>
    if ctx.type = .block then some es
    else (initializations (ctx :: previous)).bind fun n => (initializations previous).map fun m =>
      if m < n then es.code (.clean m) else es

/-- A jump that is linked to a context, for when it is known where it goes. -/
def codeJumpOut (link : Codemark → Context → Context) (l : L) (d : Nat) : Option (Coding L) :=
  let xs := (testExit es.contexts).not
  if xs = .no then some es
  else (es.leaveContext d).map fun es =>
    ((es.code (.jump l 0)).mapContexts fun cs => cs.modify d (link ⟨es.mark, xs⟩)).mapContexts (eBreak d)

/-- `code_break`. -/
def codeBreak : L → Nat → Option (Coding L) :=
  es.codeJumpOut fun m c => { c with endjumps := c.endjumps ++ [m] }

/-- `code_next`. -/
def codeNext : L → Nat → Option (Coding L) :=
  es.codeJumpOut fun m c => { c with contjumps := c.contjumps ++ [m] }

/-- `code_repeat`. -/
def codeRepeat (l : L) (d : Nat) : Option (Coding L) :=
  (es.leaveContext d).bind fun es => es.contexts[d]?.bind fun ctx =>
  ((es.code (.jump l 0)).setjump es.mark ctx.startpos).map fun es => es.mapContexts (eBreak d)

/-- The jump of a mark goes to a position. -/
def fixupMark (pos : Nat) (es : Coding L) (m : Codemark) : Option (Coding L) :=
  (es.setjump m.pos pos).map fun es => es.mapContexts (eTarget m.xstate)

/-- The jumps that were linked to the context go here. -/
def fixup (jumps : Context → List Codemark) (unlink : Context → Context) : Option (Coding L) :=
  match es.contexts with
  | [] => some es
  | c :: cs => (jumps c).foldlM (fixupMark es.coded.length) { es with contexts := unlink c :: cs }

/-- `code_fixup_continuations`. -/
def fixupContinuations : Option (Coding L) := es.fixup Context.contjumps fun c => { c with contjumps := [] }

/-- `code_fixup_breaks`. -/
def fixupBreaks : Option (Coding L) := es.fixup Context.endjumps fun c => { c with endjumps := [] }

/-- `code_move_breaks_up`. -/
def moveBreaksUp : Coding L :=
  es.mapContexts fun
    | c :: p :: cs => { c with endjumps := [] } :: { p with endjumps := p.endjumps ++ c.endjumps } :: cs
    | cs => cs

/-! ## Wrapping -/

def noFlags : Flags := ⟨false, false, false, false, false⟩

/-- `ECTX_CONDITIONAL`. -/
def conditional : Flags := { noFlags with conditional := true }

def loopFlags : Flags := { noFlags with conditional := true, breakable := true, continuable := true, keep := true }

/-- What `body` or `statement` pushes for a statement. -/
def enter (isBody : Bool) (flags : Flags) : Coding L :=
  if isBody then es.push .body false flags
  else if flags.conditional then es.push .block false flags
  else es

/-- What `body` or `statement` does behind the statement. -/
def leave (isBody : Bool) (flags : Flags) : Option (Coding L) :=
  if (isBody ∨ flags.conditional) ∧ ¬ flags.keep then (es.leaveContext 0).map pop else some es

/-- `xblock`, where its statement is coded by `inner`. Its code is that of a function of its own. -/
def xblock (inner : Coding L → Option (Coding L)) : Option (Coding L × List (Instr L)) :=
  (inner { es.push .function true noFlags with coded := [] }).map fun fs =>
    ({ fs.pop with coded := es.coded }, (fs.code .ret).coded)

end Coding

/-! ## Statements -/

section

open Coding

variable {L : Type} (results : Bool)

mutual

/-- `statement2`, or `block` for a body. What it is wrapped in is pushed and popped by the callers. -/
def inner : Stat L → Coding L → Option (Coding L)
  | .void, es => some es
  | .assignstat e, es => (es.codeExpr .op e).map Prod.fst
  | .throwstat e, es => (es.codeExpr .throws e).map fun (es, _) => (es.occurs .ret).occurs .result
  | .retrystat l, es => some (es.code (.retry l))
  | .ifstat e s, es =>
    (es.codeExpr (.branch · 0) e).bind fun (es, jumpFalse) =>
    (inner s (es.enter s.isBody { conditional with keep := true })).bind fun es =>
    (es.leaveContext 0).bind fun es =>
    (es.pop.jumpHere jumpFalse).bind fun es =>
    (es.merge .maybe).checkInits
  | .ifelse e s out s', es =>
    (es.codeExpr (.branch · 0) e).bind fun (es, jumpFalse) =>
    (inner s (es.enter s.isBody { conditional with keep := true })).bind fun es =>
    (es.leaveContext 0).bind fun es =>
    let jumpOut := es.mark
    ((es.code (.jump out 0)).pop.jumpHere jumpFalse).bind fun es =>
    (inner s' (es.enter s'.isBody conditional)).bind fun es =>
    (es.leave s'.isBody conditional).bind fun es =>
    (es.jumpHere jumpOut).bind fun es =>
    (es.merge .yes).checkInits
  | .switchstat e cs, es =>
    ((es.push .block false noFlags).codeExpr (.switch · [] 0) e).bind fun (es, jumpElse) =>
    (caselist jumpElse cs es).bind fun es =>
    (es.jumpHere jumpElse).bind fun es =>
    (es.merge .maybe).fixupBreaks.bind fun es =>
    (es.pop.merge .yes).checkInits
  | .switchdefault e cs s, es =>
    ((es.push .block false noFlags).codeExpr (.switch · [] 0) e).bind fun (es, jumpElse) =>
    (caselist jumpElse cs es).bind fun es =>
    (es.jumpHere jumpElse).bind fun es =>
    (inner s (es.enter s.isBody { conditional with keep := true })).bind fun es =>
    (es.moveBreaksUp.pop.merge .yes).fixupBreaks.bind fun es =>
    (es.pop.merge .yes).checkInits
  | .whilestat e s loop, es =>
    let loopStart := es.coded.length
    (match e with
      | .never jump => some (es.code (.jump jump 0), es.mark, Cestate.no)
      | .always => some (es, none, .yes)
      | .expr e => (es.codeExpr (.branch · 0) e).map fun (es, p) => (es, p, .maybe)).bind fun (es, jumpOut, evstate) =>
    (inner s (es.enter s.isBody loopFlags)).bind fun es =>
    (es.leaveContext 0).bind fun es =>
    es.fixupContinuations.bind fun es =>
    ((es.code (.jump loop 0)).setjump es.mark loopStart).bind fun es =>
    (es.jumpHere jumpOut).bind fun es =>
    es.fixupBreaks.bind fun es =>
    (es.pop.merge evstate).checkInits
  | .dostat s e, es =>
    let loopStart := es.coded.length
    (inner s (es.enter s.isBody loopFlags)).bind fun es =>
    (es.leaveContext 0).bind fun es =>
    es.fixupContinuations.bind fun es =>
    (es.codeExpr (.branch · 0) e).bind fun (es, loopjump) =>
    (es.setjump loopjump loopStart).bind fun es =>
    es.fixupBreaks.bind fun es =>
    (es.pop.merge .maybe).checkInits
  | .forstat e s loop, es =>
    ((es.push .body false noFlags).codeExpr (.branch · 0) e).bind fun (es, preloop) =>
    let loopStart := es.coded.length
    (inner s (es.enter s.isBody { loopFlags with repeatable := true })).bind fun es =>
    (es.leaveContext 0).bind fun es =>
    es.fixupContinuations.bind fun es =>
    ((es.code (.branch loop 0)).setjump es.mark loopStart).bind fun es =>
    (es.jumpHere preloop).bind fun es =>
    es.fixupBreaks.bind fun es =>
    ((es.pop.merge .maybe).leaveContext 0).map pop
  | .breakstat l, es => (findContextFlags Flags.breakable es.contexts).bind (es.codeBreak l)
  | .contstat l, es => (findContextFlags Flags.continuable es.contexts).bind (es.codeNext l)
  | .repeatstat l, es => (findContextFlags Flags.repeatable es.contexts).bind (es.codeRepeat l)
  | .returnstat e, es =>
    es.checkInits.bind fun es =>
    (es.codeExpr .returns e).map fun (es, _) => (if results then es.occurs .result else es).occurs .ret
  | .trystat s l, es =>
    (es.xblock (inner s)).bind fun (es, tf) =>
    (es.xblock some).map fun (es, xf) => (es.code (.tries l tf xf)).merge .yes
  | .tryexcept s s' l, es =>
    (es.xblock (inner s)).bind fun (es, tf) =>
    (es.xblock (inner s')).map fun (es, xf) => (es.code (.tries l tf xf)).merge .yes
  | .untrystat s l, es => (es.xblock (inner s)).map fun (es, tf) => (es.code (.untry l tf)).merge .yes
  | .body b, es => block b es

/-- `block`. -/
def block : Block L → Coding L → Option (Coding L)
  | .nil, es => some es
  | .cons s b, es =>
    (inner s (es.enter s.isBody noFlags)).bind fun es =>
    (es.leave s.isBody noFlags).bind fun es => block b es

/-- `caselist`, where the `switch` is at `pos`. -/
def caselist (pos : Option Nat) : Cases L → Coding L → Option (Coding L)
  | .nil, es => some es
  | .cons s out cs, es =>
    (inner s ((es.addCase pos).enter s.isBody { conditional with keep := true })).bind fun es =>
    (es.codeBreak out 0).bind fun es => caselist pos cs es.moveBreaksUp.pop

end

/-- `procreturn`. -/
def procreturn (es : Coding L) : Option (Coding L) :=
  if results ∧ testResult es.contexts ≠ .yes then none else some ((es.code .ret).occurs .ret)

/-- A function with this body, in these contexts. -/
def function (b : Block L) (contexts : List Context) : Option (Coding L) :=
  (block results b (Coding.push ⟨contexts, []⟩ .function false noFlags)).bind (procreturn results)

end

end Events

end Eel
