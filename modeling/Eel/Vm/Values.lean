-- SUMMARY: The VM as values see it: registers, arguments, static variables and objects, without owners.
import Eel.Core.Operate
import Eel.Vm.Frame
import Mathlib.Algebra.Group.Nat.Defs

/-!
# The VM by its values

What owns an object is left out, so that what an instruction computes can be told from
its operands. Static variables and objects are in a world `W`.
-/

namespace Eel

/-- What the instructions take from objects and modules. -/
structure Globals (W : Type) extends Meta W where
  /-- `EEL_MM_GETINDEX`. -/
  getindex : ObjId → Value → W → Except (Stop W) (Value × W)
  /-- `EEL_MM_SETINDEX`: object, key and value. -/
  setindex : ObjId → Value → Value → W → Except (Stop W) W
  /-- `SV[i]`. -/
  static : Nat → W → Value
  setStatic : Nat → Value → W → W

/-- A callframe, as a function at some upvalue level below it sees it. -/
structure Level where
  regs : Nat → Value
  args : List Value
  constants : List Value
  fn : Function

namespace Level

variable (l : Level)

/-- `e.constants[i]`. -/
def constant (i : Nat) : Value := l.constants[i]?.getD .nil

/-- A default, by its place in the table. -/
def default (i : Nat) : Option Value :=
  match l.fn.argdefaults with
  | none => none
  | some defs =>
    if 0 ≤ defs[i]?.getD (-1) then some (l.constant (defs[i]?.getD 0).toNat) else none

/-- `get_optarg_default`. -/
def optargDefault (arg : Nat) : Option Value :=
  if l.fn.reqargs ≤ arg ∧ arg - l.fn.reqargs < l.fn.optargs then l.default (arg - l.fn.reqargs) else none

/-- `get_tuparg_default`. -/
def tupargDefault (pos : Nat) : Option Value :=
  if pos < l.fn.tupargs then l.default (l.fn.optargs + pos) else none

/-- Argument `i`, or its default. -/
def arg (i : Nat) (default : Option Value) : Option Value :=
  if i < l.args.length then l.args[i]? else default

/-- The argument that member `pos` of tuple `tup` is. -/
def targ (pos tup : Nat) : Nat := pos + l.fn.reqargs + l.fn.optargs + tup * l.fn.tupargs

/-- The number of tuples, as `TUPC` has it. -/
def tupc : Nat := (l.args.length - l.fn.reqargs) / l.fn.tupargs

def setReg (a : Nat) (v : Value) : Level := { l with regs := Function.update l.regs a v }

def setArg (a : Nat) (v : Value) : Level := { l with args := l.args.set a v }

end Level

/-- The VM. The frame that runs is at level 0. -/
structure State (W : Type) where
  level : Nat → Level
  world : W

/-- `eel_get_indexval`. -/
def Reals.indexval (R : Reals) : Value → Int
  | .real bits => (R.floor bits).toInt
  | .integer v | .boolean v | .classid v => v.toInt
  | .nil | .objref _ | .weakref .. => -1

namespace State

variable {W : Type} (G : Globals W) (s : State W)

/-! ## Access -/

/-- `R[a]`. -/
def reg (a : Nat) : Value := (s.level 0).regs a

def setReg (k a : Nat) (v : Value) : State W :=
  { s with level := Function.update s.level k ((s.level k).setReg a v) }

def setArg (k a : Nat) (v : Value) : State W :=
  { s with level := Function.update s.level k ((s.level k).setArg a v) }

/-- The result of an operator to `R[a]`. -/
def result (a : Nat) (op : Op W) : Except (Stop W) (State W) := do
  let (wr, w) ← op s.world
  return { s with world := w }.setReg 0 a (wr.over (s.reg a))

/-- An argument, or its default, to `R[a]`. -/
def getarg (a k i : Nat) (default : Option Value) : Except (Stop W) (State W) :=
  match (s.level k).arg i default with
  | some v => .ok (s.setReg 0 a v.qcopy)
  | none => .error (.thrown Xno.highIndex s.world)

/-- `R[a]` to an argument. -/
def setarg (a k i : Nat) : Except (Stop W) (State W) :=
  if i < (s.level k).args.length then .ok (s.setArg k i (s.reg a).copy)
  else .error (.thrown Xno.highIndex s.world)

/-- Member `pos` of tuple `tup` to `R[a]`. The place of the argument has 32 bits. -/
def gettarg (a k pos : Nat) (tup : Int) : Except (Stop W) (State W) :=
  if tup < 0 then .error (.thrown Xno.wrongType s.world)
  else s.getarg a k ((s.level k).targ pos tup.toNat % 2 ^ 32) ((s.level k).tupargDefault pos)

/-- `INDGET`. -/
def indget (a : Nat) (v key : Value) : Except (Stop W) (State W) :=
  match v.obj? with
  | some o => do
    let (v, w) ← G.getindex o key s.world
    return { s with world := w }.setReg 0 a v
  | none => .error (.thrown Xno.cantIndex s.world)

/-- `INDSET`. -/
def indset (a : Nat) (v key : Value) : Except (Stop W) (State W) :=
  match v.obj? with
  | some o => do
    let w ← G.setindex o key (s.reg a) s.world
    return { s with world := w }
  | none => .error (.thrown Xno.cantIndex s.world)

/-! ## Instructions -/

/-- The instructions that expressions and assignments are made of. -/
def exec : Instr → Except (Stop W) (State W)
  | .nop => .ok s
  | .ldi a b => .ok (s.setReg 0 a (.integer (BitVec.ofInt 32 b)))
  | .ldtrue a => .ok (s.setReg 0 a (.boolean 1))
  | .ldfalse a => .ok (s.setReg 0 a (.boolean 0))
  | .ldnil a => .ok (s.setReg 0 a .nil)
  | .ldc a b => .ok (s.setReg 0 a ((s.level 0).constant b).qcopy)
  | .move a b => .ok (s.setReg 0 a (s.reg b).qcopy)
  | .init a b | .assign a b => .ok (s.setReg 0 a (s.reg b).copy)
  | .getuval a b c => .ok (s.setReg 0 a ((s.level c).regs b).qcopy)
  | .setuval a b c => .ok (s.setReg c b (s.reg a).copy)
  | .getvar a b => .ok (s.setReg 0 a (G.static b s.world).qcopy)
  | .setvar a b => .ok { s with world := G.setStatic b (s.reg a).copy s.world }
  | .indgeti a b c => s.indget G a (s.reg c) (.integer (BitVec.ofNat 32 b))
  | .indget a b c => s.indget G a (s.reg c) (s.reg b)
  | .indseti a b c => s.indset G a (s.reg c) (.integer (BitVec.ofNat 32 b))
  | .indset a b c => s.indset G a (s.reg c) (s.reg b)
  | .getargi a b => s.getarg a 0 b ((s.level 0).optargDefault b)
  | .getuvargi a b c => s.getarg a c b ((s.level c).optargDefault b)
  | .setargi a b => s.setarg a 0 b
  | .setuvargi a b c => s.setarg a c b
  | .gettargi a b c => s.gettarg a 0 b (G.real.indexval (s.reg c))
  | .getuvtargi a b c d => s.gettarg a d b (G.real.indexval (s.reg c))
  -- Without tuple arguments, the division is by zero.
  | .tupc a =>
    if (s.level 0).fn.tupargs = 0 then .error .undetermined
    else .ok (s.setReg 0 a (.integer (BitVec.ofNat 32 (s.level 0).tupc)))
  | .bop a b c d => s.result a (G.operate (s.reg b) c (s.reg d))
  | .bops a b c d => s.result a (G.operate (s.reg b) c (G.static d s.world))
  | .bopi a b c d => s.result a (G.operate (s.reg b) c (.integer (BitVec.ofInt 32 d)))
  | .ipbop a b c d => s.result a (G.ipoperate (s.reg b) c (s.reg d))
  | .ipbops a b c d => s.result a (G.ipoperate (s.reg b) c (G.static d s.world))
  | .ipbopi a b c d => s.result a (G.ipoperate (s.reg b) c (.integer (BitVec.ofInt 32 d)))
  | .neg a b => s.result a (Meta.opNeg (s.reg b))
  | .bnot a b => s.result a (Meta.opBnot (s.reg b))
  | .not a b => s.result a (G.opNot (s.reg b))
  | .castr a b => s.result a (G.opCastr (s.reg b))
  | .casti a b => s.result a (G.opCasti (s.reg b))
  | .castb a b => s.result a (G.opCastb (s.reg b))
  | .cast a b c =>
    match s.reg c with
    | .classid cid => s.result a (Op.method (G.cast (s.reg b) cid))
    | _ => .error (.thrown Xno.wrongType s.world)
  | .typeof a b => s.result a (G.opTypeof (s.reg b))
  | .sizeof a b => s.result a (G.opSizeof (s.reg b))
  | .clone a b => s.result a (G.opClone (s.reg b))
  | .weakref a b =>
    match s.reg b with
    | .nil => .ok (s.setReg 0 a .nil)
    | .objref o => .ok (s.setReg 0 a (.weakref o false))
    | _ => .error (.thrown Xno.needObject s.world)
  | _ => .error (.thrown Xno.illegal s.world)

/-- Instructions one after the other. -/
def run : List Instr → State W → Except (Stop W) (State W)
  | [], s => .ok s
  | i :: code, s => do run code (← s.exec G i)

/-! ## Lemmas -/

variable {G s} {k k' a b : Nat} {v : Value} {code code' : List Instr}

@[simp] theorem run_nil : run G [] s = .ok s := rfl

@[simp] theorem run_cons {i : Instr} : run G (i :: code) s = s.exec G i >>= run G code := rfl

theorem run_append : run G (code ++ code') s = run G code s >>= run G code' := by
  induction code generalizing s with
  | nil => rfl
  | cons i code ih =>
    rw [List.cons_append, run_cons, run_cons, bind_assoc]
    congr 1
    funext s
    exact ih

@[simp] theorem run_singleton {i : Instr} : run G [i] s = s.exec G i := by
  rw [run_cons]
  cases s.exec G i <;> rfl

@[simp] theorem setReg_world : (s.setReg k a v).world = s.world := rfl

theorem setReg_level_of_ne (h : k' ≠ k) : (s.setReg k a v).level k' = s.level k' :=
  Function.update_of_ne h _ _

@[simp] theorem setReg_level_self : (s.setReg k a v).level k = (s.level k).setReg a v :=
  Function.update_self ..

@[simp] theorem setReg_regs_self : ((s.setReg k a v).level k).regs a = v := by
  rw [setReg_level_self]
  exact Function.update_self ..

theorem setReg_regs_of_ne (h : k' ≠ k ∨ b ≠ a) :
    ((s.setReg k a v).level k').regs b = (s.level k').regs b := by
  by_cases hk : k' = k
  · subst hk
    rw [setReg_level_self]
    exact Function.update_of_ne (h.resolve_left fun hne => hne rfl) _ _
  · rw [setReg_level_of_ne hk]

/-- A register does not matter to what is not a register. -/
theorem setReg_congr {α : Type} (f : Level → α) (h : ∀ l a v, f (Level.setReg l a v) = f l) :
    f ((s.setReg k a v).level k') = f (s.level k') := by
  by_cases hk : k' = k
  · subst hk
    rw [setReg_level_self]
    exact h _ a v
  · rw [setReg_level_of_ne hk]

@[simp] theorem setReg_args : ((s.setReg k a v).level k').args = (s.level k').args :=
  setReg_congr Level.args fun _ _ _ => rfl

@[simp] theorem setReg_constants :
    ((s.setReg k a v).level k').constants = (s.level k').constants :=
  setReg_congr Level.constants fun _ _ _ => rfl

@[simp] theorem setReg_fn : ((s.setReg k a v).level k').fn = (s.level k').fn :=
  setReg_congr Level.fn fun _ _ _ => rfl

@[simp] theorem setReg_reg_self : (s.setReg 0 a v).reg a = v := setReg_regs_self

theorem setReg_reg_of_ne (h : b ≠ a) : (s.setReg 0 a v).reg b = s.reg b :=
  setReg_regs_of_ne (.inr h)

end State

end Eel
