-- SUMMARY: What the code of a function does: where each instruction goes on, and the paths of control through code.
import Eel.Compiler.StatPaths
import Mathlib.Algebra.Order.Ring.Int

/-!
# Running code

What an instruction can do is given by the labels that it visits and by where it goes on: at
a position of the same code, or out of it. Whatever depends on values can go either way.
-/

namespace Eel

namespace Events

open Traces Behaviour Paths

variable {L : Type}

/-- What an instruction does, and at which position the next one is or how the code is left. -/
abbrev Act (L : Type) := Behaviour L (Nat ⊕ Exit)

namespace Act

/-- There is nothing in front of the code. -/
def goto (pc : Int) : Act L := if 0 ≤ pc then done (.inl pc.toNat) else never

/-- Control goes on where the instruction is done, unless that has left the code. -/
def andThen (P : Paths L) (Q : Act L) : Act L := bind P fun
  | .next => Q
  | x => done (.inr x)

/-- How the blocks of a `try` at this position are left. A `retry` goes back to the `try`. -/
def leaveTry (pc : Nat) : Exit → Act L
  | .next => goto (pc + 1)
  | .retry => goto pc
  | x => done (.inr x)

end Act

open Events.Act

/-- A machine with these actions at its positions. -/
def runActs (acts : List (Nat → Act L)) : Nat → Paths L := run fun pc =>
  match acts[pc]? with
  | some act => act pc
  | none => never

mutual

/-- An instruction at the position `pc`. -/
@[simp] def Instr.act : Instr L → Nat → Act L
  | .op l, pc => andThen (instr l) (goto (pc + 1))
  | .jump l d, pc => andThen (jump l .next) (goto (pc + 1 + d))
  | .branch l d, pc => andThen (instr l) (choice (goto (pc + 1 + d)) (goto (pc + 1)))
  | .switch l table d, pc => andThen (instr l) (choice (goto (pc + 1 + d)) (oneOf (table.map fun p : Nat => goto p)))
  | .throws l, _ => andThen (instr l) (done (.inr .thrown))
  | .retry l, _ => andThen (jump l .retry) never
  | .returns l, _ => andThen (instr l) (done (.inr .ret))
  | .tries l block handler, pc =>
    andThen (instr l) (bind (guarded (runActs (actsOf block) 0) (runActs (actsOf handler) 0)) (leaveTry pc))
  | .untry l block, pc => andThen (instr l) (andThen (bind (runActs (actsOf block) 0) untryExit) (goto (pc + 1)))
  | .clean _, pc => goto (pc + 1)
  | .ret, _ => done (.inr .next)

def actsOf : List (Instr L) → List (Nat → Act L)
  | [] => []
  | i :: is => i.act :: actsOf is

end

/-- What the code does from a position on. -/
def exec (code : List (Instr L)) : Nat → Paths L := runActs (actsOf code)

/-! ## Instructions -/

section

variable {code : List (Instr L)} {pc n : Nat} {l : L} {P : Paths L} {Q : Act L} {f : Nat → Paths L}

theorem actsOf_getElem? (code : List (Instr L)) (pc : Nat) : (actsOf code)[pc]? = code[pc]?.map Instr.act := by
  induction code generalizing pc with
  | nil => rfl
  | cons i code ih =>
    cases pc with
    | zero => rfl
    | succ pc => exact ih pc

theorem exec_act {i : Instr L} (h : code[pc]? = some i) :
    exec code pc = bind (i.act pc) (Sum.elim (exec code) done) := by
  unfold exec runActs
  rw [run_eq, actsOf_getElem?, h]
  rfl

theorem bind_goto : bind (goto (n : Int)) (Sum.elim f done) = f n := by
  unfold goto
  rw [if_pos (Int.natCast_nonneg n), bind_done]
  rfl

theorem bind_goto_next : bind (goto ((pc : Int) + 1)) (Sum.elim f done) = f (pc + 1) :=
  bind_goto

theorem bind_goto_disp : bind (goto ((pc : Int) + 1 + (n - (pc + 1)))) (Sum.elim f done) = f n := by
  rw [show (pc : Int) + 1 + (n - (pc + 1)) = n by omega, bind_goto]

theorem bind_andThen : bind (andThen P Q) (Sum.elim f done) = seq P (bind Q (Sum.elim f done)) := by
  unfold andThen seq
  rw [bind_assoc]
  congr 1
  funext x
  cases x with
  | next => rfl
  | _ => exact bind_done

theorem exec_op (h : code[pc]? = some (.op l)) : exec code pc = seq (instr l) (exec code (pc + 1)) := by
  rw [exec_act h, Instr.act, bind_andThen, bind_goto_next]

theorem exec_jump (h : code[pc]? = some (.jump l (n - (pc + 1)))) : exec code pc = seq (jump l .next) (exec code n) := by
  rw [exec_act h, Instr.act, bind_andThen, bind_goto_disp]

theorem exec_branch (h : code[pc]? = some (.branch l (n - (pc + 1)))) :
    exec code pc = seq (instr l) (choice (exec code n) (exec code (pc + 1))) := by
  rw [exec_act h, Instr.act, bind_andThen, bind_choice, bind_goto_disp, bind_goto_next]

theorem exec_switch {table : List Nat} (h : code[pc]? = some (.switch l table (n - (pc + 1)))) :
    exec code pc = seq (instr l) (choice (exec code n) (oneOf (table.map (exec code)))) := by
  rw [exec_act h, Instr.act, bind_andThen, bind_choice, bind_goto_disp, bind_oneOf, List.map_map]
  congr 3
  exact List.map_congr_left fun p _ => bind_goto

theorem exec_throws (h : code[pc]? = some (.throws l)) : exec code pc = seq (instr l) (done .thrown) := by
  rw [exec_act h, Instr.act, bind_andThen, bind_done]
  rfl

theorem exec_returns (h : code[pc]? = some (.returns l)) : exec code pc = seq (instr l) (done .ret) := by
  rw [exec_act h, Instr.act, bind_andThen, bind_done]
  rfl

theorem exec_retry (h : code[pc]? = some (.retry l)) : exec code pc = seq (jump l .retry) never := by
  rw [exec_act h, Instr.act, bind_andThen, bind_never]

theorem exec_tries {block handler : List (Instr L)} (h : code[pc]? = some (.tries l block handler)) :
    exec code pc = seq (instr l) (bind (guarded (exec block 0) (exec handler 0)) fun
      | .next => exec code (pc + 1)
      | .retry => exec code pc
      | x => done x) := by
  refine (exec_act h).trans ?_
  rw [Instr.act, bind_andThen, bind_assoc]
  congr 2
  funext x
  cases x with
  | next => exact bind_goto_next
  | retry => exact bind_goto
  | _ => exact bind_done

theorem exec_untry {block : List (Instr L)} (h : code[pc]? = some (.untry l block)) :
    exec code pc = seq (instr l) (seq (bind (exec block 0) untryExit) (exec code (pc + 1))) := by
  rw [exec_act h, Instr.act, bind_andThen, bind_andThen, bind_goto_next]
  rfl

theorem exec_clean {k : Nat} (h : code[pc]? = some (.clean k)) : exec code pc = exec code (pc + 1) := by
  rw [exec_act h, Instr.act, bind_goto_next]

theorem exec_ret (h : code[pc]? = some .ret) : exec code pc = done .next := by
  rw [exec_act h, Instr.act, bind_done]
  rfl

end

end Events

end Eel
