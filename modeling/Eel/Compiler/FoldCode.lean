-- SUMMARY: Operators and casts whose operands are constants: what the compiler makes of them, and what their code does.
import Eel.Compiler.ReadCode
import Eel.Core.Settled

/-!
# Constant folding

What is folded is compared with what the instructions would do at run time, when the
world is another one.
-/

namespace Eel

open State Op

variable {W : Type}

namespace Manip

/-- A result takes the place of the expression. It is written over what the compiler has on
its stack. An expression that raises an exception is left for the run time. -/
def fold (stale : Value) (f : Op W) (m : Manip) (w : W) : Option Manip :=
  match f w with
  | .ok (wr, _) => some (.constant (wr.over stale))
  | .error (.thrown ..) => some m
  | .error .undetermined => none

/-- `eel_m_op`. -/
def mOp (M : Meta W) (stale : Value) (left : Option Manip) (op : Operator) (right : Manip) (w : W) : Option Manip :=
  match left, right with
  | none, .constant rightv => fold stale (M.unop op rightv) (.unop op right) w
  | some (.constant leftv), .constant rightv =>
    fold stale (M.operate leftv op rightv) (.binop (.constant leftv) op right) w
  | none, right => some (.unop op right)
  | some left, right => some (.binop left op right)

/-- `eel_m_cast`. -/
def mCast (M : Meta W) (stale : Value) (object : Manip) (cid : BitVec 32) (w : W) : Option Manip :=
  match object, castOperator? cid with
  | .constant objv, some op => fold stale (M.unop op objv) (.cast object cid) w
  | object, _ => some (.cast object cid)

end Manip

/-- An operator or a cast, with its constant operands. -/
inductive ConstExpr where
  | unop (op : Operator) (right : Value)
  | binop (left : Value) (op : Operator) (right : Value)
  | cast (object : Value) (cid : BitVec 32)

namespace ConstExpr

/-- The expression as it is without folding. -/
def manip : ConstExpr → Manip
  | unop op right => .unop op (.constant right)
  | binop left op right => .binop (.constant left) op (.constant right)
  | cast object cid => .cast (.constant object) cid

/-- What the compiler makes of it. -/
def folded (M : Meta W) (stale : Value) : ConstExpr → W → Option Manip
  | unop op right => Manip.mOp M stale none op (.constant right)
  | binop left op right => Manip.mOp M stale (some (.constant left)) op (.constant right)
  | cast object cid => Manip.mCast M stale (.constant object) cid

/-- There is an instruction for it. -/
def Valid : ConstExpr → Prop
  | unop op _ => op.unary?.isSome
  | binop _ op _ => op.isBinary
  | cast .. => True

/-- What the instruction does. -/
def op (G : Globals W) : ConstExpr → Op W
  | unop op right => G.unop op right
  | binop left op right => G.operate left op right
  | cast object cid => Manip.castTo G cid object

/-- A cast to a class without an operator of its own is not folded. -/
def Folds : ConstExpr → Prop
  | cast _ cid => Manip.castOperator? cid ≠ none
  | unop .. | binop .. => True

/-- An operator that shifts a real, or that has a nil or a real to the left of an object. -/
def Misread : ConstExpr → Prop
  | binop left op right => ShiftsReal op left right ∨ Misreads op left right
  | unop .. | cast .. => False

end ConstExpr

variable {G : Globals W} {same : ObjId → ObjId → Bool} {U : Value → Prop} {e : ConstExpr} {f : Op W}
  {out : W → Yield} {m : Manip} {v stale : Value} {w : W} {cdr : CoderState} {r : Nat}

/-- Code ends with a value in `r`, and with all that is kept as it was, or with an exception. -/
def State.Leaves (G : Globals W) (code : List Instr) (s : State W) (keep : Nat → Prop) (r : Nat) : Yield → Prop
  | .ok v => ∃ s', run G code s = .ok s' ∧ s'.reg r = v ∧ Agree keep s s'
  | .error x => ∃ w, run G code s = .error (.thrown x w)

theorem State.Computes.leaves {code : List Instr} {s : State W} {keep : Nat → Prop}
    (h : Computes G code s keep r (f.value s.world)) (hf : Yields (f s.world) (out s.world)) : Leaves G code s keep r (out s.world) := by
  generalize out s.world = o at hf
  unfold Op.value at h
  cases hres : f s.world with
  | ok p =>
    rw [hres] at h hf
    cases hf with
    | value v w' =>
      obtain ⟨s', hrun, hreg, -, hagree⟩ := h
      exact ⟨s', hrun, hreg, hagree⟩
  | error stop =>
    rw [hres] at h hf
    cases hf with
    | thrown x w' => exact ⟨w', h⟩

namespace ConstExpr

/-- What is folded is the operator of the expression. -/
theorem Folds.eq (h : e.Folds) : e.folded G.toMeta stale w = Manip.fold stale (e.op G) e.manip w := by
  cases e with
  | unop op right => rfl
  | binop left op right => rfl
  | cast object cid =>
    show Manip.mCast _ _ _ _ _ = Manip.fold stale (Manip.castTo G cid object) _ w
    unfold Manip.mCast Manip.castTo
    cases hop : Manip.castOperator? cid with
    | some op => rfl
    | none => exact absurd hop h

/-- A nil or an object that is no weak reference, or a number. -/
theorem operand (hU : Distinct same U) (hv : U v) : v.Scalar ∨ ∃ o, v = .objref o := by
  have hplain := hU.plain v hv
  cases v with
  | weakref o wired => exact hplain.elim
  | objref o => exact .inr ⟨o, rfl⟩
  | _ => exact .inl rfl

/-- What is folded is settled, unless it reads what is not there. -/
theorem settled [Nonempty W] (hU : Distinct same U) (hM : G.toMeta.Steady U)
    (hconstants : ∀ v ∈ e.manip.constants, U v) (hno : ¬ e.Misread) (hfolds : e.Folds) : (e.op G).Settled := by
  cases e with
  | unop op right =>
    have hr : U right := hconstants right List.mem_cons_self
    exact Meta.unop_settled hM hr (operand hU hr)
  | binop left op right =>
    have hl : U left := hconstants left List.mem_cons_self
    have hr : U right := hconstants right (List.mem_cons_of_mem _ List.mem_cons_self)
    exact (Meta.operate_settled_iff hM hl hr (operand hU hl) (operand hU hr)).mpr hno
  | cast object cid =>
    have hv : U object := hconstants object (List.mem_cons_of_mem _ List.mem_cons_self)
    show (Manip.castTo G cid object).Settled
    unfold Manip.castTo
    cases hop : Manip.castOperator? cid with
    | some op => exact Meta.unop_settled hM hv (operand hU hv)
    | none => exact absurd hop hfolds

end ConstExpr

end Eel
