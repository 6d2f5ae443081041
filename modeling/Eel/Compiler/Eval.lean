-- SUMMARY: What a manipulator stands for, and what it means that code computes it.
import Eel.Compiler.ManipCode
import Eel.Vm.Values

/-!
# The values of manipulators

What a tree of manipulators stands for is evaluated from the left to the right. Code is
compared with it.
-/

namespace Eel

variable {W : Type}

/-- The value an operator has, if it determines its class. -/
def Op.value (op : Op W) : W → Except (Stop W) (Value × W) := fun w =>
  match op w with
  | .ok (.value v, w) => .ok (v, w)
  | .ok (.payload _, _) => .error .undetermined
  | .error e => .error e

namespace Level

variable (l : Level)

/-- The number of tuples, in a function that has tuple arguments. -/
def countTuples (w : W) : Except (Stop W) (Value × W) :=
  if l.fn.tupargs = 0 then .error .undetermined else .ok (.integer (BitVec.ofNat 32 l.tupc), w)

/-- The value of an argument, or of its default. -/
def evalArg (i : Nat) (default : Option Value) (w : W) : Except (Stop W) (Value × W) :=
  match l.arg i default with
  | some v => .ok (v, w)
  | none => .error (.thrown Xno.highIndex w)

/-- Member `pos` of tuple `tup`. There are no more than 2^32 arguments. -/
def evalTuparg (pos : Nat) (tup : Int) (w : W) : Except (Stop W) (Value × W) :=
  if tup < 0 then .error (.thrown Xno.wrongType w)
  else if 2 ^ 32 ≤ l.targ pos tup.toNat then .error .undetermined
  else l.evalArg (l.targ pos tup.toNat) (l.tupargDefault pos) w

/-- Registers do not matter to arguments. -/
theorem evalTuparg_congr {l l' : Level} {pos : Nat} {tup : Int} {w : W} (hargs : l'.args = l.args)
    (hconstants : l'.constants = l.constants) (hfn : l'.fn = l.fn) :
    l'.evalTuparg pos tup w = l.evalTuparg pos tup w := by
  obtain ⟨regs, args, constants, fn⟩ := l
  obtain ⟨regs', args', constants', fn'⟩ := l'
  subst hargs
  subst hconstants
  subst hfn
  rfl

end Level

namespace Manip

/-- A value is cast by its operator, or by the table of casts. -/
def castTo (G : Globals W) (classid : BitVec 32) (v : Value) : Op W :=
  match castOperator? classid with
  | some op => G.unop op v
  | none => Op.method (G.cast v classid)

/-- An object's item. -/
def evalIndex (G : Globals W) (v key : Value) (w : W) : Except (Stop W) (Value × W) :=
  match v.obj? with
  | some o => G.getindex o key w
  | none => .error (.thrown Xno.cantIndex w)

/-- What a manipulator stands for. Operands are evaluated from the left to the right. -/
def eval (G : Globals W) (level : Nat → Level) : Manip → W → Except (Stop W) (Value × W)
  | .constant v, w => .ok (v, w)
  | .result q, w | .register q, w => .ok ((level 0).regs q, w)
  | .«variable» k q, w => .ok ((level k).regs q, w)
  | .statvar i, w => .ok (G.static i w, w)
  | .argument k a, w | .optarg k a, w => (level k).evalArg a ((level k).optargDefault a) w
  | .unop .sizeof (.tuparg k _), w => (level k).countTuples w
  | .unop op right, w => do
    let (v, w) ← right.eval G level w
    (G.unop op v).value w
  | .binop left op right, w => do
    let (l, w) ← left.eval G level w
    let (r, w) ← right.eval G level w
    (G.operate l op r).value w
  | .cast object classid, w => do
    let (v, w) ← object.eval G level w
    (castTo G classid v).value w
  | .index (.tuparg k a) i, w => do
    let (i, w) ← i.eval G level w
    (level k).evalTuparg a (G.real.indexval i) w
  | .index object i, w => do
    let (v, w) ← object.eval G level w
    let (i, w) ← i.eval G level w
    evalIndex G v i w
  | .void, _ | .tuparg .., _ | .args, _ | .tupargs, _ => .error .undetermined

/-- The size of the tuple arguments is taken of the function's own ones only. -/
def OwnTuples : Manip → Prop
  | .unop .sizeof (.tuparg level _) => level = 0
  | .unop _ right => right.OwnTuples
  | .binop left _ right => left.OwnTuples ∧ right.OwnTuples
  | .cast object _ => object.OwnTuples
  | .index om im => om.OwnTuples ∧ im.OwnTuples
  | _ => True

end Manip

/-- A value as the program can make it: booleans are 0 or 1, and there is no weak reference. -/
def Value.Plain (v : Value) : Prop :=
  match v with
  | .boolean b => b = 0 ∨ b = 1
  | .weakref .. => False
  | _ => True

theorem Value.Plain.qcopy {v : Value} (h : v.Plain) : v.qcopy = v := by
  cases v with
  | weakref o wired => exact h.elim
  | _ => rfl

/-! ## States -/

namespace State

/-- What code leaves alone: all but the registers at level 0 that are not kept. -/
structure Agree (keep : Nat → Prop) (s s' : State W) : Prop where
  regs : ∀ k q, k ≠ 0 ∨ keep q → (s'.level k).regs q = (s.level k).regs q
  args : ∀ k, (s'.level k).args = (s.level k).args
  constants : ∀ k, (s'.level k).constants = (s.level k).constants
  fn : ∀ k, (s'.level k).fn = (s.level k).fn

/-- Registers, arguments and constants hold no weak references. -/
structure Strong (keep : Nat → Prop) (s : State W) : Prop where
  regs : ∀ k q, k ≠ 0 ∨ keep q → ((s.level k).regs q).qcopy = (s.level k).regs q
  args : ∀ k, ∀ v ∈ (s.level k).args, v.qcopy = v
  constants : ∀ k, ∀ v ∈ (s.level k).constants, v.qcopy = v

variable {G : Globals W} {s s' s'' : State W} {keep keep' : Nat → Prop} {q r : Nat} {v : Value} {w : W}
  {code code' : List Instr} {res : Except (Stop W) (Value × W)}

theorem Agree.refl : Agree keep s s := ⟨fun _ _ _ => rfl, fun _ => rfl, fun _ => rfl, fun _ => rfl⟩

theorem Agree.trans (h : Agree keep s s') (h' : Agree keep s' s'') : Agree keep s s'' where
  regs k q hq := (h'.regs k q hq).trans (h.regs k q hq)
  args k := (h'.args k).trans (h.args k)
  constants k := (h'.constants k).trans (h.constants k)
  fn k := (h'.fn k).trans (h.fn k)

theorem Agree.mono (h : Agree keep s s') (hk : ∀ q, keep' q → keep q) : Agree keep' s s' :=
  ⟨fun k q hq => h.regs k q (hq.imp_right (hk q)), h.args, h.constants, h.fn⟩

theorem agree_setReg (hr : ¬ keep r) : Agree keep s ({ s with world := w }.setReg 0 r v) where
  regs k q hq := by
    have hne : k ≠ 0 ∨ q ≠ r := hq.imp_right fun hkeep heq => hr (heq ▸ hkeep)
    rw [setReg_regs_of_ne hne]
  args k := setReg_args
  constants k := setReg_constants
  fn k := setReg_fn

theorem Agree.arg (h : Agree keep s s') {k i : Nat} {d : Option Value} :
    (s'.level k).arg i d = (s.level k).arg i d := by
  simp only [Level.arg, h.args k]

theorem Agree.default (h : Agree keep s s') {k i : Nat} :
    (s'.level k).default i = (s.level k).default i := by
  simp only [Level.default, Level.constant, h.fn k, h.constants k]

theorem Agree.optargDefault (h : Agree keep s s') {k i : Nat} :
    (s'.level k).optargDefault i = (s.level k).optargDefault i := by
  simp only [Level.optargDefault, h.default, h.fn k]

theorem Agree.evalArg (h : Agree keep s s') {k i : Nat} :
    (s'.level k).evalArg i ((s'.level k).optargDefault i) w =
      (s.level k).evalArg i ((s.level k).optargDefault i) w := by
  simp only [Level.evalArg, h.arg, h.optargDefault]

theorem Agree.evalTuparg (h : Agree keep s s') {k pos : Nat} {tup : Int} :
    (s'.level k).evalTuparg pos tup w = (s.level k).evalTuparg pos tup w :=
  Level.evalTuparg_congr (h.args k) (h.constants k) (h.fn k)

theorem Agree.countTuples (h : Agree keep s s') {k : Nat} :
    (s'.level k).countTuples w = (s.level k).countTuples w := by
  simp only [Level.countTuples, Level.tupc, h.fn k, h.args k]

theorem Strong.of_agree (h : s.Strong keep) (ha : Agree keep s s') : s'.Strong keep where
  regs k q hq := by
    rw [ha.regs k q hq]
    exact h.regs k q hq
  args k := by
    rw [ha.args k]
    exact h.args k
  constants k := by
    rw [ha.constants k]
    exact h.constants k

theorem Strong.mono (h : s.Strong keep) (hk : ∀ q, keep' q → keep q) : s.Strong keep' :=
  ⟨fun k q hq => h.regs k q (hq.imp_right (hk q)), h.args, h.constants⟩

/-! ## Computing -/

/-- Code leaves a value in `r` and all that is kept as it was, or it stops where there is
no value. -/
def Computes (G : Globals W) (code : List Instr) (s : State W) (keep : Nat → Prop) (r : Nat) :
    Except (Stop W) (Value × W) → Prop
  | .ok (v, w) => ∃ s', run G code s = .ok s' ∧ s'.reg r = v ∧ s'.world = w ∧ Agree keep s s'
  | .error .undetermined => True
  | .error e => run G code s = .error e

theorem computes_nil : Computes G [] s keep r (.ok (s.reg r, s.world)) :=
  ⟨s, rfl, rfl, rfl, .refl⟩

/-- Code that computes with the value of other code. -/
theorem Computes.bind {f : Value × W → Except (Stop W) (Value × W)} (h : Computes G code s keep q res)
    (hk : ∀ q, keep' q → keep q)
    (hf : ∀ s', Agree keep s s' → Computes G code' s' keep' r (f (s'.reg q, s'.world))) :
    Computes G (code ++ code') s keep' r (res >>= f) := by
  match res, h with
  | .ok (v, w), ⟨s', hrun, hv, hw, hagree⟩ =>
    subst hv
    subst hw
    have h' := hf s' hagree
    change Computes G (code ++ code') s keep' r (f (s'.reg q, s'.world))
    have hrun' : run G (code ++ code') s = run G code' s' := by
      rw [run_append, hrun]
      rfl
    match hres : f (s'.reg q, s'.world), h' with
    | .ok (v, w), ⟨s'', hrun'', hv, hw, hagree'⟩ =>
      exact ⟨s'', hrun'.trans hrun'', hv, hw, (hagree.mono hk).trans hagree'⟩
    | .error .undetermined, _ => trivial
    | .error (.thrown x w), h' => exact hrun'.trans h'
  | .error .undetermined, _ => trivial
  | .error (.thrown x w), h =>
    show run G (code ++ code') s = _
    rw [run_append, h]
    rfl

/-- An instruction that writes the result of an operator. -/
theorem computes_result {ins : Instr} {op : Op W} (hr : ¬ keep r) (h : s.exec G ins = s.result r op) :
    Computes G [ins] s keep r (op.value s.world) := by
  unfold Op.value
  have hrun : run G [ins] s = s.result r op := by rw [run_singleton, h]
  unfold result at hrun
  match hop : op s.world with
  | .ok (.value v, w) =>
    rw [hop] at hrun
    exact ⟨_, hrun, setReg_reg_self, rfl, agree_setReg hr⟩
  | .ok (.payload v, w) => trivial
  | .error .undetermined => trivial
  | .error (.thrown x w) =>
    rw [hop] at hrun
    exact hrun

/-- An instruction that writes a value. -/
theorem computes_setReg {ins : Instr} (hr : ¬ keep r) (h : s.exec G ins = .ok (s.setReg 0 r v)) :
    Computes G [ins] s keep r (.ok (v, s.world)) :=
  ⟨_, by rw [run_singleton, h], setReg_reg_self, rfl, agree_setReg hr⟩

end State

end Eel
