-- SUMMARY: Which operators define their results, and when and, or and xor go by the truth of their operands.
import Eel.Core.ObjectOps
import Eel.Vm.Exec

/-!
# The results of operators
-/

namespace Eel

open Op Meta

/-- A value that is not a reference to an object. -/
def Value.Scalar (v : Value) : Prop := v.obj? = none

/-- An operand that reads what is there. -/
inductive CaseOperand.Present : CaseOperand → Prop where
  | nil : Present .nil
  | real (a : BitVec 64) : Present (.real (some a))
  | whole (k : Whole) (a : BitVec 32) : Present (.whole k (some a))

section Scalars

variable {W : Type} {M : Meta W} {l r : Value} {a b : CaseOperand} {op : Operator} {f : Op W}

theorem Value.Scalar.cls_lt (hl : l.Scalar) : l.cls < 5 := by
  cases l with
  | objref | weakref => cases hl
  | _ => simp [Value.cls]

/-- Scalar operands are taken for what they are. -/
theorem operands_scalar (hl : l.Scalar) (hr : r.Scalar) :
    operands l r = some (l.as l.cls, r.as r.cls) := by
  have hl := hl.cls_lt
  have hr := hr.cls_lt
  have hdiv : (l.cls * 5 + r.cls) / 5 = l.cls := by omega
  have hmod : (l.cls * 5 + r.cls) % 5 = r.cls := by omega
  unfold operands mk2types
  dsimp only
  rw [if_pos (by omega), hdiv, hmod]

theorem Value.Scalar.present (hl : l.Scalar) : (l.as l.cls).Present := by
  cases l with
  | nil => exact .nil
  | real a => exact .real a
  | integer a => exact .whole .integer a
  | boolean a => exact .whole .boolean a
  | classid a => exact .whole .classid a
  | objref | weakref => cases hl

theorem fallback_scalar (hl : l.Scalar) (hr : r.Scalar) : M.fallback l op r = throw Xno.notImplemented := by
  unfold Meta.fallback
  rw [hl, hr]

/-- An operator that writes a value, and does nothing else. -/
def Op.Gives (f : Op W) : Prop := ∃ v, f = give v

theorem Op.Gives.fixed (h : f.Gives) : f.Fixed := .inl h

theorem Op.gives_give {v : Value} : (give v : Op W).Gives := ⟨v, rfl⟩

theorem Op.Gives.inverted (h : f.Gives) : (Meta.inverted f).Gives := by
  obtain ⟨v, rfl⟩ := h
  have hflip : ∃ v', Meta.flip (.value v) = .value v' := by
    cases v <;> exact ⟨_, rfl⟩
  obtain ⟨v', hv'⟩ := hflip
  refine ⟨v', funext fun w => ?_⟩
  show Except.ok (Meta.flip (.value v), w) = _
  rw [hv']
  rfl

section Cases

variable (h : operands l r = some (a, b)) (ha : a.Present) (hb : b.Present)
include h ha hb

theorem gives_opEq : (M.opEq l r).Gives := by
  unfold opEq
  rw [h]
  cases ha with
  | whole k a =>
    cases hb with
    | whole k' b =>
      cases k <;> cases k' <;> exact gives_give
    | _ => cases k <;> exact gives_give
  | _ =>
    cases hb with
    | whole k' b => cases k' <;> exact gives_give
    | _ => exact gives_give

theorem gives_opGt : (M.opGt l r).Gives := by
  unfold opGt
  rw [h]
  cases ha <;> cases hb <;> exact gives_give

theorem gives_opGe : (M.opGe l r).Gives := by
  unfold opGe
  rw [h]
  cases ha <;> cases hb <;> exact gives_give

theorem gives_select {one other : Value} : (M.select l r one other).Gives := by
  obtain ⟨v, hv⟩ := @gives_opGe W M l r a b h ha hb
  refine ⟨if isSet (.value v) then one.copy else other.copy, ?_⟩
  unfold Meta.select
  rw [hv]
  rfl

theorem fixed_opPower : (M.opPower l r).Fixed := by
  unfold opPower
  rw [h]
  cases ha <;> cases hb <;> exact Op.Fixed.give

theorem fixed_opMul : (M.opMul l r).Fixed := by
  unfold opMul
  rw [h]
  cases ha <;> cases hb <;> exact Op.Fixed.give

theorem fixed_opSub : (M.opSub l r).Fixed := by
  unfold opSub
  rw [h]
  cases ha <;> cases hb <;> exact Op.Fixed.give

theorem fixed_opAdd : (M.opAdd l r).Fixed := by
  unfold opAdd
  rw [h]
  cases ha <;> cases hb <;> exact Op.Fixed.give

theorem fixed_opMod : (M.opMod l r).Fixed := by
  unfold opMod
  rw [h]
  cases hb with
  | nil => cases ha <;> exact Op.Fixed.zero rfl
  | _ => cases ha <;> exact Op.Fixed.nonzero rfl Op.Fixed.give

theorem fixed_opDiv : (M.opDiv l r).Fixed := by
  unfold opDiv
  rw [h]
  cases hb with
  | nil => cases ha <;> exact Op.Fixed.zero rfl
  | real b => cases ha <;> exact Op.Fixed.nonzero rfl Op.Fixed.give
  | whole k b =>
    cases k <;> cases ha <;> exact Op.Fixed.nonzero rfl Op.Fixed.give

theorem fixed_bits {g g' : BitVec 32 → BitVec 32 → BitVec 32} (hl : l.Scalar) (hr : r.Scalar) :
    (M.bits op g g' l r).Fixed := by
  unfold Meta.bits
  rw [h, fallback_scalar hl hr]
  cases ha with
  | whole k a =>
    cases hb with
    | whole k' b => cases k <;> cases k' <;> first | exact Op.Fixed.give | exact Op.Fixed.throw
    | _ => cases k <;> exact Op.Fixed.throw
  | _ => exact Op.Fixed.throw

theorem fixed_rotate {g : BitVec 32 → Nat → BitVec 32} (hl : l.Scalar) (hr : r.Scalar) :
    (M.rotate op g l r).Fixed := by
  unfold Meta.rotate
  rw [h, fallback_scalar hl hr]
  cases ha with
  | whole k a =>
    cases hb with
    | whole k' b => cases k <;> cases k' <;> first | exact Op.Fixed.give | exact Op.Fixed.throw
    | _ => cases k <;> exact Op.Fixed.throw
  | _ => exact Op.Fixed.throw

theorem fixed_opBrev (hl : l.Scalar) (hr : r.Scalar) : (M.opBrev l r).Fixed := by
  have hreverse : ∀ a b : BitVec 32, (if (32 : BitVec 32).slt b then throw Xno.highValue
      else if b.slt 0 then throw Xno.lowValue
      else give (.integer (reverse a >>> ((32 - b).toNat % 32))) : Op W).Fixed := by
    intro a b
    split
    · exact Op.Fixed.throw
    · split
      · exact Op.Fixed.throw
      · exact Op.Fixed.give
  unfold opBrev
  rw [h, fallback_scalar hl hr]
  cases ha with
  | whole k a =>
    cases hb with
    | whole k' b =>
      cases k <;> cases k' <;> first | exact hreverse a b | exact Op.Fixed.throw
    | _ => cases k <;> exact Op.Fixed.throw
  | _ => exact Op.Fixed.throw

end Cases

end Scalars

/-! ## Shifts -/

/-- A real is shifted by an integer or a boolean. -/
def ShiftsReal (op : Operator) : Value → Value → Prop
  | .real _, .integer _ | .real _, .boolean _ => op = .shl ∨ op = .shr
  | _, _ => False

section Shifts

variable {W : Type} {M : Meta W} {l r : Value} {op : Operator} {g : BitVec 32 → BitVec 32 → BitVec 32}
  {x : BitVec 64} {y : BitVec 32}

/-- The class is left as it is. -/
theorem shift_real (hl : l = .real x) (hr : r = .integer y ∨ r = .boolean y) :
    M.shift op g l r = fun w => .ok (.payload (g (M.real.toInt x) y), w) := by
  subst hl
  have hreal : (Value.real x).Scalar := rfl
  rcases hr with rfl | rfl
  · have hinteger : (Value.integer y).Scalar := rfl
    unfold Meta.shift
    rw [operands_scalar hreal hinteger]
    rfl
  · have hboolean : (Value.boolean y).Scalar := rfl
    unfold Meta.shift
    rw [operands_scalar hreal hboolean]
    rfl

/-- A real that is shifted by an integer or a boolean leaves the class of the result. -/
theorem ShiftsReal.operate (h : ShiftsReal op l r) : ∃ v, ∀ w, M.operate l op r w = .ok (.payload v, w) := by
  have hshift : ∃ x y, l = .real x ∧ (r = .integer y ∨ r = .boolean y) ∧ (op = .shl ∨ op = .shr) := by
    unfold ShiftsReal at h
    split at h
    · exact ⟨_, _, rfl, .inl rfl, h⟩
    · exact ⟨_, _, rfl, .inr rfl, h⟩
    · exact h.elim
  obtain ⟨x, y, hl, hr, rfl | rfl⟩ := hshift
  · exact ⟨_, fun w => congrFun (shift_real hl hr) w⟩
  · exact ⟨_, fun w => congrFun (shift_real hl hr) w⟩

/-- The other shifts write a value, or raise an exception. -/
theorem fixed_shift (hop : op = .shl ∨ op = .shr) (hl : l.Scalar) (hr : r.Scalar) (hno : ¬ ShiftsReal op l r) :
    (M.shift op g l r).Fixed := by
  have hoperands := operands_scalar hl hr
  have hfallback := @fallback_scalar W M l r op hl hr
  unfold Meta.shift
  rw [hoperands, hfallback]
  cases l with
  | objref | weakref => cases hl
  | real a =>
    cases r with
    | objref | weakref => cases hr
    | integer b | boolean b => exact absurd hop hno
    | real b => exact Op.Fixed.give
    | _ => exact Op.Fixed.throw
  | integer a | boolean a =>
    cases r with
    | objref | weakref => cases hr
    | _ => first | exact Op.Fixed.give | exact Op.Fixed.throw
  | _ =>
    cases r with
    | objref | weakref => cases hr
    | _ => exact Op.Fixed.throw

/-- On operands that are no objects, all the operators do, but for these shifts. -/
theorem operate_fixed (hl : l.Scalar) (hr : r.Scalar) (hbool : op ∉ [.and, .or, .xor]) (hno : ¬ ShiftsReal op l r) :
    (M.operate l op r).Fixed := by
  have h := operands_scalar hl hr
  have ha := hl.present
  have hb := hr.present
  cases op with
  | shl => exact fixed_shift (.inl rfl) hl hr hno
  | shr => exact fixed_shift (.inr rfl) hl hr hno
  | and | or | xor => exact absurd (by decide) hbool
  | power => exact fixed_opPower h ha hb
  | mod => exact fixed_opMod h ha hb
  | div => exact fixed_opDiv h ha hb
  | mul => exact fixed_opMul h ha hb
  | sub => exact fixed_opSub h ha hb
  | add => exact fixed_opAdd h ha hb
  | band | bor | bxor => exact fixed_bits h ha hb hl hr
  | rol | ror => exact fixed_rotate h ha hb hl hr
  | brev => exact fixed_opBrev h ha hb hl hr
  | eq => exact (gives_opEq h ha hb).fixed
  | ne => exact (gives_opEq h ha hb).inverted.fixed
  | gt => exact (gives_opGt h ha hb).fixed
  | ge => exact (gives_opGe h ha hb).fixed
  | lt => exact (gives_opGe h ha hb).inverted.fixed
  | le => exact (gives_opGt h ha hb).inverted.fixed
  | min | max => exact (gives_select h ha hb).fixed
  | _ =>
    show (M.fallback l _ r).Fixed
    rw [fallback_scalar hl hr]
    exact Op.Fixed.throw

/-- Unary operators do it always. -/
theorem unop_fixed (hr : r.Scalar) : (M.unop op r).Fixed := by
  cases r with
  | objref | weakref => cases hr
  | _ => cases op <;> first | exact Op.Fixed.give | exact Op.Fixed.throw

end Shifts

/-! ## Boolean operators -/

/-- The functions of `and`, `or` and `xor`. -/
def Operator.truth? : Operator → Option (Bool → Bool → Bool)
  | .and => some (· && ·)
  | .or => some (· || ·)
  | .xor => some Bool.xor
  | _ => none

/-- The truth of a number, as the boolean operators have it: that of a class id, too. -/
def Value.flag : Value → Bool
  | .nil => false
  | .real a => Reals.nz a
  | .integer v | .boolean v | .classid v => v ≠ 0
  | .objref _ | .weakref .. => true

namespace Classes

variable {W : Type} (C : Classes W) (op : Operator)

end Classes

section Truth

variable {W : Type} {M : Meta W} {C : Classes W} {l r : Value} {a b : CaseOperand} {x y : Bool} {op : Operator}
  {f : Bool → Bool → Bool}

theorem opAnd_eq (h : operands l r = some (a, b)) (ha : a.nz = some x) (hb : b.nz = some y) :
    M.opAnd l r = give (.truth (x && y)) := by
  unfold opAnd
  rw [h]
  cases a with
  | nil =>
    cases ha
    rfl
  | _ =>
    cases b with
    | nil =>
      cases hb
      rw [Bool.and_false]
    | _ =>
      dsimp only
      rw [ha, hb]
      cases x <;> rfl

theorem opOr_eq (h : operands l r = some (a, b)) (ha : a.nz = some x) (hb : b.nz = some y) :
    M.opOr l r = give (.truth (x || y)) := by
  unfold opOr
  rw [h]
  dsimp only
  rw [ha, hb]
  cases x <;> rfl

theorem opXor_eq (h : operands l r = some (a, b)) (ha : a.nz = some x) (hb : b.nz = some y) :
    M.opXor l r = give (.truth (xor x y)) := by
  unfold opXor
  rw [h]
  dsimp only
  rw [ha, hb]
  rfl

/-- Operands that can be read give the function of their flags. -/
theorem operate_eq (hf : op.truth? = some f) (h : operands l r = some (a, b)) (ha : a.nz = some x)
    (hb : b.nz = some y) : M.operate l op r = give (.truth (f x y)) := by
  cases op with
  | and =>
    cases hf
    exact opAnd_eq h ha hb
  | or =>
    cases hf
    exact opOr_eq h ha hb
  | xor =>
    cases hf
    exact opXor_eq h ha hb
  | _ => cases hf

theorem Value.truth_inj : Value.truth x = Value.truth y ↔ x = y := by
  cases x <;> cases y <;> decide

theorem Value.Scalar.flag (hl : l.Scalar) : (l.as l.cls).nz = some l.flag := by
  cases l with
  | objref | weakref => cases hl
  | _ => rfl

/-- What the cases of an object to the right are. -/
theorem operands_objref {o : ObjId} (hl : l.Scalar) :
    operands l (.objref o) =
      match l with
      | .nil => some (.real none, .nil)
      | .real _ => some (.whole .integer none, .nil)
      | .integer v => some (.whole .boolean (some v), .nil)
      | .boolean v => some (.whole .classid (some v), .nil)
      | _ => none := by
  cases l with
  | objref | weakref => cases hl
  | _ => simp [operands, mk2types, Value.cls, Value.as, Value.num?, Value.int?]

theorem operands_object (hl : l.obj?.isSome) : operands l r = none := by
  cases l with
  | objref o =>
    have hn : ¬ mk2types (.objref o) r < 25 := by
      unfold mk2types
      simp only [Value.cls]
      omega
    exact if_neg hn
  | weakref o wired =>
    have hn : ¬ mk2types (.weakref o wired) r < 25 := by
      unfold mk2types
      simp only [Value.cls]
      omega
    exact if_neg hn
  | _ => cases hl

/-- The answer is the truth `y` in every world. -/
def Op.Answers (f : Op W) (y : Bool) : Prop := ∀ w, f w = .ok (.value (.truth y), w)

theorem Op.Answers.defined {g : Op W} (h : g.Answers y) : g.Defined := by
  apply Op.Defined.value
  intro w
  exact .inl ⟨_, _, h w⟩

variable [Nonempty W]

end Truth

end Eel
