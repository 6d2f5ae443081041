-- SUMMARY: Operators on objects, as the metamethods of their classes make them, and results that are defined.
import Eel.Core.Operate

/-!
# Operators on objects

An object to the left decides about an operator, or else one to the right. Some cases of
the source have no `return`, and go on with the next one.
-/

namespace Eel

/-- The metamethods that operators call. -/
inductive Mm where
  | eq
  | compare
  | «in»
  /-- `EEL_MM_POWER` and so on, with `inplace`. -/
  | operator (op : Operator) (inplace : Bool)
  /-- `EEL_MM_RPOWER` and so on. -/
  | roperator (op : Operator) (inplace : Bool)
  deriving DecidableEq

/-- What operators take from the classes of objects, by metamethod. -/
structure Classes (W : Type) where
  real : Reals
  /-- `eel_o__metamethod`. -/
  metamethod : ObjId → Mm → Value → W → Except (Stop W) (Value × W)
  cast : Value → BitVec 32 → W → Except (Stop W) (Value × W)
  length : ObjId → W → Except (Stop W) (Value × W)
  classOf : ObjId → BitVec 32

namespace Classes

variable {W : Type} (C : Classes W)

/-- The result of a metamethod is worked on. -/
def after (o : ObjId) (mm : Mm) (right : Value) (f : Value → Option Value) (w : W) :
    Except (Stop W) (Value × W) := do
  let (v, w) ← C.metamethod o mm right w
  match f v with
  | some v => return (v, w)
  | none => .error .undetermined

/-- `result->integer.v = !result->integer.v`. -/
def notInt : Value → Option Value
  | .integer v => some (.integer (if v = 0 then 1 else 0))
  | .boolean v => some (.boolean (if v = 0 then 1 else 0))
  | .classid v => some (.classid (if v = 0 then 1 else 0))
  | v => some v

/-- A boolean for the answer of `EEL_MM_COMPARE`. -/
def compared (f : Int → Bool) (v : Value) : Option Value := v.int?.map fun v => .truth (f v.toInt)

/-- One of two values, by the answer of `EEL_MM_COMPARE`. -/
def chosen (f : Int → Bool) (one other v : Value) : Option Value :=
  v.int?.map fun v => if f v.toInt then one.copy else other.copy

/-- `eel_op_in`. -/
def opIn (o : ObjId) (v : Value) : W → Except (Stop W) (Value × W) :=
  C.after o .in v fun
    | .integer _ => some (.boolean 1)
    | r => some r

/-- An operator that cannot work in place. -/
def unlessInplace (inplace : Bool) (f : W → Except (Stop W) (Value × W)) (w : W) :
    Except (Stop W) (Value × W) :=
  if inplace then .error (.thrown Xno.cantInplace w) else f w

/-- `eel_object_op`. -/
def objectOp (inplace : Bool) (left : Value) (binop : Operator) (right : Value) :
    W → Except (Stop W) (Value × W) :=
  let o := left.obj?.getD 0
  match binop with
  | .power | .mod | .div | .sub | .mul | .add
  | .vpower | .vmod | .vdiv | .vsub | .vmul | .vadd =>
    C.metamethod o (.operator binop inplace) right
  -- What `and` finds is overwritten by the case of `or`, what `xor` finds by that of `eq`.
  | .and | .or => fun w => .ok (.boolean 1, w)
  | .xor | .eq => unlessInplace inplace (C.metamethod o .eq right)
  | .ne => unlessInplace inplace (C.after o .eq right notInt)
  | .gt => unlessInplace inplace (C.after o .compare right (compared (0 < ·)))
  | .ge => unlessInplace inplace (C.after o .compare right (compared (0 ≤ ·)))
  | .lt => unlessInplace inplace (C.after o .compare right (compared (· < 0)))
  | .le => unlessInplace inplace (C.after o .compare right (compared (· ≤ 0)))
  | .in =>
    unlessInplace inplace
      (match right.obj? with
      | some o => C.opIn o left
      | none => fun w => .ok (.boolean 0, w))
  | .min => unlessInplace inplace (C.after o .compare right (chosen (· ≤ 0) left right))
  | .max => unlessInplace inplace (C.after o .compare right (chosen (0 ≤ ·) left right))
  | _ => fun w => .error (.thrown Xno.notImplemented w)

/-- `eel_object_rop`, whose `left` is the object to the right of the operator. -/
def objectRop (inplace : Bool) (left : Value) (binop : Operator) (right : Value) :
    W → Except (Stop W) (Value × W) :=
  let o := left.obj?.getD 0
  match binop with
  | .power | .mod | .div | .sub | .mul | .add
  | .vpower | .vmod | .vdiv | .vsub | .vmul | .vadd =>
    C.metamethod o (.roperator binop inplace) right
  | .and | .or => fun w => .ok (.boolean 1, w)
  | .xor | .eq => unlessInplace inplace (C.metamethod o .eq right)
  | .ne => unlessInplace inplace (C.after o .eq right notInt)
  | .min => unlessInplace inplace (C.after o .compare right (chosen (· ≤ 0) left right))
  | .max => unlessInplace inplace (C.after o .compare right (chosen (0 ≤ ·) left right))
  | .gt => unlessInplace inplace (C.after o .compare right (compared (· < 0)))
  | .ge => unlessInplace inplace (C.after o .compare right (compared (· ≤ 0)))
  | .lt => unlessInplace inplace (C.after o .compare right (compared (0 < ·)))
  | .le => unlessInplace inplace (C.after o .compare right (compared (0 ≤ ·)))
  | .in => unlessInplace inplace (C.opIn o right)
  | _ => fun w => .error (.thrown Xno.notImplemented w)

/-- The operators, with those on objects. -/
def operators : Meta W where
  real := C.real
  objectOp := C.objectOp
  objectRop := C.objectRop false
  cast := C.cast
  length := C.length
  classOf := C.classOf

/-- Classes without metamethods, over a world where there is nothing. -/
def bare : Classes Unit where
  real :=
    { lt := fun _ _ => false
      add := fun a _ => a
      sub := fun a _ => a
      mul := fun a _ => a
      div := fun a _ => a
      fmod := fun a _ => a
      pow := fun a _ => a
      ofInt := fun a => a.signExtend 64
      toInt := fun a => a.setWidth 32
      floor := fun a => a.setWidth 32 }
  metamethod _ _ _ w := .error (.thrown Xno.notImplemented w)
  cast _ _ w := .error (.thrown Xno.notImplemented w)
  length _ w := .error (.thrown Xno.notImplemented w)
  classOf _ := 5

end Classes

/-! ## Results that are defined -/

/-- What an operator leaves in its result does not depend on what was there. -/
def Op.Defined {W : Type} (f : Op W) : Prop :=
  ∀ w, match f w with
    | .ok (wr, _) => ∀ old old' : Value, wr.over old = wr.over old'
    | .error (.thrown ..) => True
    | .error .undetermined => False

namespace Op.Defined

variable {W : Type} {f : Op W}

theorem give {v : Value} : (Op.give v : Op W).Defined := fun _ _ _ => rfl

theorem throw {x : Xno} : (Op.throw x : Op W).Defined := fun _ => trivial

/-- Written as a value. -/
theorem value (h : ∀ w, (∃ v w', f w = .ok (.value v, w')) ∨ ∃ x w', f w = .error (.thrown x w')) :
    f.Defined := by
  intro w
  rcases h w with ⟨v, w', hw⟩ | ⟨x, w', hw⟩
  · rw [hw]
    exact fun _ _ => rfl
  · rw [hw]
    trivial

theorem not_undetermined {w : W} (h : f w = .error .undetermined) : ¬ f.Defined := by
  intro hf
  have hw := hf w
  rw [h] at hw
  exact hw

end Op.Defined

/-- One value, or one exception, and nothing is done to the world. -/
def Op.Fixed {W : Type} (f : Op W) : Prop := (∃ v, f = Op.give v) ∨ ∃ x, f = Op.throw x

namespace Op.Fixed

variable {W : Type} {f : Op W}

theorem give {v : Value} : (Op.give v : Op W).Fixed := .inl ⟨v, rfl⟩

theorem throw {x : Xno} : (Op.throw x : Op W).Fixed := .inr ⟨x, rfl⟩

theorem nonzero {b : CaseOperand} {v : Bool} (hb : b.nz = some v) (h : f.Fixed) :
    (Meta.nonzero b f).Fixed := by
  unfold Meta.nonzero
  rw [hb]
  cases v with
  | true => exact h
  | false => exact throw

theorem zero {b : CaseOperand} (hb : b.nz = some false) : (Meta.nonzero b f).Fixed := by
  unfold Meta.nonzero
  rw [hb]
  exact throw

theorem defined (h : f.Fixed) : f.Defined := by
  rcases h with ⟨v, rfl⟩ | ⟨x, rfl⟩
  · exact Op.Defined.give
  · exact Op.Defined.throw

end Op.Fixed

end Eel
