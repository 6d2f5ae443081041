-- SUMMARY: Operators on constants: which of them come to the same value or exception in every world.
import Eel.Core.OperatorResults

/-!
# Operators that are settled

The objects that are constants do not change, so what their metamethods come to does not
depend on when they are called.
-/

namespace Eel

open Op Meta

variable {W : Type} {M : Meta W} {f : Op W} {g : W → Except (Stop W) (Value × W)} {U : Value → Prop}
  {l r : Value} {a : CaseOperand} {op : Operator}

/-- A value, or the code of an exception. -/
abbrev Yield := Except Xno Value

/-- A result that writes a value, or that is an exception. -/
inductive Yields : Except (Stop W) (Written × W) → Yield → Prop where
  | value (v : Value) (w : W) : Yields (.ok (.value v, w)) (.ok v)
  | thrown (x : Xno) (w : W) : Yields (.error (.thrown x w)) (.error x)

/-- An operator comes to one outcome, whatever the world is. -/
def Op.Settles (f : Op W) (out : Yield) : Prop := ∀ w, Yields (f w) out

def Op.Settled (f : Op W) : Prop := ∃ out, f.Settles out

namespace Op

theorem Fixed.settled (h : f.Fixed) : f.Settled := by
  rcases h with ⟨v, rfl⟩ | ⟨x, rfl⟩
  · exact ⟨.ok v, fun w => .value v w⟩
  · exact ⟨.error x, fun w => .thrown x w⟩

/-- An operator that works on what another one writes. -/
theorem Settled.map {f' : Op W} (k : Value → Value) (h : f.Settled)
    (hvalue : ∀ v w w', f w = .ok (.value v, w') → f' w = .ok (.value (k v), w'))
    (hthrown : ∀ x w w', f w = .error (.thrown x w') → f' w = .error (.thrown x w')) : f'.Settled := by
  obtain ⟨out, hout⟩ := h
  refine ⟨out.map k, fun w => ?_⟩
  have hw := hout w
  cases hres : f w with
  | ok p =>
    rw [hres] at hw
    cases hw with
    | value v w' =>
      rw [hvalue v w w' hres]
      exact .value (k v) w'
  | error e =>
    rw [hres] at hw
    cases hw with
    | thrown x w' =>
      rw [hthrown x w w' hres]
      exact .thrown x w'

/-- `flip`, on a value. -/
theorem exists_flip : ∃ k : Value → Value, ∀ v, Meta.flip (.value v) = .value (k v) := by
  have h : ∀ v, ∃ v', Meta.flip (.value v) = .value v' := by
    intro v
    cases v <;> exact ⟨_, rfl⟩
  exact Classical.axiomOfChoice h

theorem Settled.inverted (h : f.Settled) : (Meta.inverted f).Settled := by
  obtain ⟨k, hk⟩ := exists_flip
  refine h.map k (fun v w w' hw => ?_) fun x w w' hw => ?_
  · unfold Meta.inverted
    rw [hw, ← hk]
    rfl
  · unfold Meta.inverted
    rw [hw]
    rfl

/-- Neither the class of a result nor a value that is not there is settled. -/
theorem not_settled_payload [Nonempty W] {v : BitVec 32} (h : ∀ w, f w = .ok (.payload v, w)) : ¬ f.Settled := by
  obtain ⟨w⟩ := (inferInstance : Nonempty W)
  rintro ⟨out, hout⟩
  have hw := hout w
  rw [h w] at hw
  cases hw

end Op

/-- The metamethods of constant objects come to the same whenever they are called. -/
structure Meta.Steady (M : Meta W) (U : Value → Prop) : Prop where
  objectOp : ∀ l op r, U l → U r → l.obj?.isSome → (method (M.objectOp false l op r)).Settled
  objectRop : ∀ l op r, U l → U r → r.obj?.isSome → (method (M.objectRop r op l)).Settled
  cast : ∀ o classid, U (.objref o) → classid ∈ [1, 2, 3, M.classOf o] → (method (M.cast (.objref o) classid)).Settled
  length : ∀ o, U (.objref o) → (method (M.length o)).Settled

namespace Meta

theorem fallback_settled (hM : M.Steady U) (hl : U l) (hr : U r) : (M.fallback l op r).Settled := by
  unfold fallback
  split
  · rename_i o ho
    exact hM.objectOp l op r hl hr (Option.isSome_of_eq_some ho)
  · rename_i o hnone ho
    exact hM.objectRop l op r hl hr (Option.isSome_of_eq_some ho)
  · exact Fixed.throw.settled

theorem select_settled {one other : Value} (h : (M.opGe l r).Settled) : (M.select l r one other).Settled := by
  refine h.map (fun v => if isSet (.value v) then one.copy else other.copy) (fun v w w' hw => ?_) fun x w w' hw => ?_
  · unfold select
    rw [hw]
    rfl
  · unfold select
    rw [hw]
    rfl

/-- Operands that no case takes. -/
theorem operate_none (h : operands l r = none) (hop : op ∉ [.ne, .lt, .le, .min, .max]) :
    M.operate l op r = M.fallback l op r := by
  cases op with
  | ne | lt | le | min | max => exact absurd (by decide) hop
  | power | mod | div | mul | sub | add | and | or | xor | eq | gt | ge | band | bor | bxor | shl | shr | rol | ror
  | brev =>
    simp only [operate, opPower, opMod, opDiv, opMul, opSub, opAdd, opAnd, opOr, opXor, opEq, opGt, opGe, bits,
      shift, rotate, opBrev, h]
  | _ => rfl

theorem operate_settled_of_none (hfallback : ∀ op, (M.fallback l op r).Settled) (h : operands l r = none) :
    (M.operate l op r).Settled := by
  have hown : ∀ op, op ∉ [.ne, .lt, .le, .min, .max] → (M.operate l op r).Settled := by
    intro op hop
    rw [operate_none h hop]
    exact hfallback op
  cases op with
  | ne => exact (hown .eq (by decide)).inverted
  | le => exact (hown .gt (by decide)).inverted
  | lt => exact (hown .ge (by decide)).inverted
  | min | max => exact select_settled (hown .ge (by decide))
  | _ => exact hown _ (by decide)

/-- Nil to the right, and anything but nil to the left, which need not be there: only these
operators read it. -/
theorem operate_settled_of_nil (hfallback : ∀ op, (M.fallback l op r).Settled) (h : operands l r = some (a, .nil))
    (ha : a ≠ .nil) (hop : op ∉ [.sub, .add, .or, .xor]) : (M.operate l op r).Settled := by
  have hge : M.opGe l r = give (.truth true) := by
    unfold opGe
    rw [h]
  have hgt : M.opGt l r = give (.truth true) := by
    unfold opGt
    rw [h]
    cases a with
    | nil => exact absurd rfl ha
    | _ => rfl
  have heq : M.opEq l r = give (.truth false) := by
    unfold opEq
    rw [h]
    cases a with
    | nil => exact absurd rfl ha
    | real a => rfl
    | whole k a => cases k <;> rfl
  have hgives : ∀ v, (give v : Op W).Settled := fun v => Fixed.give.settled
  have hthrows : (throw Xno.divByZero : Op W).Settled := Fixed.throw.settled
  cases op with
  | sub | add | or | xor => exact absurd (by decide) hop
  | eq | ne =>
    simp only [operate, heq]
    exact hgives _
  | gt | le =>
    simp only [operate, hgt]
    exact hgives _
  | ge | lt =>
    simp only [operate, hge]
    exact hgives _
  | min | max =>
    refine select_settled ?_
    rw [hge]
    exact hgives _
  | and =>
    simp only [operate, opAnd, h]
    cases a <;> exact hgives _
  | power =>
    simp only [operate, opPower, h]
    cases a with
    | nil => exact absurd rfl ha
    | _ => exact hgives _
  | mul =>
    simp only [operate, opMul, h]
    cases a <;> exact hgives _
  | mod =>
    simp only [operate, opMod, h]
    cases a <;> exact hthrows
  | div =>
    simp only [operate, opDiv, h]
    cases a <;> exact hthrows
  | band | bor | bxor =>
    simp only [operate, bits, h]
    cases a with
    | whole k a => cases k <;> exact hfallback _
    | _ => exact hfallback _
  | shl | shr =>
    simp only [operate, shift, h]
    cases a with
    | whole k a => cases k <;> exact hfallback _
    | _ => exact hfallback _
  | rol | ror =>
    simp only [operate, rotate, h]
    cases a with
    | whole k a => cases k <;> exact hfallback _
    | _ => exact hfallback _
  | brev =>
    simp only [operate, opBrev, h]
    cases a with
    | whole k a => cases k <;> exact hfallback _
    | _ => exact hfallback _
  | _ => exact hfallback _

end Meta

/-- A nil or a real to the left of an object, where the operator reads a number that is not there. -/
def Misreads (op : Operator) (l r : Value) : Prop :=
  op ∈ [.sub, .add, .or, .xor] ∧ (l = .nil ∨ ∃ x, l = .real x) ∧ ∃ o, r = .objref o

theorem Misreads.operate (h : Misreads op l r) : M.operate l op r = fun _ => .error .undetermined := by
  obtain ⟨hop, hl, o, rfl⟩ := h
  simp only [List.mem_cons, List.not_mem_nil, or_false] at hop
  rcases hl with rfl | ⟨x, rfl⟩
  · have hnil : (Value.nil).Scalar := rfl
    have hoperands := @operands_objref .nil o hnil
    rcases hop with rfl | rfl | rfl | rfl
    · simp only [Meta.operate, opSub, hoperands]
      rfl
    · simp only [Meta.operate, opAdd, hoperands]
      rfl
    · simp only [Meta.operate, opOr, hoperands]
      rfl
    · simp only [Meta.operate, opXor, hoperands]
      rfl
  · have hreal : (Value.real x).Scalar := rfl
    have hoperands := @operands_objref (.real x) o hreal
    rcases hop with rfl | rfl | rfl | rfl
    · simp only [Meta.operate, opSub, hoperands]
      rfl
    · simp only [Meta.operate, opAdd, hoperands]
      rfl
    · simp only [Meta.operate, opOr, hoperands]
      rfl
    · simp only [Meta.operate, opXor, hoperands]
      rfl

namespace Meta

/-- An integer or a boolean to the left of nil is there. -/
theorem operate_settled_of_whole {k : Whole} {v : BitVec 32} (h : operands l r = some (.whole k (some v), .nil))
    (hop : op ∈ [.sub, .add, .or, .xor]) : (M.operate l op r).Settled := by
  have ha : (CaseOperand.whole k (some v)).Present := .whole k v
  simp only [List.mem_cons, List.not_mem_nil, or_false] at hop
  rcases hop with rfl | rfl | rfl | rfl
  · exact (fixed_opSub h ha .nil).settled
  · exact (fixed_opAdd h ha .nil).settled
  · have heq : M.operate l .or r = give (.truth ((v ≠ 0 : Bool) || false)) := operate_eq rfl h rfl rfl
    rw [heq]
    exact Fixed.give.settled
  · have heq : M.operate l .xor r = give (.truth (xor (v ≠ 0 : Bool) false)) := operate_eq rfl h rfl rfl
    rw [heq]
    exact Fixed.give.settled

theorem operate_settled_of_scalar (hl : l.Scalar) (hr : r.Scalar) (hno : ¬ ShiftsReal op l r) :
    (M.operate l op r).Settled := by
  by_cases hbool : op ∈ [Operator.and, .or, .xor]
  · have htruth : ∃ f, op.truth? = some f := by
      simp only [List.mem_cons, List.not_mem_nil, or_false] at hbool
      rcases hbool with rfl | rfl | rfl <;> exact ⟨_, rfl⟩
    obtain ⟨f, hf⟩ := htruth
    rw [operate_eq hf (operands_scalar hl hr) hl.flag hr.flag]
    exact Fixed.give.settled
  · exact (operate_fixed hl hr hbool hno).settled

/-- A binary operator on constants is settled but for these two. -/
theorem operate_settled_iff [Nonempty W] (hM : M.Steady U) (hl : U l) (hr : U r)
    (hl' : l.Scalar ∨ ∃ o, l = .objref o) (hr' : r.Scalar ∨ ∃ o, r = .objref o) :
    (M.operate l op r).Settled ↔ ¬ (ShiftsReal op l r ∨ Misreads op l r) := by
  obtain ⟨w⟩ := (inferInstance : Nonempty W)
  constructor
  · rintro hsettled (hshift | hmisread)
    · obtain ⟨v, hpayload⟩ := hshift.operate (M := M)
      exact Op.not_settled_payload hpayload hsettled
    · obtain ⟨out, hout⟩ := hsettled
      have hw := hout w
      rw [hmisread.operate] at hw
      cases hw
  · intro hno
    have hfallback : ∀ op, (M.fallback l op r).Settled := fun op => fallback_settled hM hl hr
    rcases hr' with hscalar | ⟨o, rfl⟩
    · rcases hl' with hl' | ⟨o, rfl⟩
      · exact operate_settled_of_scalar hl' hscalar fun h => hno (.inl h)
      · exact operate_settled_of_none hfallback (operands_object rfl)
    · rcases hl' with hl' | ⟨o', rfl⟩
      · have hoperands := @operands_objref l o hl'
        by_cases hop : op ∈ [Operator.sub, .add, .or, .xor]
        · cases l with
          | objref | weakref => cases hl'
          | nil => exact absurd (.inr ⟨hop, .inl rfl, o, rfl⟩) hno
          | real x => exact absurd (.inr ⟨hop, .inr ⟨x, rfl⟩, o, rfl⟩) hno
          | integer v | boolean v => exact operate_settled_of_whole hoperands hop
          | classid v => exact operate_settled_of_none hfallback hoperands
        · cases l with
          | objref | weakref => cases hl'
          | classid v => exact operate_settled_of_none hfallback hoperands
          | _ => exact operate_settled_of_nil hfallback hoperands (by intro h; cases h) hop
      · exact operate_settled_of_none hfallback (operands_object rfl)

/-- Unary operators on constants are settled. -/
theorem unop_settled (hM : M.Steady U) (hr : U r) (hr' : r.Scalar ∨ ∃ o, r = .objref o) : (M.unop op r).Settled := by
  rcases hr' with hscalar | ⟨o, rfl⟩
  · exact (unop_fixed hscalar).settled
  · cases op with
    | castr => exact hM.cast o 1 hr List.mem_cons_self
    | casti => exact hM.cast o 2 hr (by simp)
    | castb => exact hM.cast o 3 hr (by simp)
    | clone => exact hM.cast o (M.classOf o) hr (by simp)
    | sizeof => exact hM.length o hr
    | not | typeof => exact Fixed.give.settled
    | _ => exact Fixed.throw.settled

end Meta

end Eel
