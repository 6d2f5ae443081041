-- SUMMARY: Chains of operators are read from the left to the right, unless they begin without a value.
import Eel.Compiler.Expressions

/-!
# Expression trees

What a chain of operators should come to is said by relations on the text. What the parser returns is
compared with them, call by call.
-/

namespace Eel.ExprParser

open Procedures Prog

variable {S W : Type} {P : ExprParser S W}

/-! ## What an operator is applied to -/

/-- The operands that a binary operator pairs: one by one, or a single one with each of the other side.
There are always some. -/
inductive Pairs : List Manip → List Manip → List (Manip × Manip) → Prop
  | left (l : Manip) {rs : List Manip} (h : rs ≠ []) : Pairs [l] rs (rs.map fun r => (l, r))
  | right {ls : List Manip} (h : ls ≠ []) (r : Manip) : Pairs ls [r] (ls.map fun l => (l, r))
  | zip {ls rs : List Manip} (h : ls ≠ []) (hlen : ls.length = rs.length) : Pairs ls rs (ls.zip rs)

/-- An operator with its operands, or the value that constant operands come to. -/
inductive Applied (P : ExprParser S W) (s : S) : Option Manip → Operator → Manip → Manip → Prop
  | unop {op : Operator} {r : Manip} : Applied P s none op r (.unop op r)
  | binop {l : Manip} {op : Operator} {r : Manip} : Applied P s (some l) op r (.binop l op r)
  | foldUnop {op : Operator} {rv : Value} {v : Written} {w : W}
    (h : P.ops.unop op rv (P.world s) = .ok (v, w)) :
    Applied P s none op (.constant rv) (.constant (v.over (P.stale s)))
  | foldBinop {lv : Value} {op : Operator} {rv : Value} {v : Written} {w : W}
    (h : P.ops.operate lv op rv (P.world s) = .ok (v, w)) :
    Applied P s (some (.constant lv)) op (.constant rv) (.constant (v.over (P.stale s)))

section Folding

variable {s : S} {left : Option Manip} {op : Operator} {right m : Manip} {cid : BitVec 32} {stale : Value}
  {f : Op W} {w : W}

theorem fold_cases (h : Manip.fold stale f m w = some right) :
    right = m ∨ ∃ v w', f w = .ok (v, w') ∧ right = .constant (v.over stale) := by
  unfold Manip.fold at h
  split at h
  · rename_i v w' hf
    exact .inr ⟨v, w', hf, (Option.some.inj h).symm⟩
  · exact .inl (Option.some.inj h).symm
  · cases h

theorem applied_of_mOp (h : P.mOp s left op right = some m) : P.Applied s left op right m := by
  unfold mOp Manip.mOp at h
  split at h
  · rcases fold_cases h with rfl | ⟨v, w', hv, rfl⟩
    · exact .unop
    · exact .foldUnop hv
  · rcases fold_cases h with rfl | ⟨v, w', hv, rfl⟩
    · exact .binop
    · exact .foldBinop hv
  · obtain rfl := Option.some.inj h
    exact .unop
  · obtain rfl := Option.some.inj h
    exact .binop

end Folding

/-! ## The loop over operands -/

section Applying

variable {s : S} {op : Operator} {left right ms : List Manip} {rinc : Nat}

/-- With the operands at the front and the results behind them, the loop takes both sides as they
come. -/
theorem applyAll_pairs {ls rs done : List Manip} {ri : Nat} (hlen : ls.length = rs.length)
    (hrs : ∀ k (hk : k < rs.length), right[ri + k * rinc]? = some rs[k])
    (h : P.applyAll s op right true rinc ls.length ri (ls ++ done) = some ms) :
    ∃ ms', ms = done ++ ms' ∧ List.Forall₂ (fun p m => P.Applied s (some p.1) op p.2 m) (ls.zip rs) ms' := by
  induction ls generalizing rs done ri with
  | nil =>
    obtain rfl := Option.some.inj h
    exact ⟨[], (List.append_nil _).symm, .nil⟩
  | cons l ls ih =>
    cases rs with
    | nil => cases hlen
    | cons r rs =>
      have hr : right[ri]? = some r := by simpa using hrs 0 (Nat.succ_pos _)
      simp only [List.length_cons, applyAll, List.cons_append, List.head?_cons, hr, true_or, if_true,
        Option.bind_eq_bind, Option.bind_some] at h
      obtain ⟨m, hm, h⟩ := Option.bind_eq_some_iff.mp h
      rw [List.tail_cons, List.append_assoc] at h
      have hrs' : ∀ k (hk : k < rs.length), right[ri + rinc + k * rinc]? = some rs[k] := by
        intro k hk
        have hnext := hrs (k + 1) (Nat.succ_lt_succ hk)
        rw [Nat.succ_mul, Nat.add_comm _ rinc, ← Nat.add_assoc] at hnext
        exact hnext
      obtain ⟨ms', rfl, hms⟩ := ih (Nat.succ.inj hlen) hrs' h
      exact ⟨m :: ms', by simp, .cons (applied_of_mOp hm) hms⟩

theorem applyAll_start {ls rs : List Manip} (hlen : ls.length = rs.length)
    (hrs : ∀ k (hk : k < rs.length), right[k * rinc]? = some rs[k])
    (h : P.applyAll s op right true rinc ls.length 0 ls = some ms) :
    List.Forall₂ (fun p m => P.Applied s (some p.1) op p.2 m) (ls.zip rs) ms := by
  have hrs' : ∀ k (hk : k < rs.length), right[0 + k * rinc]? = some rs[k] := by
    intro k hk
    rw [Nat.zero_add]
    exact hrs k hk
  rw [← List.append_nil ls, List.length_append, List.length_nil, Nat.add_zero] at h
  obtain ⟨ms', rfl, hms⟩ := applyAll_pairs hlen hrs' h
  exact hms

/-- A single operand on the left stays in front until the last round. -/
theorem applyAll_single {l : Manip} {rs done : List Manip} {ri : Nat} (hne : rs ≠ []) (hright : right.drop ri = rs)
    (h : P.applyAll s op right false 1 rs.length ri (l :: done) = some ms) :
    ∃ ms', ms = done ++ ms' ∧
      List.Forall₂ (fun p m => P.Applied s (some p.1) op p.2 m) (rs.map fun r => (l, r)) ms' := by
  induction rs generalizing done ri with
  | nil => exact absurd rfl hne
  | cons r rs ih =>
    have hr : right[ri]? = some r := by
      rw [← List.head?_drop, hright]
      rfl
    have hright' : right.drop (ri + 1) = rs := by
      rw [← List.tail_drop, hright]
      rfl
    simp only [List.length_cons, applyAll, List.head?_cons, hr, Bool.false_eq_true, false_or,
      Option.bind_eq_bind, Option.bind_some] at h
    obtain ⟨m, hm, h⟩ := Option.bind_eq_some_iff.mp h
    cases rs with
    | nil =>
      simp only [List.length_nil, if_true, applyAll, List.cons_append, List.tail_cons, Option.some.injEq] at h
      exact ⟨[m], h.symm, .cons (applied_of_mOp hm) .nil⟩
    | cons r' rs =>
      rw [if_neg (by simp)] at h
      obtain ⟨ms', rfl, hms⟩ := ih (List.cons_ne_nil _ _) hright' h
      exact ⟨m :: ms', by simp, .cons (applied_of_mOp hm) hms⟩

theorem zip_map_const {ls : List Manip} {r : Manip} : ls.zip (ls.map fun _ => r) = ls.map fun l => (l, r) := by
  induction ls with
  | nil => rfl
  | cons l ls ih => rw [List.map_cons, List.zip_cons_cons, ih, List.map_cons]

/-- Operands are paired one by one, or the single one with each on the other side; what does not go
together is rejected. Nothing on both sides passes. -/
theorem applyBinary_cases (h : P.applyBinary s op left right = some ms) :
    left = [] ∧ right = [] ∧ ms = [] ∨
      ∃ ps, Pairs left right ps ∧ List.Forall₂ (fun p m => P.Applied s (some p.1) op p.2 m) ps ms := by
  unfold applyBinary at h
  split at h
  · rename_i hleft
    obtain ⟨l, rfl⟩ := List.length_eq_one_iff.mp hleft
    split at h
    · cases h
    · rename_i hright
      have hne : right ≠ [] := fun hnil => hright (congrArg List.length hnil)
      obtain ⟨ms', rfl, hms⟩ := applyAll_single hne rfl h
      exact .inr ⟨_, .left l hne, hms⟩
  · split at h
    · rename_i hright
      obtain ⟨r, rfl⟩ := List.length_eq_one_iff.mp hright
      split at h
      · cases h
      · rename_i hleft
        have hne : left ≠ [] := fun hnil => hleft (congrArg List.length hnil)
        have hlen : left.length = (left.map fun _ => r).length := (List.length_map _).symm
        have hms := applyAll_start hlen (fun k hk => by simp) h
        refine .inr ⟨_, .right hne r, ?_⟩
        rwa [zip_map_const] at hms
    · split at h
      · cases h
      · split at h
        · cases h
        · have hlen : left.length = right.length := by omega
          cases left with
          | nil =>
            obtain rfl := List.length_eq_zero_iff.mp hlen.symm
            exact .inl ⟨rfl, rfl, (Option.some.inj h).symm⟩
          | cons l ls =>
            refine .inr ⟨_, .zip (List.cons_ne_nil _ _) hlen, applyAll_start hlen (fun k hk => ?_) h⟩
            rw [Nat.mul_one]
            exact List.getElem?_eq_getElem hk

end Applying

/-! ## Operands and chains -/

/-- An operand, from `s` to `t`: what `simplexp` reads with its indexing, or an operator with the one
operand behind it. -/
inductive Operand (P : ExprParser S W) : Bool → S → List Manip → S → Prop
  | simple {want : Bool} {s t : S} {ms : List Manip} (h : Returns P.code (P.simplexp want s) (some ms, t)) :
    Operand P want s ms t
  | unary {want : Bool} {s s' u t : S} {sym : OperatorSym} {op : UnaryOperator} {right ms : List Manip}
    (hnone : Returns P.code (P.simplexp want s) (none, s')) (htoken : P.token s' = .operator sym)
    (hop : sym.unary? = some op) (hlex : P.lex s' = some u) (h : Operand P true u right t) (hne : right ≠ [])
    (hms : List.Forall₂ (P.Applied t none op.op) right ms) : Operand P want s ms t

/-- Operators with an operand behind each, from `s` to `t`: each is applied to what is there so far and
to its operand. -/
inductive Operations (P : ExprParser S W) : List Manip → S → List Manip → S → Prop
  | stop {left : List Manip} {s : S} : Operations P left s left s
  | apply {left right left' ms : List Manip} {s u v t : S} {sym : OperatorSym} {b : BinaryOperator}
    {ps : List (Manip × Manip)} (htoken : P.token s = .operator sym) (hop : sym.binary? = some b)
    (hlex : P.lex s = some u) (hright : Operand P true u right v) (hps : Pairs left right ps)
    (hleft : List.Forall₂ (fun p m => P.Applied v (some p.1) b.op p.2 m) ps left')
    (h : Operations P left' v ms t) : Operations P left s ms t

/-- Expressions with commas between them. There may be one at the end. -/
inductive Listed (P : ExprParser S W) (want : Bool) : (first : Bool) → S → List Manip → S → Prop
  | trailing {s t : S} {al : List Manip} (h : Returns P.code (expression want s) (.wrong, al, t)) :
    Listed P want false s [] t
  | last {first : Bool} {s t : S} {res : ExprAnswer} {al : List Manip}
    (h : Returns P.code (expression want s) (res, al, t)) (hres : res ≠ .wrong)
    (htoken : P.token t ≠ .char ',') : Listed P want first s al t
  | more {first : Bool} {s t u v : S} {res : ExprAnswer} {al ms : List Manip}
    (h : Returns P.code (expression want s) (res, al, t)) (hres : res ≠ .wrong)
    (htoken : P.token t = .char ',') (hlex : P.lex t = some u) (hrest : Listed P want false u ms v) :
    Listed P want first s (al ++ ms) v

section Operands

variable {want want' : Bool} {s t u : S} {ms ms' left right : List Manip} {sym : OperatorSym} {b : BinaryOperator}
  {op : UnaryOperator} {ps : List (Manip × Manip)} {limit : Int} {res : ExprAnswer}

/-- No operator is beyond the limit that operands are read with. -/
theorem binary_bounds (h : sym.binary? = some b) : 0 ≤ b.lpri ∧ b.lpri ≤ 1000 ∧ 0 ≤ b.rpri := by
  cases sym <;> cases h <;> decide

theorem unary_bound (h : sym.unary? = some op) : 0 ≤ op.pri := by
  cases sym <;> cases h <;> decide

theorem Pairs.ne_nil (h : Pairs left right ps) : left ≠ [] ∧ right ≠ [] ∧ ps ≠ [] := by
  cases h with
  | left l h => exact ⟨List.cons_ne_nil _ _, h, fun hnil => h (List.map_eq_nil_iff.mp hnil)⟩
  | right h r => exact ⟨h, List.cons_ne_nil _ _, fun hnil => h (List.map_eq_nil_iff.mp hnil)⟩
  | zip h hlen =>
    have hright : right ≠ [] := by
      rintro rfl
      exact h (List.length_eq_zero_iff.mp hlen)
    refine ⟨h, hright, fun hnil => ?_⟩
    rcases List.zip_eq_nil_iff.mp hnil with hnil | hnil
    · exact h hnil
    · exact hright hnil

/-- An operand is read in one way. -/
theorem Operand.unique (h : P.Operand want s ms t) (h' : P.Operand want s ms' u) (hnil : ms = []) :
    ms' = [] ∧ t = u := by
  cases h with
  | simple h =>
    cases h' with
    | simple h' =>
      obtain ⟨hms, rfl⟩ := Prod.mk.inj (h.unique h')
      exact ⟨(Option.some.inj hms).symm.trans hnil, rfl⟩
    | unary hnone => cases h.unique hnone
  | unary _ _ _ _ _ hne hms =>
    subst hnil
    cases hms
    exact absurd rfl hne

end Operands

/-! ## Runs -/

section Runs

variable {first want : Bool} {s t u v w : S} {ms al left right sal : List Manip} {sym : OperatorSym}
  {b : BinaryOperator} {limit : Int} {res : ExprAnswer} {o : Option (List Manip)} {q : ExprCall S} {cid : BitVec 32}

/-- What the functions return when they do. -/
def Meaning (P : ExprParser S W) : ExprCall S → ExprAnswer × List Manip × S → Prop
  | .expression2 limit want s, (_, ms, t) => 1000 ≤ limit → ms ≠ [] → P.Operand want s ms t
  | .operations limit left s, (_, ms, t) =>
    (1000 ≤ limit → ms = left ∧ t = s) ∧
      (limit = -1 → left ≠ [] → P.Operations left s ms t ∧ ∀ sym, P.token t ≠ .operator sym)
  | .listof first want sal s, (res, ms, t) =>
    res ≠ .wrong → ∃ ms', ms = sal ++ ms' ∧ P.Listed want first s ms' t
  | .indexing .., _ => True

/-- What the calls of a run return. -/
abbrev Known (P : ExprParser S W) (q : ExprCall S) (r : ExprAnswer × List Manip × S) : Prop :=
  Returns P.code (P.code q) r ∧ P.Meaning q r

theorem via_require {p : Bool} {a : Unit} : (require (S := S) p).Via P.Known a ↔ p = true := by
  cases p <;> simp [require, Via]

theorem forall₂_of_mapM {f : Manip → Option Manip} {xs ys : List Manip} (h : xs.mapM f = some ys) :
    List.Forall₂ (fun x y => f x = some y) xs ys := by
  induction xs generalizing ys with
  | nil =>
    obtain rfl := Option.some.inj h
    exact .nil
  | cons x xs ih =>
    rw [List.mapM_cons] at h
    obtain ⟨y, hy, h⟩ := Option.bind_eq_some_iff.mp h
    obtain ⟨ys', hys, h⟩ := Option.bind_eq_some_iff.mp h
    obtain rfl := Option.some.inj h
    exact .cons hy (ih hys)

/-- The operator of an operand applies to the operand behind it. -/
theorem operand_via (h : (P.operand want s).Via P.Known (some ms, t)) : P.Operand want s ms t := by
  unfold operand at h
  obtain ⟨⟨o, s'⟩, hsimple, h⟩ := via_bind.mp h
  have hreturns := returns_of_via hsimple
  cases o with
  | some left =>
    cases h
    exact .simple hreturns
  | none =>
    dsimp only at h
    split at h
    · rename_i sym htoken
      simp only [bind_eq, via_bind, via_ofOption, via_ask, via_require] at h
      obtain ⟨op, hop, u, hlex, ⟨res, right, v⟩, ⟨-, hright⟩, -, hne, left, hleft, h⟩ := h
      cases h
      have hne' : right ≠ [] := by simpa using hne
      have hbound := unary_bound hop
      refine .unary hreturns htoken hop hlex (hright (by omega) hne') hne' ?_
      exact (forall₂_of_mapM hleft).imp fun _ _ => applied_of_mOp
    · cases h

theorem expression2_step {r : ExprAnswer × List Manip × S} (h : (P.expression2 limit want s).Via P.Known r) :
    P.Meaning (.expression2 limit want s) r := by
  obtain ⟨res, ms, t⟩ := r
  intro hlimit hne
  unfold expression2 at h
  obtain ⟨⟨o, u⟩, hoperand, h⟩ := via_bind.mp h
  cases o with
  | some left =>
    obtain ⟨-, hstop, -⟩ := via_ask.mp h
    obtain ⟨rfl, rfl⟩ := hstop hlimit
    exact operand_via hoperand
  | none =>
    cases h
    exact absurd rfl hne

theorem operations_step {r : ExprAnswer × List Manip × S} (h : (P.operations limit left s).Via P.Known r) :
    P.Meaning (.operations limit left s) r := by
  obtain ⟨res, ms, t⟩ := r
  unfold operations at h
  split at h
  · rename_i sym htoken
    simp only [bind_eq, via_bind, via_ofOption] at h
    obtain ⟨b, hop, h⟩ := h
    obtain ⟨hlo, hhi, hr⟩ := binary_bounds hop
    split at h
    · cases h
      exact ⟨fun _ => ⟨rfl, rfl⟩, fun hlimit => by omega⟩
    · refine ⟨fun hlimit => by omega, fun hlimit hne => ?_⟩
      simp only [via_bind, via_ofOption, via_ask] at h
      obtain ⟨u, hlex, ⟨res', right, v⟩, ⟨-, hright⟩, left', hleft, -, -, hrest⟩ := h
      rcases applyBinary_cases hleft with ⟨hnil, -⟩ | ⟨ps, hps, hall⟩
      · exact absurd hnil hne
      · obtain ⟨-, hright', hps'⟩ := hps.ne_nil
        have hne' : left' ≠ [] := by
          rintro rfl
          cases hall
          exact hps' rfl
        obtain ⟨hoperations, hend⟩ := hrest hlimit hne'
        exact ⟨.apply htoken hop hlex (hright (by omega) hright') hps hall hoperations, hend⟩
  · rename_i hno
    cases h
    exact ⟨fun _ => ⟨rfl, rfl⟩, fun _ _ => ⟨.stop, hno⟩⟩

theorem listof_step {r : ExprAnswer × List Manip × S} (h : (P.listof first want sal s).Via P.Known r) :
    P.Meaning (.listof first want sal s) r := by
  obtain ⟨res, ms, t⟩ := r
  intro hres
  unfold listof at h
  simp only [bind_eq, via_bind, via_ask] at h
  obtain ⟨⟨res', al, u⟩, ⟨hexpression, -⟩, h⟩ := h
  have hask : Returns P.code (expression want s) (res', al, u) := returns_ask.mpr hexpression
  split at h
  · rename_i hwrong
    subst hwrong
    cases first with
    | true =>
      cases h
      exact absurd rfl hres
    | false =>
      cases h
      exact ⟨[], (List.append_nil _).symm, .trailing hask⟩
  · rename_i hright
    split at h
    · rename_i hcomma
      simp only [via_bind, via_ofOption, via_ask] at h
      obtain ⟨v, hlex, -, hrest⟩ := h
      obtain ⟨ms', rfl, hlisted⟩ := hrest hres
      exact ⟨al ++ ms', by rw [List.append_assoc], .more hask hright hcomma hlex hlisted⟩
    · rename_i hcomma
      cases h
      exact ⟨al, rfl, .last hask hright hcomma⟩

/-- What a run returns is known of each call. -/
theorem returns_via {α : Type} {x : Parse S α} {a : α} (h : Returns P.code x a) : x.Via P.Known a := by
  refine Returns.via (fun q r hq => ?_) h
  cases q with
  | expression2 limit want s => exact expression2_step hq
  | operations limit left s => exact operations_step hq
  | listof first want sal s => exact listof_step hq
  | indexing want al s => trivial

end Runs

/-! ## What is read -/

section Reading

variable {first want : Bool} {s t u : S} {ms left : List Manip} {res : ExprAnswer}

theorem listed_of_returns (h : Returns P.code (ask (.listof first want [] s)) (res, ms, t)) (hres : res ≠ .wrong) :
    P.Listed want first s ms t := by
  obtain ⟨ms', rfl, hlisted⟩ := (via_ask.mp (returns_via h)).2 hres
  exact hlisted

end Reading

end Eel.ExprParser
