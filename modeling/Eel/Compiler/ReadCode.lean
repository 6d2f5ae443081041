-- SUMMARY: The code that reads a manipulator computes its value.
import Eel.Compiler.Eval
import Eel.Core.ObjectOps

/-!
# Reading

The code of `eel_m_read` is compared with the value of the manipulator. Constants that
compare equal share a place in the table, so they have to be the same.
-/

namespace Eel

open State

variable {W : Type} {G : Globals W} {s s' : State W} {keep : Nat → Prop} {same : ObjId → ObjId → Bool}
  {m left right om im object : Manip} {r q : Nat} {cdr cdr' : CoderState} {code : List Instr} {op : Operator}
  {v : Value} {U : Value → Prop} {w : W}

/-! ## Evaluation -/

theorem Manip.eval_unop {level : Nat → Level} (h : ∀ k a, op = .sizeof → right ≠ .tuparg k a) :
    (Manip.unop op right).eval G level w =
      right.eval G level w >>= fun p => (G.unop op p.1).value p.2 := by
  rw [Manip.eval]
  exact fun k a hop hright => h k a hop hright

theorem Manip.eval_index {level : Nat → Level} (h : ∀ k a, om ≠ .tuparg k a) :
    (Manip.index om im).eval G level w =
      om.eval G level w >>= fun p =>
        im.eval G level p.2 >>= fun i => evalIndex G p.1 i.1 i.2 := by
  rw [Manip.eval]
  exact h

/-- What code leaves alone does not change what a manipulator stands for. -/
theorem Manip.eval_congr (h : Agree keep s s') (hm : ∀ q ∈ m.regs, keep q) :
    m.eval G s'.level w = m.eval G s.level w := by
  induction m generalizing w with
  | void | args | tupargs | tuparg | constant | statvar => rfl
  | result q | register q =>
    unfold eval
    rw [h.regs 0 q (.inr (hm q (List.mem_singleton_self q)))]
  | «variable» k q =>
    unfold eval
    by_cases hk : k = 0
    · subst hk
      rw [h.regs 0 q (.inr (hm q (by simp [regs])))]
    · rw [h.regs k q (.inl hk)]
  | argument k a | optarg k a =>
    unfold eval
    exact h.evalArg
  | unop op right ih =>
    have ih := fun w => @ih w hm
    by_cases hsize : ∃ k a, op = .sizeof ∧ right = .tuparg k a
    · obtain ⟨k, a, rfl, rfl⟩ := hsize
      exact h.countTuples
    · have hsize : ∀ k a, op = .sizeof → right ≠ .tuparg k a :=
        fun k a hop hright => hsize ⟨k, a, hop, hright⟩
      rw [eval_unop hsize, eval_unop hsize, ih]
  | binop left op right ihl ihr =>
    have ihl := fun w => @ihl w fun q hq => hm q (List.mem_append_left _ hq)
    have ihr := fun w => @ihr w fun q hq => hm q (List.mem_append_right _ hq)
    simp only [eval, ihl, ihr]
  | cast object classid ih =>
    have ih := fun w => @ih w hm
    simp only [eval, ih]
  | index om im ihom ihim =>
    have ihom := fun w => @ihom w fun q hq => hm q (List.mem_append_left _ hq)
    have ihim := fun w => @ihim w fun q hq => hm q (List.mem_append_right _ hq)
    by_cases hom : ∃ k a, om = .tuparg k a
    · obtain ⟨k, a, rfl⟩ := hom
      simp only [eval, ihim, h.evalTuparg]
    · have hom : ∀ k a, om ≠ .tuparg k a := fun k a heq => hom ⟨k, a, heq⟩
      simp only [eval_index hom, ihom, ihim]

/-- An operand that is read in place stands for its register. -/
theorem Manip.Direct.eval (h : Direct m q) : m.eval G s.level w = .ok (s.reg q, w) := by
  cases h <;> rfl

/-! ## Constants -/

/-- Constants that share a place in the table are the same, and plain. -/
structure Distinct (same : ObjId → ObjId → Bool) (U : Value → Prop) : Prop where
  eq : ∀ c v, U c → U v → Value.sameConstant same c v → c = v
  plain : ∀ v, U v → v.Plain

/-- The table has a constant where `eel_coder_add_constant` says. -/
theorem CoderState.constant_addConstant {K : List Value} (hU : Distinct same U) (hv : U v)
    (hcdr : ∀ c ∈ cdr.constants, U c) (hK : (cdr.addConstant same v).2.constants <+: K) :
    K[(cdr.addConstant same v).1]? = some v := by
  obtain ⟨t, rfl⟩ := hK
  unfold addConstant
  split
  · rename_i i hi
    obtain ⟨hlt, hsame, -⟩ := List.findIdx?_eq_some_iff_getElem.mp hi
    have hc := hU.eq _ v (hcdr _ (List.getElem_mem hlt)) hv hsame
    show (cdr.constants ++ t)[i]? = some v
    rw [List.getElem?_append_left hlt, List.getElem?_eq_getElem hlt, hc]
  · show ((cdr.constants ++ [v.qcopy]) ++ t)[cdr.constants.length]? = some v
    rw [(hU.plain v hv).qcopy, List.append_assoc, List.getElem?_append_right (Nat.le_refl _), Nat.sub_self]
    rfl

/-! ## Instructions -/

/-- The instruction of a unary operator. -/
theorem State.exec_unary {ins : Nat → Nat → Instr} {a b : Nat} (h : op.unary? = some ins) :
    s.exec G (ins a b) = s.result a (G.unop op (s.reg b)) := by
  cases op <;> cases h <;> rfl

theorem Level.constant_strong {l : Level} {i : Nat} (h : ∀ c ∈ l.constants, c.qcopy = c) :
    (l.constant i).qcopy = l.constant i := by
  unfold constant
  cases hget : l.constants[i]? with
  | none => rfl
  | some c => exact h c (List.mem_of_getElem? hget)

theorem Level.default_strong {l : Level} {i : Nat} (h : ∀ c ∈ l.constants, c.qcopy = c)
    (hv : l.default i = some v) : v.qcopy = v := by
  unfold default at hv
  split at hv
  · cases hv
  · split at hv
    · obtain rfl := Option.some.inj hv
      exact constant_strong h
    · cases hv

theorem Level.tupargDefault_strong {l : Level} {i : Nat} (h : ∀ c ∈ l.constants, c.qcopy = c)
    (hv : l.tupargDefault i = some v) : v.qcopy = v := by
  unfold tupargDefault at hv
  split at hv
  · exact default_strong h hv
  · cases hv

/-- An argument is read with its value. -/
theorem State.computes_getarg {ins : Instr} {k i : Nat} {d : Option Value} (hr : ¬ keep r)
    (hargs : ∀ v ∈ (s.level k).args, v.qcopy = v) (hd : ∀ v, d = some v → v.qcopy = v)
    (h : s.exec G ins = s.getarg r k i d) :
    Computes G [ins] s keep r ((s.level k).evalArg i d s.world) := by
  unfold getarg at h
  unfold Level.evalArg
  cases harg : (s.level k).arg i d with
  | none =>
    rw [harg] at h
    show run G [ins] s = _
    rw [run_singleton, h]
  | some v =>
    rw [harg] at h
    have hv : v.qcopy = v := by
      unfold Level.arg at harg
      split at harg
      · exact hargs v (List.mem_of_getElem? harg)
      · exact hd v harg
    dsimp only at h
    rw [hv] at h
    exact computes_setReg hr h

theorem State.computes_gettarg {ins : Instr} {keep' : Nat → Prop} {k pos : Nat} {tup : Int} (hr : ¬ keep r)
    (hs : s.Strong keep') (h : s.exec G ins = s.gettarg r k pos tup) :
    Computes G [ins] s keep r ((s.level k).evalTuparg pos tup s.world) := by
  unfold gettarg at h
  unfold Level.evalTuparg
  split at h
  · rename_i htup
    rw [if_pos htup]
    show run G [ins] s = _
    rw [run_singleton, h]
  · rename_i htup
    rw [if_neg htup]
    split
    · trivial
    · rename_i hfits
      rw [Nat.mod_eq_of_lt (Nat.lt_of_not_le hfits)] at h
      exact computes_getarg hr (hs.args k) (fun v hv => Level.tupargDefault_strong (hs.constants k) hv) h

theorem State.computes_indget {ins : Instr} {key : Value} (hr : ¬ keep r)
    (h : s.exec G ins = s.indget G r v key) :
    Computes G [ins] s keep r (Manip.evalIndex G v key s.world) := by
  unfold indget at h
  unfold Manip.evalIndex
  have hrun : run G [ins] s = s.exec G ins := run_singleton
  rw [h] at hrun
  cases hobj : v.obj? with
  | none =>
    rw [hobj] at hrun
    exact hrun
  | some o =>
    rw [hobj] at hrun
    dsimp only at hrun ⊢
    match hget : G.getindex o key s.world with
    | .ok (v, w) =>
      rw [hget] at hrun
      exact ⟨_, hrun, setReg_reg_self, rfl, agree_setReg hr⟩
    | .error .undetermined => trivial
    | .error (.thrown x w) =>
      rw [hget] at hrun
      exact hrun

/-- What `CAST` does with the value in its class register. -/
def State.castBy (G : Globals W) (v : Value) (p : Value × W) : Except (Stop W) (Value × W) :=
  match p.1 with
  | .classid cid => (Op.method (G.cast v cid)).value p.2
  | _ => .error (.thrown Xno.wrongType p.2)

theorem State.computes_cast {a b : Nat} (hr : ¬ keep r) :
    Computes G [.cast r a b] s keep r (castBy G (s.reg a) (s.reg b, s.world)) := by
  have hexec : s.exec G (.cast r a b) =
      match s.reg b with
      | .classid cid => s.result r (Op.method (G.cast (s.reg a) cid))
      | _ => .error (.thrown Xno.wrongType s.world) := rfl
  unfold castBy
  cases hreg : s.reg b with
  | classid cid =>
    rw [hreg] at hexec
    exact computes_result hr hexec
  | _ =>
    rw [hreg] at hexec
    show run G _ s = _
    rw [run_singleton, hexec]

namespace Manip

theorem directShort_eq {rv : Int} (h : m.directShort = some rv) :
    ∃ v, m = .constant (.integer v) ∧ BitVec.ofInt 32 rv = v := by
  unfold directShort at h
  split at h
  · rename_i v
    split at h
    · cases h
      exact ⟨v, rfl, BitVec.ofInt_toInt⟩
    · cases h
  · cases h

theorem directUint8_eq {iv : Nat} (h : m.directUint8 = some iv) :
    ∃ v, m = .constant (.integer v) ∧ BitVec.ofNat 32 iv = v := by
  unfold directUint8 at h
  split at h
  · rename_i v
    split at h
    · cases h
      exact ⟨v, rfl, BitVec.eq_of_toNat_eq (by simp)⟩
    · cases h
  · cases h

/-! ## Reading -/

/-- What code is made and run with. Its constants are in the table of the function. -/
structure Ready (U : Value → Prop) (s : State W) (m : Manip) (r : Nat) (cdr cdr' : CoderState) : Prop where
  target : r ∈ cdr.registers
  regs : ∀ q ∈ m.regs, q ∈ cdr.registers ∧ q ≠ r
  used : ∀ v ∈ m.constants, U v
  table : ∀ c ∈ cdr.constants, U c
  final : cdr'.constants <+: (s.level 0).constants
  strong : s.Strong (· ∈ m.regs)

/-- The registers in use other than the target. -/
def Kept (cdr : CoderState) (r : Nat) : Nat → Prop := fun q => q ∈ cdr.registers ∧ q ≠ r

/-- The code of a manipulator computes its value. -/
def Reads (G : Globals W) (same : ObjId → ObjId → Bool) (U : Value → Prop) (m : Manip) : Prop :=
  ∀ {r : Nat} {cdr cdr' : CoderState} {code : List Instr} {s : State W},
    m.code same false r cdr = .ok (code, cdr') → Ready U s m r cdr cdr' →
      Computes G code s (Kept cdr r) r (m.eval G s.level s.world)

theorem not_kept : ¬ Kept cdr r r := fun h => h.2 rfl

/-- Code that was made for an operand, before more code was made. -/
theorem Ready.first {cdr'' : CoderState} {m' : Manip} (h : Ready U s m' r cdr cdr'')
    (hregs : ∀ q ∈ m.regs, q ∈ m'.regs) (hconstants : ∀ v ∈ m.constants, v ∈ m'.constants)
    (hfinal : cdr'.constants <+: cdr''.constants) : Ready U s m r cdr cdr' where
  target := h.target
  regs q hq := h.regs q (hregs q hq)
  used v hv := h.used v (hconstants v hv)
  table := h.table
  final := hfinal.trans h.final
  strong := h.strong.mono hregs

/-- The code that follows it. -/
theorem Ready.second {cdr'' : CoderState} {m' : Manip} (h : Ready U s m' r cdr cdr'')
    (hplain : ∀ v, U v → v.Plain) (hm : CoderState.Extends (fun c => ∃ v ∈ m.constants, c = v.qcopy) cdr cdr')
    (hfirst : ∀ v ∈ m.constants, v ∈ m'.constants) (hregs : ∀ q ∈ right.regs, q ∈ m'.regs)
    (hconstants : ∀ v ∈ right.constants, v ∈ m'.constants) (ha : Agree (Kept cdr r) s s') :
    Ready U s' right r cdr' cdr'' where
  target := hm.registers ▸ h.target
  regs q hq := hm.registers ▸ h.regs q (hregs q hq)
  used v hv := h.used v (hconstants v hv)
  table c hc := by
    rcases hm.added c hc with hc | ⟨v, hv, rfl⟩
    · exact h.table c hc
    · have hv := h.used v (hfirst v hv)
      rw [(hplain v hv).qcopy]
      exact hv
  final := by
    rw [ha.constants 0]
    exact h.final
  strong := (h.strong.mono hregs).of_agree (ha.mono fun q hq => h.regs q (hregs q hq))

/-- What matters are the registers and the constants of a manipulator. -/
theorem Ready.of_eq {m' : Manip} (h : Ready U s m r cdr cdr') (hregs : m'.regs = m.regs)
    (hconstants : m'.constants = m.constants) : Ready U s m' r cdr cdr' :=
  h.first (fun _ hq => hregs ▸ hq) (fun _ hv => hconstants ▸ hv) List.prefix_rfl

theorem Reads.operandIn (hm : Reads G same U m)
    (h : Manip.operandIn m r cdr (m.code same false r) = .ok ((code, q), cdr'))
    (hready : Ready U s m r cdr cdr') :
    Computes G code s (Kept cdr r) q (m.eval G s.level s.world) ∧ q ∈ cdr.registers := by
  rcases operandIn_ok h with ⟨hdirect, rfl, rfl⟩ | ⟨-, rfl, h⟩
  · rw [hdirect.eval]
    exact ⟨computes_nil, (hready.regs q hdirect.mem_regs).1⟩
  · exact ⟨hm h hready, hready.target⟩

/-- An operand is computed in a temporary register, and an instruction uses it. -/
theorem Reads.temporary {ins : Instr} {f : Value × W → Except (Stop W) (Value × W)} (hm : Reads G same U m)
    (h : m.code same false cdr.alloc (cdr.use cdr.alloc) = .ok (code, cdr'))
    (hready : Ready U s m r cdr (cdr'.free cdr.alloc))
    (hins : ∀ s', Agree (· ∈ cdr.registers) s s' →
      Computes G [ins] s' (Kept cdr r) r (f (s'.reg cdr.alloc, s'.world))) :
    Computes G (code ++ [ins]) s (Kept cdr r) r (m.eval G s.level s.world >>= f) := by
  have hfree := cdr.alloc_not_mem
  have hkept : ∀ q ∈ cdr.registers, Kept (cdr.use cdr.alloc) cdr.alloc q :=
    fun q hq => ⟨List.mem_cons_of_mem _ hq, fun heq => hfree (heq ▸ hq)⟩
  have htemp : Ready U s m cdr.alloc (cdr.use cdr.alloc) cdr' :=
    ⟨List.mem_cons_self, fun q hq => hkept q (hready.regs q hq).1, hready.used, hready.table,
      hready.final, hready.strong⟩
  exact (hm h htemp).bind (fun q hq => hkept q hq.1) fun s' ha => hins s' (ha.mono hkept)

theorem Reads.second {lr : Nat} (hm : Reads G same U right)
    (h : Second same false right op r lr cdr code cdr') (hready : Ready U s right r cdr cdr')
    (hlr : lr ∈ cdr.registers) :
    Computes G code s (Kept cdr r) r
      (right.eval G s.level s.world >>= fun p => (G.operate (s.reg lr) op p.1).value p.2) := by
  cases h with
  | direct hdirect =>
    rw [hdirect.eval]
    exact computes_result not_kept rfl
  | short hshort =>
    obtain ⟨v, rfl, hv⟩ := directShort_eq hshort
    subst hv
    exact computes_result not_kept rfl
  | statvar hstat =>
    subst hstat
    exact computes_result not_kept rfl
  | temporary hcode =>
    refine hm.temporary hcode hready fun s' ha => ?_
    have hreg : s'.reg lr = s.reg lr := ha.regs 0 lr (.inr hlr)
    rw [← hreg]
    exact computes_result not_kept rfl

theorem Reads.fetches {get : Nat → Instr} {geti : Nat → Option Instr}
    {f : Value × W → Except (Stop W) (Value × W)} (hm : Reads G same U im)
    (h : Fetches same im get geti cdr code cdr') (hready : Ready U s im r cdr cdr')
    (hget : ∀ s' ir, Agree (· ∈ cdr.registers) s s' →
      Computes G [get ir] s' (Kept cdr r) r (f (s'.reg ir, s'.world)))
    (hgeti : ∀ iv ins, geti iv = some ins →
      Computes G [ins] s (Kept cdr r) r (f (.integer (BitVec.ofNat 32 iv), s.world))) :
    Computes G code s (Kept cdr r) r (im.eval G s.level s.world >>= f) := by
  cases h with
  | direct hdirect =>
    rw [hdirect.eval]
    exact hget s _ .refl
  | uint8 huint8 hins =>
    obtain ⟨v, rfl, hv⟩ := directUint8_eq huint8
    subst hv
    exact hgeti _ _ hins
  | temporary hcode => exact hm.temporary hcode hready fun s' ha => hget s' _ ha

theorem OwnTuples.operand (h : (Manip.unop op right).OwnTuples) : right.OwnTuples := by
  by_cases hsize : ∃ k a, op = .sizeof ∧ right = .tuparg k a
  · obtain ⟨k, a, rfl, rfl⟩ := hsize
    trivial
  · rw [OwnTuples] at h
    · exact h
    · exact fun k a hop hright => hsize ⟨k, a, hop, hright⟩

theorem Reads.unop (ih : Reads G same U right) (hown : (Manip.unop op right).OwnTuples) :
    Reads G same U (.unop op right) := by
  intro r cdr cdr' code s h hready
  rcases code_unop h with ⟨k, a, rfl, rfl, rfl, rfl⟩ | ⟨ins, code₁, rr, hins, hoperand, rfl⟩
  · obtain rfl : k = 0 := hown
    show Computes G _ s _ r ((s.level 0).countTuples s.world)
    unfold Level.countTuples
    by_cases htup : (s.level 0).fn.tupargs = 0
    · rw [if_pos htup]
      trivial
    · rw [if_neg htup]
      refine computes_setReg not_kept ?_
      show (if (s.level 0).fn.tupargs = 0 then _ else _) = _
      rw [if_neg htup]
  · have hright : ∀ k a, op = .sizeof → right ≠ .tuparg k a := by
      rintro k a - rfl
      rcases operandIn_ok hoperand with ⟨hdirect, -⟩ | ⟨-, -, h⟩
      · cases hdirect
      · cases h
    rw [eval_unop hright]
    have hoperand := ih.operandIn hoperand
      (hready.first (fun _ => id) (fun _ => id) List.prefix_rfl)
    refine hoperand.1.bind (fun _ => id) fun s' ha => ?_
    exact computes_result not_kept (exec_unary hins)

theorem Reads.binop (ihl : Reads G same U left) (ihr : Reads G same U right) (hplain : ∀ v, U v → v.Plain) :
    Reads G same U (.binop left op right) := by
  intro r cdr cdr' code s h hready
  obtain ⟨-, code₁, lr, cdr₁, code₂, hoperand, hsecond, rfl⟩ := code_binop h
  have hextends := Extending.operandIn (extending left) hoperand
  have hextends' := Extending.second (extending right) hsecond
  have hleft := ihl.operandIn hoperand (hready.first (fun _ => List.mem_append_left _)
    (fun _ => List.mem_append_left _) hextends'.constants)
  refine hleft.1.bind (fun _ => id) fun s' ha => ?_
  have hready' : Ready U s' right r cdr₁ cdr' := hready.second hplain hextends (fun _ => List.mem_append_left _)
    (fun _ => List.mem_append_right _) (fun _ => List.mem_append_right _) ha
  have hkept : Kept cdr r = Kept cdr₁ r := by
    unfold Kept
    rw [hextends.registers]
  have hregs : ∀ q ∈ right.regs, Kept cdr r q := fun q hq => hready.regs q (List.mem_append_right _ hq)
  have hright := ihr.second hsecond hready' (hextends.registers ▸ hleft.2)
  rw [eval_congr ha hregs, ← hkept] at hright
  exact hright

theorem Reads.cast {classid : BitVec 32} (ih : Reads G same U object) (hU : Distinct same U) :
    Reads G same U (.cast object classid) := by
  intro r cdr cdr' code s h hready
  obtain ⟨code₁, dr, cdr₁, code₂, hoperand, hcasts, rfl⟩ := code_cast h
  have hextends := Extending.operandIn (extending object) hoperand
  have hobject := ih.operandIn hoperand (hready.first (fun _ => id) (fun _ => List.mem_cons_of_mem _)
    hcasts.extends.constants)
  refine hobject.1.bind (fun _ => id) fun s' ha => ?_
  show Computes G code₂ s' _ r ((castTo G classid (s'.reg dr)).value s'.world)
  unfold castTo
  cases hcasts with
  | own hop hins =>
    rw [hop]
    exact computes_result not_kept (exec_unary hins)
  | general hnone =>
    rw [hnone]
    have hclass := hready.used (.classid classid) List.mem_cons_self
    have hready' : Ready U s' (.constant (.classid classid)) r cdr₁ _ :=
      hready.second hU.plain hextends (fun _ => List.mem_cons_of_mem _) (fun _ => by simp [Manip.regs])
        (fun v hv => by rw [List.mem_singleton.mp hv]; exact List.mem_cons_self) ha
    have hget : (s'.level 0).constants[((cdr₁.use cdr₁.alloc).addConstant same (.classid classid)).1]? =
        some (.classid classid) := CoderState.constant_addConstant hU hclass hready'.table hready'.final
    have hfree := cdr₁.alloc_not_mem
    rw [hextends.registers] at hfree
    have hload : Computes G [.ldc cdr₁.alloc ((cdr₁.use cdr₁.alloc).addConstant same (.classid classid)).1] s'
        (· ∈ cdr.registers) cdr₁.alloc (.ok (.classid classid, s'.world)) := by
      refine computes_setReg hfree ?_
      show Except.ok (s'.setReg 0 _ (Level.constant _ _).qcopy) = _
      rw [Level.constant, hget]
      rfl
    have hcast : ∀ s'', Agree (· ∈ cdr.registers) s' s'' →
        Computes G [.cast r dr cdr₁.alloc] s'' (Kept cdr r) r
          (castBy G (s'.reg dr) (s''.reg cdr₁.alloc, s''.world)) := fun s'' ha' => by
      have hdr : s''.reg dr = s'.reg dr := ha'.regs 0 dr (.inr hobject.2)
      rw [← hdr]
      exact computes_cast not_kept
    exact hload.bind (fun _ hq => hq.1) hcast

theorem Reads.index (ihom : Reads G same U om) (ihim : Reads G same U im) (hplain : ∀ v, U v → v.Plain) :
    Reads G same U (.index om im) := by
  intro r cdr cdr' code s h hready
  by_cases hom : ∃ k a, om = .tuparg k a
  · obtain ⟨k, a, rfl⟩ := hom
    have hready' : Ready U s im r cdr cdr' := hready.first (fun _ => List.mem_append_right _)
      (fun _ => List.mem_append_right _) List.prefix_rfl
    refine ihim.fetches (code_tuparg h) hready' (fun s' ir ha => ?_) fun iv ins hins => nomatch hins
    have hs := hready'.strong.of_agree (ha.mono fun q hq => (hready'.regs q hq).1)
    show Computes G _ s' _ r ((s.level k).evalTuparg a (G.real.indexval (s'.reg ir)) s'.world)
    rw [← ha.evalTuparg]
    by_cases hk : k = 0
    · subst hk
      exact computes_gettarg not_kept hs rfl
    · have hget : getTuparg r k a ir = .getuvtargi r a ir k := if_pos hk
      rw [hget]
      exact computes_gettarg not_kept hs rfl
  · have hom : ∀ k a, om ≠ .tuparg k a := fun k a heq => hom ⟨k, a, heq⟩
    obtain ⟨code₁, or, cdr₁, code₂, hoperand, hfetches, rfl⟩ := code_index hom h
    have hextends := Extending.operandIn (extending om) hoperand
    have hextends' := Extending.fetches (extending im) hfetches
    have hobject := ihom.operandIn hoperand (hready.first (fun _ => List.mem_append_left _)
      (fun _ => List.mem_append_left _) hextends'.constants)
    rw [eval_index hom]
    refine hobject.1.bind (fun _ => id) fun s' ha => ?_
    have hready' : Ready U s' im r cdr₁ cdr' := hready.second hplain hextends (fun _ => List.mem_append_left _)
      (fun _ => List.mem_append_right _) (fun _ => List.mem_append_right _) ha
    have hkept : Kept cdr r = Kept cdr₁ r := by
      unfold Kept
      rw [hextends.registers]
    have hregs : ∀ q ∈ im.regs, Kept cdr r q := fun q hq => hready.regs q (List.mem_append_right _ hq)
    have hor : or ∈ cdr₁.registers := hextends.registers ▸ hobject.2
    have him := ihim.fetches (f := fun i => evalIndex G (s'.reg or) i.1 i.2) hfetches hready'
      (fun s'' ir ha' => by
        have hreg : s''.reg or = s'.reg or := ha'.regs 0 or (.inr hor)
        rw [← hreg]
        exact computes_indget not_kept rfl)
      fun iv ins hins => by
        cases hins
        exact computes_indget not_kept rfl
    rw [eval_congr ha hregs, ← hkept] at him
    exact him

end Manip

/-- A world where there is nothing: no object has a metamethod, and every static variable is nil. -/
def Globals.bare : Globals Unit where
  toMeta := Classes.bare.operators
  getindex _ _ w := .error (.thrown Xno.notImplemented w)
  setindex _ _ _ w := .error (.thrown Xno.notImplemented w)
  static _ _ := .nil
  setStatic _ _ w := w

namespace Manip

end Manip

end Eel
