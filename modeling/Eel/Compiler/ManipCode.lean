-- SUMMARY: What the code of a manipulator consists of, and what making it leaves of the coder.
import Eel.Compiler.Manip
import Mathlib.Data.List.Perm.Subperm

/-!
# The code of manipulators

One lemma for each kind of manipulator with operands says what its code consists of.
-/

namespace Eel

theorem Except.bind_ok {ε α β : Type} {x : Except ε α} {f : α → Except ε β} {b : β} :
    x >>= f = .ok b ↔ ∃ a, x = .ok a ∧ f a = .ok b := by
  cases x with
  | error e =>
    constructor
    · intro h
      cases h
    · rintro ⟨a, h, -⟩
      cases h
  | ok a =>
    constructor
    · intro h
      exact ⟨a, rfl, h⟩
    · rintro ⟨a', h, hf⟩
      cases h
      exact hf

/-! ## Registers and constants -/

namespace CoderState

variable {cdr cdr' cdr'' : CoderState} {r : Nat} {v : Value} {U : Value → Prop} {same : ObjId → ObjId → Bool}
  {code : List Instr}

/-- There is a free register below any number of registers and one more. -/
theorem exists_free (l : List Nat) : ∃ r ∈ List.range (l.length + 1), r ∉ l := by
  by_contra hno
  push Not at hno
  have hsub : List.range (l.length + 1) ⊆ l := fun r hr => hno r hr
  have hlen := (List.nodup_range.subperm hsub).length_le
  rw [List.length_range] at hlen
  omega

theorem alloc_not_mem : cdr.alloc ∉ cdr.registers := by
  unfold alloc
  obtain ⟨r, hr, hfree⟩ := exists_free cdr.registers
  cases hfind : (List.range (cdr.registers.length + 1)).find? (· ∉ cdr.registers) with
  | none =>
    have hno := List.find?_eq_none.mp hfind r hr
    exact absurd (decide_eq_true hfree) hno
  | some q =>
    have hq := List.find?_some hfind
    exact of_decide_eq_true hq

/-- What making code does to the coder: constants of `U` are added to the table. -/
structure Extends (U : Value → Prop) (cdr cdr' : CoderState) : Prop where
  registers : cdr'.registers = cdr.registers
  inits : cdr'.inits = cdr.inits
  constants : cdr.constants <+: cdr'.constants
  added : ∀ c ∈ cdr'.constants, c ∈ cdr.constants ∨ U c

theorem Extends.refl : Extends U cdr cdr := ⟨rfl, rfl, List.prefix_rfl, fun _ => .inl⟩

theorem Extends.trans (h : Extends U cdr cdr') (h' : Extends U cdr' cdr'') : Extends U cdr cdr'' where
  registers := h'.registers.trans h.registers
  inits := h'.inits.trans h.inits
  constants := h.constants.trans h'.constants
  added c hc := (h'.added c hc).elim (h.added c) .inr

theorem Extends.mono {V : Value → Prop} (h : Extends U cdr cdr') (hUV : ∀ c, U c → V c) :
    Extends V cdr cdr' :=
  ⟨h.registers, h.inits, h.constants, fun c hc => (h.added c hc).imp_right (hUV c)⟩

theorem extends_addConstant : Extends (· = v.qcopy) cdr (cdr.addConstant same v).2 := by
  unfold addConstant
  split
  · exact .refl
  · refine ⟨rfl, rfl, List.prefix_append _ _, fun c hc => ?_⟩
    rcases List.mem_append.mp hc with hc | hc
    · exact .inl hc
    · exact .inr (List.mem_singleton.mp hc)

theorem extends_readConstant : Extends (· = v.qcopy) cdr (cdr.readConstant same v r).2 := by
  unfold readConstant
  dsimp only
  split
  · exact .refl
  · exact .refl
  · split
    · exact .refl
    · exact extends_addConstant
  · exact extends_addConstant

/-- A register that was taken is given back. -/
theorem Extends.free (h : Extends U (cdr.use r) cdr') : Extends U cdr (cdr'.free r) where
  registers := by
    show cdr'.registers.erase r = cdr.registers
    rw [h.registers]
    exact List.erase_cons_head ..
  inits := h.inits
  constants := h.constants
  added := h.added

end CoderState

namespace Manip

variable {same : ObjId → ObjId → Bool} {m left right om im object : Manip} {r q : Nat} {cdr cdr' : CoderState}
  {code : List Instr} {ip : Bool} {op : Operator}

/-! ## Operands -/

/-- The registers that instructions read in place. -/
def regs : Manip → List Nat
  | .result q | .register q => [q]
  | .«variable» level q => if level = 0 then [q] else []
  | .unop _ right => right.regs
  | .binop left _ right => left.regs ++ right.regs
  | .cast object _ => object.regs
  | .index om im => om.regs ++ im.regs
  | _ => []

/-- The constants that may have to be in the table. -/
def constants : Manip → List Value
  | .constant v => [v]
  | .unop _ right => right.constants
  | .binop left _ right => left.constants ++ right.constants
  | .cast object classid => .classid classid :: object.constants
  | .index om im => om.constants ++ im.constants
  | _ => []

/-- An operand that is read in place is in a register. -/
inductive Direct : Manip → Nat → Prop where
  | result {q : Nat} : Direct (.result q) q
  | register {q : Nat} : Direct (.register q) q
  | var {q : Nat} : Direct (.«variable» 0 q) q

theorem direct_of_directRead (h : m.directRead cdr = .ok (some q)) : Direct m q := by
  cases m with
  | result reg =>
    cases h
    exact .result
  | register reg =>
    cases h
    exact .register
  | «variable» level v =>
    by_cases hl : level = 0
    · subst hl
      obtain ⟨_, -, h⟩ := Except.bind_ok.mp h
      cases h
      exact .var
    · simp [directRead, hl] at h
      cases h
  | _ => cases h

theorem Direct.mem_regs (h : Direct m q) : q ∈ m.regs := by
  cases h <;> simp [regs]

theorem operandIn_ok {f : CoderState → Code} (h : operandIn m r cdr f = .ok ((code, q), cdr')) :
    (Direct m q ∧ code = [] ∧ cdr' = cdr) ∨
      (m.directRead cdr = .ok none ∧ q = r ∧ f cdr = .ok (code, cdr')) := by
  obtain ⟨direct, hdirect, h⟩ := Except.bind_ok.mp h
  cases direct with
  | some q' =>
    cases h
    exact .inl ⟨direct_of_directRead hdirect, rfl, rfl⟩
  | none =>
    obtain ⟨⟨code', cdr''⟩, hf, h⟩ := Except.bind_ok.mp h
    cases h
    exact .inr ⟨hdirect, rfl, hf⟩

theorem inTemporary_ok {f : Nat → CoderState → Code} (h : inTemporary cdr f = .ok ((code, q), cdr')) :
    q = cdr.alloc ∧ ∃ cdr'', f q (cdr.use q) = .ok (code, cdr'') ∧ cdr' = cdr''.free q := by
  obtain ⟨⟨code', cdr''⟩, hf, h⟩ := Except.bind_ok.mp h
  cases h
  exact ⟨rfl, cdr'', hf, rfl⟩

/-! ## Kinds -/

theorem code_unop (h : (Manip.unop op right).code same ip r cdr = .ok (code, cdr')) :
    (∃ level arg, op = .sizeof ∧ right = .tuparg level arg ∧ code = [.tupc r] ∧ cdr' = cdr) ∨
      ∃ ins code₁ rr, op.unary? = some ins ∧
        operandIn right r cdr (right.code same false r) = .ok ((code₁, rr), cdr') ∧
        code = code₁ ++ [ins r rr] := by
  unfold Manip.code at h
  split at h
  · cases h
    exact .inl ⟨_, _, rfl, rfl, rfl, rfl⟩
  · cases h
  · rename_i ins _ hins
    obtain ⟨⟨⟨code₁, rr⟩, cdr₁⟩, hoperand, h⟩ := Except.bind_ok.mp h
    cases h
    exact .inr ⟨ins, code₁, rr, hins, hoperand, rfl⟩

/-- How the right operand of a binary operator gets into its instruction. -/
inductive Second (same : ObjId → ObjId → Bool) (ip : Bool) (right : Manip) (op : Operator) (r lr : Nat)
    (cdr : CoderState) : List Instr → CoderState → Prop where
  | direct {rr : Nat} (h : Direct right rr) :
      Second same ip right op r lr cdr [if ip then .ipbop r lr op rr else .bop r lr op rr] cdr
  | short {rv : Int} (h : right.directShort = some rv) :
      Second same ip right op r lr cdr [if ip then .ipbopi r lr op rv else .bopi r lr op rv] cdr
  | statvar {i : Nat} (h : right = .statvar i) :
      Second same ip right op r lr cdr [if ip then .ipbops r lr op i else .bops r lr op i] cdr
  | temporary {code : List Instr} {cdr' : CoderState}
      (h : right.code same false cdr.alloc (cdr.use cdr.alloc) = .ok (code, cdr')) :
      Second same ip right op r lr cdr
        (code ++ [if ip then .ipbop r lr op cdr.alloc else .bop r lr op cdr.alloc]) (cdr'.free cdr.alloc)

theorem code_binop (h : (Manip.binop left op right).code same ip r cdr = .ok (code, cdr')) :
    op.isBinary ∧ ∃ code₁ lr cdr₁ code₂,
      operandIn left r cdr (left.code same false r) = .ok ((code₁, lr), cdr₁) ∧
        Second same ip right op r lr cdr₁ code₂ cdr' ∧ code = code₁ ++ code₂ := by
  unfold Manip.code at h
  split at h
  · cases h
  · rename_i hop
    refine ⟨by simpa using hop, ?_⟩
    obtain ⟨⟨⟨code₁, lr⟩, cdr₁⟩, hoperand, h⟩ := Except.bind_ok.mp h
    refine ⟨code₁, lr, cdr₁, ?_⟩
    obtain ⟨direct, hdirect, h⟩ := Except.bind_ok.mp h
    cases direct with
    | some rr =>
      cases h
      exact ⟨_, hoperand, .direct (direct_of_directRead hdirect), rfl⟩
    | none =>
      dsimp only at h
      split at h
      · rename_i rv hshort
        cases h
        exact ⟨_, hoperand, .short hshort, rfl⟩
      · cases h
        exact ⟨_, hoperand, .statvar rfl, rfl⟩
      · obtain ⟨⟨⟨code', rr⟩, cdr₂⟩, htemp, h⟩ := Except.bind_ok.mp h
        obtain ⟨rfl, cdr₃, hright, rfl⟩ := inTemporary_ok htemp
        cases h
        exact ⟨_, hoperand, .temporary hright, List.append_assoc ..⟩

/-- The classes with a cast instruction of their own. -/
def castOperator? (classid : BitVec 32) : Option Operator :=
  if classid = 1 then some .castr else if classid = 2 then some .casti
  else if classid = 3 then some .castb else none

/-- How an operand is cast. -/
inductive Casts (same : ObjId → ObjId → Bool) (classid : BitVec 32) (r dr : Nat) (cdr : CoderState) :
    List Instr → CoderState → Prop where
  | own {op : Operator} {ins : Nat → Nat → Instr} (h : castOperator? classid = some op)
      (hins : op.unary? = some ins) : Casts same classid r dr cdr [ins r dr] cdr
  | general (h : castOperator? classid = none) :
      Casts same classid r dr cdr
        [.ldc cdr.alloc ((cdr.use cdr.alloc).addConstant same (.classid classid)).1,
          .cast r dr cdr.alloc]
        (((cdr.use cdr.alloc).addConstant same (.classid classid)).2.free cdr.alloc)

theorem code_cast {classid : BitVec 32}
    (h : (Manip.cast object classid).code same ip r cdr = .ok (code, cdr')) :
    ∃ code₁ dr cdr₁ code₂,
      operandIn object r cdr (object.code same false r) = .ok ((code₁, dr), cdr₁) ∧
        Casts same classid r dr cdr₁ code₂ cdr' ∧ code = code₁ ++ code₂ := by
  unfold Manip.code at h
  obtain ⟨⟨⟨code₁, dr⟩, cdr₁⟩, hoperand, h⟩ := Except.bind_ok.mp h
  refine ⟨code₁, dr, cdr₁, ?_⟩
  dsimp only at h
  split at h
  · cases h
    exact ⟨_, hoperand, @Casts.own _ _ _ _ _ .castr _ (by decide) rfl, rfl⟩
  · cases h
    exact ⟨_, hoperand, @Casts.own _ _ _ _ _ .casti _ (by decide) rfl, rfl⟩
  · cases h
    exact ⟨_, hoperand, @Casts.own _ _ _ _ _ .castb _ (by decide) rfl, rfl⟩
  · rename_i h1 h2 h3
    obtain ⟨⟨⟨code', cr⟩, cdr₂⟩, htemp, h⟩ := Except.bind_ok.mp h
    obtain ⟨rfl, cdr₃, hadd, rfl⟩ := inTemporary_ok htemp
    cases hadd
    cases h
    have hnone : castOperator? classid = none := by
      have h1 : ¬ classid = 1 := h1
      have h2 : ¬ classid = 2 := h2
      have h3 : ¬ classid = 3 := h3
      unfold castOperator?
      rw [if_neg h1, if_neg h2, if_neg h3]
    exact ⟨_, hoperand, .general hnone, List.append_assoc ..⟩

/-- How an index, which is no tuple argument's, is read. -/
inductive Fetches (same : ObjId → ObjId → Bool) (im : Manip) (get : Nat → Instr) (geti : Nat → Option Instr)
    (cdr : CoderState) : List Instr → CoderState → Prop where
  | direct {ir : Nat} (h : Direct im ir) : Fetches same im get geti cdr [get ir] cdr
  | uint8 {iv : Nat} {ins : Instr} (h : im.directUint8 = some iv) (hins : geti iv = some ins) :
      Fetches same im get geti cdr [ins] cdr
  | temporary {code : List Instr} {cdr' : CoderState}
      (h : im.code same false cdr.alloc (cdr.use cdr.alloc) = .ok (code, cdr')) :
      Fetches same im get geti cdr (code ++ [get cdr.alloc]) (cdr'.free cdr.alloc)

/-- The instruction that reads a tuple argument. -/
def getTuparg (r level arg ir : Nat) : Instr :=
  if level ≠ 0 then .getuvtargi r arg ir level else .gettargi r arg ir

theorem code_tuparg {level arg : Nat}
    (h : (Manip.index (.tuparg level arg) im).code same ip r cdr = .ok (code, cdr')) :
    Fetches same im (getTuparg r level arg) (fun _ => none) cdr code cdr' := by
  unfold Manip.code at h
  dsimp only at h
  obtain ⟨direct, hdirect, h⟩ := Except.bind_ok.mp h
  cases direct with
  | some ir =>
    cases h
    exact .direct (direct_of_directRead hdirect)
  | none =>
    obtain ⟨⟨⟨code', ir⟩, cdr₂⟩, htemp, h⟩ := Except.bind_ok.mp h
    obtain ⟨rfl, cdr₃, him, rfl⟩ := inTemporary_ok htemp
    cases h
    exact .temporary him

theorem code_index (hom : ∀ level arg, om ≠ .tuparg level arg)
    (h : (Manip.index om im).code same ip r cdr = .ok (code, cdr')) :
    ∃ code₁ or cdr₁ code₂,
      operandIn om r cdr (om.code same false r) = .ok ((code₁, or), cdr₁) ∧
        Fetches same im (fun ir => .indget r ir or) (fun iv => some (.indgeti r iv or)) cdr₁ code₂ cdr' ∧
        code = code₁ ++ code₂ := by
  rw [Manip.code] at h
  · obtain ⟨⟨⟨code₁, or⟩, cdr₁⟩, hoperand, h⟩ := Except.bind_ok.mp h
    refine ⟨code₁, or, cdr₁, ?_⟩
    obtain ⟨direct, hdirect, h⟩ := Except.bind_ok.mp h
    cases direct with
    | some ir =>
      cases h
      exact ⟨_, hoperand, .direct (direct_of_directRead hdirect), rfl⟩
    | none =>
      dsimp only at h
      split at h
      · rename_i iv hiv
        cases h
        exact ⟨_, hoperand, .uint8 hiv rfl, rfl⟩
      · obtain ⟨⟨⟨code', ir⟩, cdr₂⟩, htemp, h⟩ := Except.bind_ok.mp h
        obtain ⟨rfl, cdr₃, him, rfl⟩ := inTemporary_ok htemp
        cases h
        exact ⟨_, hoperand, .temporary him, List.append_assoc ..⟩
  · exact hom

/-! ## The coder -/

section Extends

variable {U : Value → Prop}

/-- Making the code of `m` extends the coder. -/
def Extending (same : ObjId → ObjId → Bool) (m : Manip) : Prop :=
  ∀ {ip : Bool} {r : Nat} {cdr cdr' : CoderState} {code : List Instr}, m.code same ip r cdr = .ok (code, cdr') →
    CoderState.Extends (fun c => ∃ v ∈ m.constants, c = v.qcopy) cdr cdr'

theorem Extending.operandIn (hm : Extending same m)
    (h : Manip.operandIn m r cdr (m.code same false r) = .ok ((code, q), cdr')) :
    CoderState.Extends (fun c => ∃ v ∈ m.constants, c = v.qcopy) cdr cdr' := by
  rcases operandIn_ok h with ⟨-, -, rfl⟩ | ⟨-, -, h⟩
  · exact .refl
  · exact hm h

theorem Extending.second {lr : Nat} (hm : Extending same right)
    (h : Second same ip right op r lr cdr code cdr') :
    CoderState.Extends (fun c => ∃ v ∈ right.constants, c = v.qcopy) cdr cdr' := by
  cases h with
  | direct _ => exact .refl
  | short _ => exact .refl
  | statvar _ => exact .refl
  | temporary h => exact (hm h).free

theorem Extending.fetches {get : Nat → Instr} {geti : Nat → Option Instr} (hm : Extending same im)
    (h : Fetches same im get geti cdr code cdr') :
    CoderState.Extends (fun c => ∃ v ∈ im.constants, c = v.qcopy) cdr cdr' := by
  cases h with
  | direct _ => exact .refl
  | uint8 _ _ => exact .refl
  | temporary h => exact (hm h).free

theorem Casts.extends {classid : BitVec 32} {dr : Nat} (h : Casts same classid r dr cdr code cdr') :
    CoderState.Extends (fun c => c = .classid classid) cdr cdr' := by
  cases h with
  | own _ _ => exact .refl
  | general _ =>
    have hadd := @CoderState.extends_addConstant (cdr.use cdr.alloc) (.classid classid) same
    exact hadd.free

/-- Code is made with registers that are free again, and adds the constants it needs. -/
theorem extending (m : Manip) : Extending same m := by
  induction m with
  | void | args | tupargs | tuparg =>
    intro ip r cdr cdr' code h
    cases h
  | constant v =>
    intro ip r cdr cdr' code h
    obtain rfl := congrArg Prod.snd (Except.ok.inj h)
    exact CoderState.extends_readConstant.mono fun c hc => ⟨v, List.mem_singleton_self v, hc⟩
  | result | register | statvar | argument | optarg =>
    intro ip r cdr cdr' code h
    cases h
    exact .refl
  | «variable» level v =>
    intro ip r cdr cdr' code h
    unfold Manip.code at h
    split at h
    · cases h
      exact .refl
    · obtain ⟨_, -, h⟩ := Except.bind_ok.mp h
      cases h
      exact .refl
  | unop op right ih =>
    intro ip r cdr cdr' code h
    rcases code_unop h with ⟨_, _, -, -, -, rfl⟩ | ⟨ins, code₁, rr, -, hoperand, -⟩
    · exact .refl
    · have hright := Extending.operandIn ih hoperand
      exact hright
  | binop left op right ihl ihr =>
    intro ip r cdr cdr' code h
    obtain ⟨-, code₁, lr, cdr₁, code₂, hoperand, hsecond, -⟩ := code_binop h
    have hleft := (Extending.operandIn ihl hoperand).mono fun c ⟨v, hv, hc⟩ =>
      (⟨v, List.mem_append_left _ hv, hc⟩ : ∃ v ∈ left.constants ++ right.constants, c = v.qcopy)
    exact hleft.trans ((Extending.second ihr hsecond).mono fun c ⟨v, hv, hc⟩ =>
      ⟨v, List.mem_append_right _ hv, hc⟩)
  | cast object classid ih =>
    intro ip r cdr cdr' code h
    obtain ⟨code₁, dr, cdr₁, code₂, hoperand, hcasts, -⟩ := code_cast h
    have hobject := (Extending.operandIn ih hoperand).mono fun c ⟨v, hv, hc⟩ =>
      (⟨v, List.mem_cons_of_mem _ hv, hc⟩ :
        ∃ v ∈ Value.classid classid :: object.constants, c = v.qcopy)
    exact hobject.trans (hcasts.extends.mono fun c hc => ⟨_, List.mem_cons_self, hc⟩)
  | index om im ihom ihim =>
    intro ip r cdr cdr' code h
    by_cases hom : ∃ level arg, om = .tuparg level arg
    · obtain ⟨level, arg, rfl⟩ := hom
      exact (Extending.fetches ihim (code_tuparg h)).mono fun c ⟨v, hv, hc⟩ =>
        ⟨v, List.mem_append_right _ hv, hc⟩
    · have hom : ∀ level arg, om ≠ .tuparg level arg := fun level arg heq => hom ⟨level, arg, heq⟩
      obtain ⟨code₁, or, cdr₁, code₂, hoperand, hfetches, -⟩ := code_index hom h
      have hobject := (Extending.operandIn ihom hoperand).mono fun c ⟨v, hv, hc⟩ =>
        (⟨v, List.mem_append_left _ hv, hc⟩ : ∃ v ∈ om.constants ++ im.constants, c = v.qcopy)
      exact hobject.trans ((Extending.fetches ihim hfetches).mono fun c ⟨v, hv, hc⟩ =>
        ⟨v, List.mem_append_right _ hv, hc⟩)

end Extends

end Manip

end Eel
