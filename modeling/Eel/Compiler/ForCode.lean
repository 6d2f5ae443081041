-- SUMMARY: Where the instructions and the jumps of a `for` statement are in its code.
import Eel.Compiler.ForStat
import Eel.Compiler.ManipCode

/-!
# Layout of for statements

An instruction that is in the code stays there when other bytes are written. A branch that
is set has the distance to its target from where it ends.
-/

namespace Eel

open Code

/-! ## Instructions in code -/

/-- There is an instruction at `pos`. -/
structure Code.IsAt (code : List Byte) (pos : Nat) (op : Opcode) (args : List Int) : Prop where
  fetch : fetchCode code pos = some (op, args, pos + op.iSize)
  inside : pos + op.iSize ≤ code.length

namespace Code

variable {code code' : List Byte} {pos : Nat} {op : Opcode} {args : List Int} {t : Int}

theorem opr_congr {ins ins' : Nat → Byte} {l : Layout} (h : ∀ i < l.osize, ins i = ins' i) :
    opr ins l = opr ins' l := by
  cases l <;> simp (disch := decide) only [opr, o8, o16, os16, h]

theorem IsAt.agree (h : IsAt code pos op args)
    (hag : ∀ i, pos ≤ i → i < pos + op.iSize → code'[i]? = code[i]?) (hlen : pos + op.iSize ≤ code'.length) :
    IsAt code' pos op args := by
  have hins : ∀ i < op.iSize, (code'[pos + i]?).getD 0 = (code[pos + i]?).getD 0 := by
    intro i hi
    rw [hag (pos + i) (Nat.le_add_right pos i) (Nat.add_lt_add_left hi pos)]
  have hfetch := h.fetch
  obtain ⟨op', hop, heq⟩ := Option.map_eq_some_iff.mp hfetch
  obtain ⟨rfl, hargs⟩ := Prod.mk.inj heq
  have h0 : 0 < op'.iSize := by
    cases op' <;> decide
  refine ⟨?_, hlen⟩
  rw [← hfetch]
  unfold fetchCode
  simp only [hins 0 h0, hop, Option.map_some]
  rw [opr_congr hins]

theorem IsAt.append {rest : List Byte} (h : IsAt code pos op args) :
    IsAt (code ++ rest) pos op args := by
  refine h.agree (fun i _ hi => List.getElem?_append_left (Nat.lt_of_lt_of_le hi h.inside)) ?_
  rw [List.length_append]
  exact Nat.le_add_right_of_le h.inside

theorem IsAt.extend (h : IsAt code pos op args) (hcode : code <+: code') : IsAt code' pos op args := by
  obtain ⟨rest, rfl⟩ := hcode
  exact h.append

theorem IsAt.opcode (h : IsAt code pos op args) : Opcode.ofByte (ins code pos 0) = some op := by
  obtain ⟨op', hop, heq⟩ := Option.map_eq_some_iff.mp h.fetch
  rw [← (Prod.mk.inj heq).1]
  exact hop

theorem IsAt.operands (h : IsAt code pos op args) : opr (ins code pos) op.layout = args := by
  obtain ⟨op', hop, heq⟩ := Option.map_eq_some_iff.mp h.fetch
  obtain ⟨rfl, hargs⟩ := Prod.mk.inj heq
  exact (Prod.mk.inj hargs).1

theorem isAt_of (hop : Opcode.ofByte (ins code pos 0) = some op) (hargs : opr (ins code pos) op.layout = args)
    (hlen : pos + op.iSize ≤ code.length) : IsAt code pos op args := by
  refine ⟨?_, hlen⟩
  show (Opcode.ofByte (ins code pos 0)).map _ = _
  rw [hop, ← hargs]
  rfl

/-! ## Setting jumps -/

/-- No bytes but `size` of them at `pos` have changed. -/
structure OnlyAt (pos size : Nat) (code code' : List Byte) : Prop where
  length : code'.length = code.length
  agree : ∀ i, i < pos ∨ pos + size ≤ i → code'[i]? = code[i]?

theorem IsAt.onlyAt {p size : Nat} (h : IsAt code pos op args) (ho : OnlyAt p size code code')
    (hap : pos + op.iSize ≤ p ∨ p + size ≤ pos) : IsAt code' pos op args := by
  refine h.agree (fun i hi hi' => ho.agree i ?_) (ho.length ▸ h.inside)
  omega

/-- Setting a branch writes its offset. -/
theorem setjump_ok {offspos isize : Nat} (h : Unset code pos op offspos isize)
    (hset : setjump code pos t = .ok code') :
    Opcode.ofByte (ins code' pos 0) = some op ∧
      signed (os16 (ins code' pos) offspos) = t - (pos + isize) ∧ OnlyAt (pos + offspos) 2 code code' := by
  have hrange : -32768 ≤ t - (pos + isize) ∧ t - (pos + isize) ≤ 32767 := by
    by_contra hout
    have hout : t - (pos + isize) < -32768 ∨ 32767 < t - (pos + isize) := by omega
    unfold setjump at hset
    rw [if_neg (Int.not_lt.mpr (Int.natCast_nonneg pos)), Int.toNat_natCast] at hset
    simp only [h.opcode, Option.bind_some, h.offset, h.unset, ne_eq, not_true, if_false, if_pos hout] at hset
    cases hset
  obtain ⟨hop, hjump⟩ := h.put hrange.1 hrange.2
  rw [h.setjump hrange.1 hrange.2] at hset
  obtain rfl := Except.ok.inj hset
  refine ⟨hop, hjump, length_putOffset, fun i hi => getElem?_putOffset_of_ne ?_ ?_⟩ <;> omega

/-- A loop that is set. -/
theorem IsAt.setjump_loop {a b c : Int} (h : IsAt code pos op [a, b, c, 0])
    (hop : op = .preloop ∨ op = .loop) (hset : setjump code pos t = .ok code') :
    IsAt code' pos op [a, b, c, t - (pos + 6)] ∧ OnlyAt (pos + 4) 2 code code' := by
  have hlayout : op.layout = .ABCsDx := by
    obtain rfl | rfl := hop <;> rfl
  have hoffset : getOffsetPos op = some (4, 6) := by
    obtain rfl | rfl := hop <;> rfl
  have hsize : op.iSize = 6 := by
    obtain rfl | rfl := hop <;> rfl
  have hargs := h.operands
  have hinside := h.inside
  rw [hlayout] at hargs
  rw [hsize] at hinside
  simp only [opr, List.cons.injEq, and_true] at hargs
  obtain ⟨ha, hb, hc, hd⟩ := hargs
  obtain ⟨hop', hjump, honly⟩ := setjump_ok ⟨h.opcode, hoffset, hinside, hd⟩ hset
  have hbyte : ∀ i < 4, ins code' pos i = ins code pos i := by
    intro i hi
    unfold ins
    rw [honly.agree (pos + i) (.inl (Nat.add_lt_add_left hi pos))]
  refine ⟨isAt_of hop' ?_ (hsize.symm ▸ honly.length.symm ▸ hinside), honly⟩
  rw [hlayout, opr, hjump]
  simp only [o8, hbyte 1 (by decide), hbyte 2 (by decide), hbyte 3 (by decide), ← ha, ← hb, ← hc]
  rfl

/-- A jump that is set. -/
theorem IsAt.setjump_jump (h : IsAt code pos .jump [0]) (hset : setjump code pos t = .ok code') :
    IsAt code' pos .jump [t - (pos + 3)] ∧ OnlyAt (pos + 1) 2 code code' := by
  have hunset : Unset code pos .jump 1 3 := ⟨h.opcode, rfl, h.inside, (List.cons.inj h.operands).1⟩
  obtain ⟨hop, hjump, honly⟩ := setjump_ok hunset hset
  exact ⟨isAt_of hop (congrArg (fun d => [d]) hjump) (honly.length.symm ▸ h.inside), honly⟩

end Code

/-! ## Emitting -/

namespace Coder

variable {cdr cdr' : Coder} {op : Opcode} {args : List (BitVec 32)} {pos : Int}

theorem codeFor_ok (hlen : op.layout.kinds.length = args.length)
    (h : cdr.codeFor op args = some (.ok (pos, cdr'))) :
    op.layout.Fits args ∧ (pos, cdr') = cdr.doCode (op.byte :: kindBytes op.layout.kinds args) := by
  have hfits : op.layout.Fits args := by
    by_contra hnot
    obtain ⟨e, he⟩ : ∃ e, cdr.codeFor op args = some (.error e) := codeFor_of_not_fits hlen hnot
    rw [h] at he
    cases he
  refine ⟨hfits, ?_⟩
  rw [codeFor_of_fits hfits] at h
  exact (Except.ok.inj (Option.some.inj h)).symm

/-- In code that is live, the instruction is behind what there was. -/
theorem isAt_of_codeFor (hlayout : op.layout ≠ .AxsBx) (hlen : op.layout.kinds.length = args.length)
    (hlive : cdr.dead = false) (h : cdr.codeFor op args = some (.ok (pos, cdr'))) :
    pos = cdr.code.length ∧ cdr'.dead = false ∧ cdr.code <+: cdr'.code ∧
      cdr'.code.length = cdr.code.length + op.iSize ∧
      IsAt cdr'.code cdr.code.length op (args.map BitVec.toInt) := by
  obtain ⟨hfits, heq⟩ := codeFor_ok hlen h
  rw [doCode, hlive] at heq
  obtain ⟨rfl, rfl⟩ := Prod.mk.inj heq
  have hsize := iSize_eq hfits
  refine ⟨rfl, rfl, List.prefix_append .., ?_, ?_, ?_⟩
  · simp only [List.length_append, hsize]
  · have hfetch : fetchCode (cdr.code ++ (op.byte :: kindBytes op.layout.kinds args) ++ []) cdr.code.length = _ :=
      fetchCode_append
    rw [(opr_bytes hfits).mpr fun hl => absurd hl hlayout, List.append_nil] at hfetch
    exact hfetch
  · simp only [List.length_append, hsize]
    exact Nat.le_refl _

end Coder

/-! ## Fixing jumps -/

/-- Marks of jumps that have not been set, which do not overlap. -/
structure Marked (code : List Byte) (marks : List Codemark) : Prop where
  jump : ∀ cm ∈ marks, ∃ pos : Nat, cm.pos = pos ∧ IsAt code pos .jump [0]
  apart : marks.Pairwise fun cm cm' => cm.pos + 3 ≤ cm'.pos ∨ cm'.pos + 3 ≤ cm.pos

/-- What is known once some of the jumps that leave a context land. -/
def Exits.landed (marks : List Codemark) (e : Exits) : Exits :=
  marks.foldl (fun e cm => e.eTarget cm.xstate) e

theorem Exits.testExit_eTarget {e : Exits} {st : Tristate} (h : (e.eTarget st).testExit = .yes) :
    e.testExit = .yes := by
  unfold eTarget at h
  split at h
  · unfold testExit at h ⊢
    split at h
    · cases h
    · rw [if_neg fun htarget => ?_]
      · exact h
      · rename_i hrank _
        rw [htarget] at hrank
        cases st <;> exact absurd hrank (by decide)
  · exact h

/-- The end of a context that jumps land at is not less reachable for it. -/
theorem Exits.testExit_landed {marks : List Codemark} {e : Exits} (h : (e.landed marks).testExit = .yes) :
    e.testExit = .yes := by
  induction marks generalizing e with
  | nil => exact h
  | cons cm marks ih => exact testExit_eTarget (ih h)

theorem Exits.testExit_eq_yes {e : Exits} :
    e.testExit = .yes ↔ e.target ≠ .yes ∧ (e.exit = .yes ∨ e.ret = .yes ∨ e.breakto ≠ 0) := by
  obtain ⟨exit, ret, target, breakto, maybeBreakto⟩ := e
  simp only [testExit, testBreak]
  cases exit <;> cases ret <;> cases target <;> by_cases hb : breakto = 0 <;>
    by_cases hm : maybeBreakto = 0 <;> simp [hb, hm]

/-- Targets are all that landing adds. -/
theorem Exits.landed_fields {marks : List Codemark} {e : Exits} :
    (e.landed marks).exit = e.exit ∧ (e.landed marks).ret = e.ret ∧ (e.landed marks).breakto = e.breakto := by
  induction marks generalizing e with
  | nil => exact ⟨rfl, rfl, rfl⟩
  | cons cm marks ih =>
    obtain ⟨hexit, hret, hbreakto⟩ := ih (e := e.eTarget cm.xstate)
    have hfields : (e.eTarget cm.xstate).exit = e.exit ∧ (e.eTarget cm.xstate).ret = e.ret ∧
        (e.eTarget cm.xstate).breakto = e.breakto := by
      unfold eTarget
      split <;> exact ⟨rfl, rfl, rfl⟩
    exact ⟨hexit.trans hfields.1, hret.trans hfields.2.1, hbreakto.trans hfields.2.2⟩

theorem Exits.landed_target {marks : List Codemark} {e : Exits} :
    (e.landed marks).target = .yes ↔ e.target = .yes ∨ ∃ cm ∈ marks, cm.xstate = .yes := by
  induction marks generalizing e with
  | nil => simp [landed]
  | cons cm marks ih =>
    have htarget : (e.eTarget cm.xstate).target = .yes ↔ e.target = .yes ∨ cm.xstate = .yes := by
      unfold eTarget
      cases ht : e.target <;> cases cm.xstate <;> simp [Tristate.rank, ht]
    have hland : (e.landed (cm :: marks)).target = ((e.eTarget cm.xstate).landed marks).target := rfl
    rw [hland, ih, htarget, List.exists_mem_cons_iff, or_assoc]

/-- The marked jumps go to `t`, and other instructions are where they were. -/
structure Fixed (t : Int) (marks : List Codemark) (ctx ctx' : LoopContext) : Prop where
  length : ctx'.code.length = ctx.code.length
  jump : ∀ cm ∈ marks, ∀ pos : Nat, cm.pos = pos → IsAt ctx'.code pos .jump [t - (pos + 3)]
  isAt : ∀ (pos : Nat) op args, IsAt ctx.code pos op args →
    (∀ cm ∈ marks, pos + op.iSize ≤ cm.pos ∨ cm.pos + 3 ≤ pos) → IsAt ctx'.code pos op args
  exits : ctx'.exits = ctx.exits.landed marks
  contjumps : ctx'.contjumps = ctx.contjumps
  endjumps : ctx'.endjumps = ctx.endjumps

namespace LoopContext

variable {ctx ctx' : LoopContext} {marks : List Codemark} {t : Int}

theorem fixups_fixed (hmarks : Marked ctx.code marks) (h : fixups t marks ctx = .ok ctx') :
    Fixed t marks ctx ctx' := by
  induction marks generalizing ctx with
  | nil =>
    obtain rfl := Except.ok.inj h
    exact ⟨rfl, nofun, fun _ _ _ hat _ => hat, rfl, rfl, rfl⟩
  | cons cm marks ih =>
    obtain ⟨ctx₁, hfix, h⟩ := Except.bind_ok.mp h
    obtain ⟨code, hset, hret⟩ := Except.bind_ok.mp hfix
    obtain rfl := Except.ok.inj hret
    obtain ⟨pos, hpos, hjump⟩ := hmarks.jump cm List.mem_cons_self
    obtain ⟨hfirst, hrest⟩ := List.pairwise_cons.mp hmarks.apart
    rw [hpos] at hset
    obtain ⟨hat, honly⟩ := hjump.setjump_jump hset
    have hmarks' : Marked code marks := by
      refine ⟨fun cm' hcm' => ?_, hrest⟩
      obtain ⟨pos', hpos', hjump'⟩ := hmarks.jump cm' (List.mem_cons_of_mem cm hcm')
      have hapart := hfirst cm' hcm'
      refine ⟨pos', hpos', hjump'.onlyAt honly ?_⟩
      rw [show Opcode.jump.iSize = 3 from rfl]
      omega
    obtain ⟨hlength, hjumps, hisAt, hexits, hcont, hend⟩ := ih hmarks' h
    refine ⟨hlength.trans honly.length, ?_, ?_, hexits, hcont, hend⟩
    · intro cm' hcm' pos' hpos'
      rcases List.mem_cons.mp hcm' with rfl | hcm'
      · obtain rfl : pos' = pos := Int.ofNat.inj (hpos'.symm.trans hpos)
        refine hisAt pos' _ _ hat fun cm'' hcm'' => ?_
        have hapart := hfirst cm'' hcm''
        rw [show Opcode.jump.iSize = 3 from rfl]
        omega
      · exact hjumps cm' hcm' pos' hpos'
    · intro pos' op args hat' hout
      have hout' := hout cm List.mem_cons_self
      refine hisAt pos' op args (hat'.onlyAt honly ?_) fun cm' hcm' => hout cm' (List.mem_cons_of_mem cm hcm')
      omega

end LoopContext

/-! ## For statements -/

/-- What compiling a statement does to the code: there is more of it, with the jumps that leave the
statement. -/
structure LoopContext.Appends (ctx ctx' : LoopContext) : Prop where
  code : ctx.code <+: ctx'.code
  marked : Marked ctx'.code (ctx'.contjumps ++ ctx'.endjumps)
  within : ∀ cm ∈ ctx'.contjumps ++ ctx'.endjumps, ctx.code.length ≤ cm.pos
  unreachable : ctx'.exits.testExit = .yes → ctx.code.length < ctx'.code.length

namespace ForCode

variable (p : ForCode)

/-- Where the body ends. -/
def land : Nat := p.body.code.length

/-- The compiler does not take the end of the body for unreachable. -/
def Live : Prop := (p.body.exits.landed p.body.contjumps).testExit ≠ .yes

instance : Decidable p.Live := inferInstanceAs (Decidable (_ ≠ _))

/-- The end of the body is taken for unreachable if the body is certain to have left before, and no `continue` of it
was coded where that was certain not to be so. -/
theorem live_iff :
    p.Live ↔ (∃ cm ∈ p.body.contjumps, cm.xstate = .yes) ∨ p.body.exits.target = .yes ∨
      (p.body.exits.exit ≠ .yes ∧ p.body.exits.ret ≠ .yes ∧ p.body.exits.breakto = 0) := by
  obtain ⟨hexit, hret, hbreakto⟩ := @Exits.landed_fields p.body.contjumps p.body.exits
  rw [Live, ne_eq, Exits.testExit_eq_yes, ne_eq, Exits.landed_target, hexit, hret, hbreakto,
    not_and_or, not_not, not_or, not_or, not_not, or_assoc, or_left_comm]

/-- The registers of the loop, and whether a step is given. -/
structure Operands where
  a : Nat
  b : Nat
  c : Nat
  given : Bool

/-- The instructions of a `for` statement are in the code, from `entry` on. -/
structure Laid (code : List Byte) (entry : Nat) (o : Operands) : Prop where
  preloop_eq : p.preloop = entry + if o.given then 0 else 4
  loopstart_eq : p.loopstart = p.preloop + 6
  loopstart_le : p.loopstart ≤ p.land
  loopstart_lt : ¬ p.Live → p.loopstart < p.land
  after_eq : p.after = p.land + if p.Live then 6 else 0
  step : o.given = false → IsAt code entry .ldi [o.b, 1]
  preloop : IsAt code p.preloop .preloop [o.a, o.b, o.c, p.after - p.loopstart]
  loop : p.Live → IsAt code p.land .loop [o.a, o.b, o.c, p.loopstart - p.after]
  next : ∀ cm ∈ p.body.contjumps, ∃ pos : Nat, cm.pos = pos ∧ p.loopstart ≤ pos ∧ pos + 3 ≤ p.land ∧
    IsAt code pos .jump [p.land - (pos + 3)]

end ForCode

section Statement

variable {code : List Byte} {exits : Exits} {a b c : BitVec 32} {given : Bool} {p : ForCode}
  {statement : LoopContext → Except ForError LoopContext}

theorem mapError_ok {ε ε' α : Type} {x : Except ε α} {f : ε → ε'} {v : α} :
    x.mapError f = .ok v ↔ x = .ok v := by
  cases x <;> simp [Except.mapError]

theorem loop_layout {op : Opcode} (hop : op = .preloop ∨ op = .loop) :
    op.layout = .ABCsDx ∧ op.iSize = 6 := by
  obtain rfl | rfl := hop <;> decide

theorem codeABCsDx_ok {op : Opcode} {cdr cdr' : Coder} {pos : Int} (hop : op = .preloop ∨ op = .loop)
    (h : cdr.codeABCsDx op a b c 0 = .ok (pos, cdr')) (hlive : cdr.dead = false) :
    pos = cdr.code.length ∧ cdr.code <+: cdr'.code ∧ cdr'.code.length = cdr.code.length + 6 ∧
      IsAt cdr'.code cdr.code.length op [a.toNat, b.toNat, c.toNat, 0] := by
  obtain ⟨hlayout, hsize⟩ := loop_layout hop
  have hfor : cdr.codeFor op [a, b, c, 0] = some (.ok (pos, cdr')) := by
    obtain rfl | rfl := hop <;> exact congrArg some h
  have hlen : op.layout.kinds.length = [a, b, c, 0].length := by
    rw [hlayout]
    rfl
  have hne : op.layout ≠ .AxsBx := by
    rw [hlayout]
    decide
  obtain ⟨hpos, -, hprefix, hlength, hat⟩ := Coder.isAt_of_codeFor hne hlen hlive hfor
  obtain ⟨hfits, -⟩ := Coder.codeFor_ok hlen hfor
  unfold Layout.Fits at hfits
  rw [hlayout] at hfits
  simp only [Layout.kinds, List.forall₂_cons] at hfits
  obtain ⟨ha, hb, hc, -⟩ := hfits
  rw [toNat_of_nonneg ha.1, toNat_of_nonneg hb.1, toNat_of_nonneg hc.1]
  exact ⟨hpos, hprefix, hsize ▸ hlength, hat⟩

theorem codeABCsDx_dead {op : Opcode} {cdr cdr' : Coder} {pos : Int} (hop : op = .preloop ∨ op = .loop)
    (h : cdr.codeABCsDx op a b c 0 = .ok (pos, cdr')) (hdead : cdr.dead = true) :
    pos = -cdr.code.length ∧ cdr' = cdr := by
  obtain ⟨hlayout, -⟩ := loop_layout hop
  have hfor : cdr.codeFor op [a, b, c, 0] = some (.ok (pos, cdr')) := by
    obtain rfl | rfl := hop <;> exact congrArg some h
  have hlen : op.layout.kinds.length = [a, b, c, 0].length := by
    rw [hlayout]
    rfl
  obtain ⟨-, heq⟩ := Coder.codeFor_ok hlen hfor
  rw [Coder.doCode, hdead] at heq
  exact Prod.mk.inj heq

theorem defaultStep_ok {cdr cdr' : Coder} (h : defaultStep b given cdr = .ok cdr') (hlive : cdr.dead = false) :
    cdr'.dead = false ∧ cdr.code <+: cdr'.code ∧
      cdr'.code.length = cdr.code.length + (if given then 0 else 4) ∧
      (given = false → IsAt cdr'.code cdr.code.length .ldi [b.toNat, 1]) := by
  cases given with
  | true =>
    obtain rfl := Except.ok.inj h
    exact ⟨hlive, List.prefix_rfl, rfl, nofun⟩
  | false =>
    obtain ⟨⟨pos, cdr₁⟩, hcode, rfl⟩ : ∃ r, cdr.codeAsBx .ldi b 1 = .ok r ∧ r.2 = cdr' := by
      rw [defaultStep] at h
      cases hcode : cdr.codeAsBx .ldi b 1 with
      | error e =>
        rw [hcode] at h
        cases h
      | ok r =>
        rw [hcode] at h
        exact ⟨r, rfl, Except.ok.inj h⟩
    have hfor : cdr.codeFor .ldi [b, 1] = some (.ok (pos, cdr₁)) := congrArg some hcode
    obtain ⟨-, hdead, hprefix, hlength, hat⟩ := Coder.isAt_of_codeFor (by decide) rfl hlive hfor
    obtain ⟨hfits, -⟩ := Coder.codeFor_ok rfl hfor
    cases hfits with
    | cons hb _ =>
      refine ⟨hdead, hprefix, hlength, fun _ => ?_⟩
      rw [toNat_of_nonneg hb.1]
      exact hat

/-- The end of a loop is behind what there was, and sets the branch at its start. -/
theorem closeLoop_ok {ctx ctx' : LoopContext} {preloop loopstart : Nat}
    (h : closeLoop a b c preloop loopstart ctx = .ok ctx')
    (hpreloop : IsAt ctx.code preloop .preloop [a.toNat, b.toNat, c.toNat, 0]) :
    ctx'.endjumps = ctx.endjumps ∧
      ctx'.code.length = ctx.code.length + (if ctx.exits.testExit ≠ .yes then 6 else 0) ∧
      IsAt ctx'.code preloop .preloop [a.toNat, b.toNat, c.toNat, ctx'.code.length - (preloop + 6)] ∧
      (ctx.exits.testExit ≠ .yes →
        IsAt ctx'.code ctx.code.length .loop [a.toNat, b.toNat, c.toNat, loopstart - ctx'.code.length]) ∧
      ∀ pos op args, IsAt ctx.code pos op args → pos + op.iSize ≤ preloop ∨ preloop + 6 ≤ pos →
        IsAt ctx'.code pos op args := by
  unfold closeLoop at h
  obtain ⟨⟨loopjump, cdr⟩, hloop, h⟩ := Except.bind_ok.mp h
  obtain ⟨code₁, hset₁, h⟩ := Except.bind_ok.mp h
  obtain ⟨code₂, hset₂, h⟩ := Except.bind_ok.mp h
  obtain rfl := Except.ok.inj h
  replace hloop := mapError_ok.mp hloop
  replace hset₁ := mapError_ok.mp hset₁
  replace hset₂ := mapError_ok.mp hset₂
  have hinside := hpreloop.inside
  rw [show Opcode.preloop.iSize = 6 from rfl] at hinside
  by_cases hlive : ctx.exits.testExit = .yes
  · obtain ⟨rfl, rfl⟩ := codeABCsDx_dead (.inr rfl) hloop (decide_eq_true hlive)
    have hneg : -(ctx.coder.code.length : Int) < 0 := by
      have : ctx.coder.code.length = ctx.code.length := rfl
      omega
    rw [setjump, if_pos hneg] at hset₁
    obtain rfl := Except.ok.inj hset₁
    obtain ⟨hat, honly⟩ := hpreloop.setjump_loop (.inl rfl) hset₂
    have hlength := honly.length
    refine ⟨rfl, ?_, ?_, fun h => absurd hlive h, fun pos op args hpos hap => hpos.onlyAt honly ?_⟩
    · rw [if_neg (not_not_intro hlive)]
      exact hlength
    · rw [hlength]
      exact hat
    · omega
  · obtain ⟨rfl, hprefix, hlen, hat⟩ := codeABCsDx_ok (.inr rfl) hloop (decide_eq_false hlive)
    obtain ⟨hloopAt, honly₁⟩ := hat.setjump_loop (.inr rfl) hset₁
    have hbefore : preloop + 6 ≤ ctx.coder.code.length := hinside
    have hpre₁ := (hpreloop.extend hprefix).onlyAt honly₁ (.inl (by
      rw [show Opcode.preloop.iSize = 6 from rfl]
      omega))
    obtain ⟨hpreAt, honly₂⟩ := hpre₁.setjump_loop (.inl rfl) hset₂
    have hlen₁ := honly₁.length
    have hlen₂ := honly₂.length
    have hcode : ctx.coder.code = ctx.code := rfl
    rw [hcode] at hlen hbefore hloopAt hprefix honly₁
    refine ⟨rfl, ?_, ?_, fun _ => ?_, fun pos op args hpos hap => ?_⟩
    · rw [if_pos hlive]
      exact hlen₂.trans (hlen₁.trans hlen)
    · rw [hlen₂]
      exact hpreAt
    · have hend : (loopstart : Int) - code₂.length = loopstart - (ctx.code.length + 6) := by omega
      rw [hend]
      exact hloopAt.onlyAt honly₂ (.inr (by omega))
    · have hin := hpos.inside
      exact ((hpos.extend hprefix).onlyAt honly₁ (.inl (by omega))).onlyAt honly₂ (by omega)

theorem Marked.left {marks marks' : List Codemark} (h : Marked code (marks ++ marks')) : Marked code marks :=
  ⟨fun cm hcm => h.jump cm (List.mem_append_left marks' hcm), (List.pairwise_append.mp h.apart).1⟩

theorem Marked.right {marks marks' : List Codemark} (h : Marked code (marks ++ marks')) : Marked code marks' :=
  ⟨fun cm hcm => h.jump cm (List.mem_append_right marks hcm), (List.pairwise_append.mp h.apart).2.1⟩

theorem Marked.apart_append {marks marks' : List Codemark} (h : Marked code (marks ++ marks')) :
    ∀ cm ∈ marks, ∀ cm' ∈ marks', cm.pos + 3 ≤ cm'.pos ∨ cm'.pos + 3 ≤ cm.pos :=
  (List.pairwise_append.mp h.apart).2.2

theorem forstat_laid (h : forstat a b c given statement code exits = .ok p) (hlive : exits.testExit ≠ .yes)
    (hstatement : ∀ pos ctx, openLoop a b c given code exits = .ok (pos, ctx) →
      ∀ ctx', statement ctx = .ok ctx' → ctx.Appends ctx') :
    p.Laid p.code code.length ⟨a.toNat, b.toNat, c.toNat, given⟩ := by
  unfold forstat at h
  obtain ⟨⟨preloop, ctx₀⟩, hopen, h⟩ := Except.bind_ok.mp h
  have hopen' := hopen
  unfold openLoop at hopen
  obtain ⟨cdr, hstep, hopen⟩ := Except.bind_ok.mp hopen
  obtain ⟨⟨preloop, cdr₁⟩, hpreloop, hopen⟩ := Except.bind_ok.mp hopen
  obtain ⟨rfl, rfl⟩ := Prod.mk.inj (Except.ok.inj hopen)
  obtain ⟨body, hbody, h⟩ := Except.bind_ok.mp h
  obtain ⟨ctx, hcont, h⟩ := Except.bind_ok.mp h
  obtain ⟨ctx₁, hclose, h⟩ := Except.bind_ok.mp h
  obtain ⟨ctx₂, hbreak, h⟩ := Except.bind_ok.mp h
  obtain rfl := Except.ok.inj h
  obtain ⟨hdead, hprefix₀, hlen₀, hldi⟩ := defaultStep_ok (mapError_ok.mp hstep) (decide_eq_false hlive)
  obtain ⟨rfl, hprefix₁, hlen₁, hpre⟩ := codeABCsDx_ok (.inl rfl) (mapError_ok.mp hpreloop) hdead
  have hbody := hstatement _ _ hopen' _ hbody
  have hcont := LoopContext.fixups_fixed hbody.marked.left (mapError_ok.mp hcont)
  have hland := hbody.code.length_le
  have hwithin : ∀ cm ∈ body.contjumps ++ body.endjumps, (cdr.code.length + 6 : Int) ≤ cm.pos := by
    intro cm hcm
    have := hbody.within cm hcm
    simp only at this
    omega
  have hsize : Opcode.preloop.iSize = 6 := rfl
  -- The branch at the start is in front of the jumps in the body.
  have hpre' : IsAt ctx.code cdr.code.length .preloop [a.toNat, b.toNat, c.toNat, 0] :=
    hcont.isAt _ _ _ (hpre.extend hbody.code) fun cm hcm => .inl (by
      have := hwithin cm (List.mem_append_left _ hcm)
      omega)
  obtain ⟨hendjumps, hlen₂, hpreAt, hloopAt, hkeep⟩ := closeLoop_ok hclose hpre'
  have hmarked : Marked ctx₁.code ctx₁.endjumps := by
    rw [hendjumps, hcont.endjumps]
    refine ⟨fun cm hcm => ?_, hbody.marked.right.apart⟩
    obtain ⟨pos, hpos, hat⟩ := hbody.marked.right.jump cm hcm
    have hcm' := hwithin cm (List.mem_append_right _ hcm)
    refine ⟨pos, hpos, hkeep _ _ _ (hcont.isAt _ _ _ hat fun cm' hcm'' => ?_) (.inr (by omega))⟩
    have := hbody.marked.apart_append cm' hcm'' cm hcm
    rw [show Opcode.jump.iSize = 3 from rfl]
    omega
  have hbreak := LoopContext.fixups_fixed hmarked (mapError_ok.mp hbreak)
  rw [hendjumps, hcont.endjumps] at hbreak
  have hlen₃ := hbreak.length
  have hexits : ctx.exits = body.exits.landed body.contjumps := hcont.exits
  have hlenc := hcont.length
  rw [hexits, hlenc] at hlen₂ hloopAt
  -- What is in front of the body is in front of the breaks.
  have hfront : ∀ pos op args, IsAt ctx₁.code pos op args → pos + op.iSize ≤ cdr.code.length + 6 →
      IsAt ctx₂.code pos op args := fun pos op args hat hle =>
    hbreak.isAt _ _ _ hat fun cm hcm => .inl (by
      have := hwithin cm (List.mem_append_right _ hcm)
      omega)
  refine ⟨hlen₀, hlen₁, hland, fun hnot => ?_, hlen₃.trans hlen₂, fun hgiven => ?_, ?_, fun hl => ?_, fun cm hcm => ?_⟩
  · exact hbody.unreachable (Exits.testExit_landed (not_not.mp hnot))
  · have hat := hldi hgiven
    have hin : code.length + Opcode.ldi.iSize ≤ cdr.code.length := hat.inside
    refine hfront _ _ _ (hkeep _ _ _ ?_ (.inl hin)) (Nat.le_add_right_of_le hin)
    refine hcont.isAt _ _ _ ((hat.extend hprefix₁).extend hbody.code) fun cm hcm => .inl ?_
    have := hwithin cm (List.mem_append_left _ hcm)
    show (code.length : Int) + _ ≤ _
    omega
  · have hat := hfront _ _ _ hpreAt (by omega)
    rw [← hlen₃] at hat
    have hoffset : (ctx₂.code.length : Int) - (cdr.code.length + 6) = ctx₂.code.length - cdr₁.code.length := by omega
    rw [hoffset] at hat
    exact hat
  · have hat := hloopAt hl
    rw [← hlen₃] at hat
    refine hbreak.isAt _ _ _ hat fun cm hcm => .inr ?_
    obtain ⟨pos, hpos, hjump⟩ := hbody.marked.right.jump cm hcm
    have hin := hjump.inside
    rw [show Opcode.jump.iSize = 3 from rfl] at hin
    show cm.pos + 3 ≤ (body.code.length : Int)
    omega
  · obtain ⟨pos, hpos, hjump⟩ := hbody.marked.left.jump cm hcm
    have hcm' := hwithin cm (List.mem_append_left _ hcm)
    have hin := hjump.inside
    rw [show Opcode.jump.iSize = 3 from rfl] at hin
    refine ⟨pos, hpos, by simp only; omega, hin, ?_⟩
    refine hbreak.isAt _ _ _ (hkeep _ _ _ (hcont.jump cm hcm pos hpos) (.inr (by omega)))
      fun cm' hcm'' => ?_
    have := hbody.marked.apart_append cm hcm cm' hcm''
    rw [show Opcode.jump.iSize = 3 from rfl]
    omega

end Statement

end Eel
