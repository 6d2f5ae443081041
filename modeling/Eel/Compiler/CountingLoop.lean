-- SUMMARY: When a `for` statement runs its body for the numbers from the first to the bound, one after the other.
import Eel.Compiler.ForCode
import Eel.Vm.CallDiscipline
import Eel.Vm.LoopInstr

/-!
# Counting loops

The body is whatever code the compiler has made of it, and whatever the VM does there, calls
and all, until it comes to the end of the body or to a jump of `continue`.
-/

namespace Eel

open Code Counting Vm

/-- What becomes of the code of a `for` statement: its own instructions stay. -/
structure ForCode.Kept (p : ForCode) (entry : Nat) (final : List Byte) : Prop where
  length : p.code.length ≤ final.length
  agree : ∀ i : Nat, (entry ≤ i ∧ i < p.loopstart) ∨ (p.land ≤ i ∧ i < p.after) ∨
    (∃ cm ∈ p.body.contjumps, cm.pos ≤ i ∧ i < cm.pos + 3) → final[i]? = p.code[i]?

theorem ForCode.Laid.kept {p : ForCode} {entry : Nat} {o : ForCode.Operands} {final : List Byte}
    (h : p.Laid p.code entry o) (hkept : p.Kept entry final) : p.Laid final entry o := by
  have hlength := hkept.length
  have hpre := h.preloop_eq
  have hstart := h.loopstart_eq
  have hafter := h.after_eq
  refine { h with step := fun hg => ?_, preloop := ?_, loop := fun hl => ?_, next := fun cm hcm => ?_ }
  · have hat := h.step hg
    rw [hg, if_neg Bool.false_ne_true] at hpre
    refine hat.agree (fun i hi hi' => hkept.agree i (.inl ⟨hi, ?_⟩)) (hat.inside.trans hlength)
    rw [show Opcode.ldi.iSize = 4 from rfl] at hi'
    omega
  · have hat := h.preloop
    refine hat.agree (fun i hi hi' => hkept.agree i (.inl ⟨?_, ?_⟩)) (hat.inside.trans hlength)
    · split at hpre <;> omega
    · rw [show Opcode.preloop.iSize = 6 from rfl] at hi'
      omega
  · have hat := h.loop hl
    rw [if_pos hl] at hafter
    refine hat.agree (fun i hi hi' => hkept.agree i (.inr (.inl ⟨hi, ?_⟩))) (hat.inside.trans hlength)
    rw [show Opcode.loop.iSize = 6 from rfl] at hi'
    omega
  · obtain ⟨pos, hpos, hle, hland, hat⟩ := h.next cm hcm
    refine ⟨pos, hpos, hle, hland, ?_⟩
    refine hat.agree (fun i hi hi' => hkept.agree i (.inr (.inr ⟨cm, hcm, ?_, ?_⟩))) (hat.inside.trans hlength)
    · omega
    · rw [show Opcode.jump.iSize = 3 from rfl] at hi'
      omega

/-- A `for` statement that has been compiled, in the code of a function. -/
structure ForLoop (E : Env) where
  -- The registers of the loop variable, the step and the bound
  a : BitVec 32
  b : BitVec 32
  c : BitVec 32
  given : Bool
  statement : LoopContext → Except ForError LoopContext
  code : List Byte
  exits : Exits
  p : ForCode
  compiled : forstat a b c given statement code exits = .ok p
  reachable : exits.testExit ≠ .yes
  appends : ∀ pos ctx, openLoop a b c given code exits = .ok (pos, ctx) →
    ∀ ctx', statement ctx = .ok ctx' → ctx.Appends ctx'
  apart : b ≠ a ∧ c ≠ a ∧ c ≠ b
  fo : ObjId
  final : List Byte
  kept : p.Kept code.length final
  loaded : E.Loaded fo final

namespace ForLoop

variable {E : Env} (L : ForLoop E) (C : ObjId → Host) (base : Nat)

/-! ## The law -/

/-- The VM is where the `for` statement begins, once the numbers are in their registers. -/
structure Entered (first step bound : BitVec 32) (vm : Vm) : Prop where
  at_entry : vm.At L.fo base L.code.length
  first : vm.register L.a.toNat = .integer first
  bound : vm.register L.c.toNat = .integer bound
  step : if L.given then vm.register L.b.toNat = .integer step else step = 1

/-- The body ends: where its code does, or at a jump of `continue`. -/
def Ends (vm : Vm) : Prop :=
  vm.base = base ∧ (vm.pc = L.p.land ∨ ∃ cm ∈ L.p.body.contjumps, cm.pos = vm.pc)

/-- The body is run from `vm`, and `vm'` is where it ends. It has not assigned the loop variable, and the
registers of the bound and the step are not its own. -/
structure Body (vm vm' : Vm) : Prop where
  ends : Until E.doubles C (L.Ends base) vm vm'
  fo : vm'.fo base = L.fo
  a : vm'.register L.a.toNat = vm.register L.a.toNat
  b : vm'.register L.b.toNat = vm.register L.b.toNat
  c : vm'.register L.c.toNat = vm.register L.c.toNat

/-- From the end of the body to where it is decided whether there is another round: by the jump of
`continue`, if it has ended at one, and by the test of the loop, if there is one. -/
def Decides (vm vm' : Vm) : Prop :=
  ∃ vm₁, (vm.pc = L.p.land ∧ vm₁ = vm ∨
      vm.pc ≠ L.p.land ∧ Turn E.doubles C vm vm₁ ∧ vm₁.At L.fo base L.p.land) ∧
    if L.p.Live then Turn E.doubles C vm₁ vm' else vm' = vm₁

/-- What the loop does from where that has been decided: whenever the body ends, it is run for the next
of the numbers, and after the last one the VM goes on behind the loop. -/
def Follows : List Int → Vm → Prop
  | [], vm => vm.At L.fo base L.p.after
  | v :: vs, vm =>
    vm.At L.fo base L.p.loopstart ∧ vm.register L.a.toNat = whole v ∧
      ∀ vm', L.Body C base vm vm' → ∃ vm'', L.Decides C base vm' vm'' ∧ Follows vs vm''

/-- The VM comes to where it is decided whether there is a first round. -/
def Enters (vm vm' : Vm) : Prop :=
  ∃ vm₁, (if L.given then vm₁ = vm else Turn E.doubles C vm vm₁) ∧ Turn E.doubles C vm₁ vm'

/-- The body is run for these numbers. -/
def Counts (vs : List Int) (vm : Vm) : Prop :=
  ∃ vm', L.Enters C vm vm' ∧ L.Follows C base vs vm'

/-! ## Turns of the loop -/

/-- The registers are the loop's. -/
structure Holds (v step bound : Int) (vm : Vm) : Prop where
  a : vm.register L.a.toNat = whole v
  b : vm.register L.b.toNat = whole step
  c : vm.register L.c.toNat = whole bound

/-- The other registers are the same. -/
def Others (vm vm' : Vm) : Prop :=
  ∀ r, r ≠ L.a.toNat → r ≠ L.b.toNat → r ≠ L.c.toNat → vm'.register r = vm.register r

variable {L C base} {vm vm' : Vm}

theorem laid (L : ForLoop E) :
    L.p.Laid L.final L.code.length ⟨L.a.toNat, L.b.toNat, L.c.toNat, L.given⟩ :=
  (forstat_laid L.compiled L.reachable L.appends).kept L.kept

theorem registers_ne (L : ForLoop E) :
    L.b.toNat ≠ L.a.toNat ∧ L.c.toNat ≠ L.a.toNat ∧ L.c.toNat ≠ L.b.toNat := by
  obtain ⟨hba, hca, hcb⟩ := L.apart
  exact ⟨fun h => hba (BitVec.eq_of_toNat_eq h), fun h => hca (BitVec.eq_of_toNat_eq h),
    fun h => hcb (BitVec.eq_of_toNat_eq h)⟩

/-- An instruction in the code is what the VM executes there. -/
theorem turn_of_exec (i : Instr) {args : List Int} {pos : Nat} (hvm : vm.At L.fo base pos)
    (hat : IsAt L.final pos i.opcode args) (hdecode : Instr.decode i.opcode args = some i)
    (hi : ∀ vm : Vm, vm.execute E.doubles i =
      match vm.exec E.doubles i with
      | .next vm => .next vm
      | .thrown x vm => .schedule (vm.throwXno x))
    (hexec : (vm.advance i.size).exec E.doubles i = .next vm') : Turn E.doubles C vm vm' := by
  refine turn_of_next ?_
  have hfetch : vm.fetch E.doubles = i := by
    unfold fetch
    rw [hvm.base_eq, hvm.fo_eq, hvm.pc_eq]
    exact L.loaded pos _ _ _ i hat.fetch hdecode
  have hstep : vm.step E.doubles = (vm.advance i.size).execute E.doubles i := by
    rw [Vm.step, hfetch]
    rfl
  rw [hstep, hi, hexec]

theorem Holds.jump {v step bound d : Int} (h : L.Holds v step bound vm) : L.Holds v step bound (vm.jump d) :=
  ⟨h.a, h.b, h.c⟩

/-- `PRELOOP`. -/
theorem turn_preloop {first step bound : BitVec 32} (hvm : vm.At L.fo base L.p.preloop)
    (ha : vm.register L.a.toNat = .integer first) (hb : vm.register L.b.toNat = .integer step)
    (hc : vm.register L.c.toNat = .integer bound) :
    ∃ vm', Turn E.doubles C vm vm' ∧ L.Holds first.toInt step.toInt bound.toInt vm' ∧
      vm'.At L.fo base
        (if Past bound.toInt step.toInt first.toInt then L.p.after else L.p.loopstart) ∧
      L.Others vm vm' := by
  obtain ⟨hba, hca, hcb⟩ := L.registers_ne
  have hlaid := L.laid
  have hstart := hlaid.loopstart_eq
  have hat : (vm.advance 6).At L.fo base L.p.loopstart := hstart ▸ hvm.advance
  have hexec : (vm.advance 6).exec E.doubles (.preloop L.a.toNat L.b.toNat L.c.toNat
      (L.p.after - L.p.loopstart)) = _ := exec_preloop ha hb hc hba hca hcb
  obtain ⟨vm₁, hvm₁⟩ : ∃ vm₁, (((vm.advance 6).writeReg L.a.toNat (whole first.toInt)).writeReg L.b.toNat
      (whole step.toInt)).writeReg L.c.toNat (whole bound.toInt) = vm₁ := ⟨_, rfl⟩
  have hat₁ : vm₁.At L.fo base L.p.loopstart := hvm₁ ▸ hat.writeReg.writeReg.writeReg
  have hholds : L.Holds first.toInt step.toInt bound.toInt vm₁ := by
    subst hvm₁
    refine ⟨?_, ?_, register_writeReg_self⟩
    · rw [register_writeReg_of_ne hca.symm, register_writeReg_of_ne hba.symm, register_writeReg_self]
    · rw [register_writeReg_of_ne hcb.symm, register_writeReg_self]
  have hothers : L.Others vm vm₁ := by
    subst hvm₁
    intro r hra hrb hrc
    rw [register_writeReg_of_ne hrc, register_writeReg_of_ne hrb, register_writeReg_of_ne hra]
    rfl
  simp only [hvm₁] at hexec
  refine ⟨_, turn_of_exec (.preloop L.a.toNat L.b.toNat L.c.toNat (L.p.after - L.p.loopstart)) hvm
    hlaid.preloop rfl (fun _ => rfl) hexec, ?_, ?_, ?_⟩
  · split
    · exact hholds.jump
    · exact hholds
  · split
    · refine hat₁.jump ?_
      omega
    · exact hat₁
  · split
    · exact hothers
    · exact hothers

/-- `LOOP`. -/
theorem turn_loop {v step bound : Int} (hlive : L.p.Live) (hvm : vm.At L.fo base L.p.land)
    (h : L.Holds v step bound vm) (hv : v.natAbs < 2 ^ 53) (hstep : step.natAbs < 2 ^ 53)
    (hbound : bound.natAbs < 2 ^ 53) (hsum : (v + step).natAbs < 2 ^ 53) :
    ∃ vm', Turn E.doubles C vm vm' ∧ L.Holds (v + step) step bound vm' ∧
      vm'.At L.fo base (if Past bound step (v + step) then L.p.after else L.p.loopstart) := by
  obtain ⟨hba, hca, -⟩ := L.registers_ne
  have hlaid := L.laid
  have hafter := hlaid.after_eq
  rw [if_pos hlive] at hafter
  have hat : (vm.advance 6).At L.fo base L.p.after := hafter ▸ hvm.advance
  have hexec : (vm.advance 6).exec E.doubles (.loop L.a.toNat L.b.toNat L.c.toNat
      (L.p.loopstart - L.p.after)) = _ := exec_loop h.a h.b h.c hv hstep hbound hsum
  have hholds : L.Holds (v + step) step bound ((vm.advance 6).writeReg L.a.toNat (whole (v + step))) := by
    refine ⟨register_writeReg_self, ?_, ?_⟩
    · rw [register_writeReg_of_ne hba]
      exact h.b
    · rw [register_writeReg_of_ne hca]
      exact h.c
  refine ⟨_, turn_of_exec (.loop L.a.toNat L.b.toNat L.c.toNat (L.p.loopstart - L.p.after)) hvm
    (hlaid.loop hlive) rfl (fun _ => rfl) hexec, ?_, ?_⟩
  · split
    · exact hholds
    · exact hholds.jump
  · split
    · exact hat.writeReg
    · refine hat.writeReg.jump ?_
      omega

/-- The jump of `continue`. -/
theorem turn_next {cm : Codemark} (hcm : cm ∈ L.p.body.contjumps) (hbase : vm.base = base)
    (hfo : vm.fo base = L.fo) (hpc : cm.pos = vm.pc) :
    vm.pc ≠ L.p.land ∧ ∃ vm', Turn E.doubles C vm vm' ∧ vm'.At L.fo base L.p.land ∧
      ∀ r, vm'.register r = vm.register r := by
  obtain ⟨pos, hpos, -, hland, hat⟩ := L.laid.next cm hcm
  obtain rfl : pos = vm.pc := Int.ofNat.inj (hpos.symm.trans hpc)
  have hvm : vm.At L.fo base vm.pc := ⟨hbase, hfo, rfl⟩
  refine ⟨by omega, (vm.advance 3).jump (L.p.land - (vm.pc + 3)),
    turn_of_exec (.jump (L.p.land - (vm.pc + 3))) hvm hat rfl (fun _ => rfl) rfl, hvm.advance.jump (by omega), fun r => rfl⟩

/-- From where the body ends, the VM comes to the end of it. -/
theorem lands (hends : L.Ends base vm) (hfo : vm.fo base = L.fo) :
    ∃ vm₁, (vm.pc = L.p.land ∧ vm₁ = vm ∨
        vm.pc ≠ L.p.land ∧ Turn E.doubles C vm vm₁ ∧ vm₁.At L.fo base L.p.land) ∧
      vm₁.At L.fo base L.p.land ∧ ∀ r, vm₁.register r = vm.register r := by
  obtain ⟨hbase, hpc | ⟨cm, hcm, hpc⟩⟩ := hends
  · exact ⟨vm, .inl ⟨hpc, rfl⟩, ⟨hbase, hfo, hpc⟩, fun _ => rfl⟩
  · obtain ⟨hne, vm₁, hturn, hat, hregs⟩ := turn_next (C := C) hcm hbase hfo hpc
    exact ⟨vm₁, .inr ⟨hne, hturn, hat⟩, hat, hregs⟩

/-! ## Rounds -/

/-- What every number of a count has, those beyond the bound with it. -/
def Near (step v : Int) : Prop := if step < 0 then v < 2 ^ 31 else -2 ^ 31 ≤ v

theorem Near.natAbs_lt {v : Int} {step bound : BitVec 32} (h : Near step.toInt v)
    (hv : ¬ Past bound.toInt step.toInt v) :
    v.natAbs < 2 ^ 53 ∧ (v + step.toInt).natAbs < 2 ^ 53 := by
  have hb := BitVec.two_mul_toInt_lt (x := bound)
  have hb' := BitVec.le_two_mul_toInt (x := bound)
  have hs := BitVec.two_mul_toInt_lt (x := step)
  have hs' := BitVec.le_two_mul_toInt (x := step)
  unfold Near Past at *
  split at h
  · rw [if_pos ‹_›] at hv
    omega
  · rw [if_neg ‹_›] at hv
    omega

theorem Near.next {v step : Int} (h : Near step v) : Near step (v + step) := by
  unfold Near at *
  split at h
  · rw [if_pos ‹_›]
    omega
  · rw [if_neg ‹_›]
    omega

theorem Body.holds {v step bound : Int} (hbody : L.Body C base vm vm') (h : L.Holds v step bound vm) :
    L.Holds v step bound vm' :=
  ⟨hbody.a.trans h.a, hbody.b.trans h.b, hbody.c.trans h.c⟩

theorem Holds.congr {v step bound : Int} (h : L.Holds v step bound vm)
    (hregs : ∀ r, vm'.register r = vm.register r) : L.Holds v step bound vm' :=
  ⟨(hregs _).trans h.a, (hregs _).trans h.b, (hregs _).trans h.c⟩

/-- A round leads to the next number, or out of the loop. -/
theorem decides {v : Int} {step bound : BitVec 32} (hlive : L.p.Live)
    (h : L.Holds v step.toInt bound.toInt vm) (hnear : Near step.toInt v)
    (hv : ¬ Past bound.toInt step.toInt v) (hbody : L.Body C base vm vm') :
    ∃ vm'', L.Decides C base vm' vm'' ∧ L.Holds (v + step.toInt) step.toInt bound.toInt vm'' ∧
      vm''.At L.fo base
        (if Past bound.toInt step.toInt (v + step.toInt) then L.p.after else L.p.loopstart) := by
  obtain ⟨vm₁, hlands, hat, hregs⟩ := lands (C := C) hbody.ends.holds hbody.fo
  obtain ⟨hv, hsum⟩ := hnear.natAbs_lt hv
  obtain ⟨vm₂, hturn, hholds, hat₂⟩ := turn_loop (C := C) hlive hat ((hbody.holds h).congr hregs) hv
    (natAbs_toInt_lt step) (natAbs_toInt_lt bound) hsum
  refine ⟨vm₂, ⟨vm₁, hlands, ?_⟩, hholds, hat₂⟩
  rw [if_pos hlive]
  exact hturn

/-- With a test at the end of the loop, the body is run for all the numbers. The induction is on the
numbers that are left. -/
theorem follows_of_live {v : Int} {step bound : BitVec 32} (hlive : L.p.Live) (hstep : step.toInt ≠ 0)
    (hnear : Near step.toInt v) (h : L.Holds v step.toInt bound.toInt vm)
    (hat : vm.At L.fo base (if Past bound.toInt step.toInt v then L.p.after else L.p.loopstart)) :
    L.Follows C base (values v bound.toInt step.toInt) vm := by
  generalize hvs : values v bound.toInt step.toInt = vs
  induction vs generalizing v vm with
  | nil =>
    rw [if_pos (values_eq_nil_iff.mp hvs)] at hat
    exact hat
  | cons w vs ih =>
    have hv : ¬ Past bound.toInt step.toInt v := fun hpast => by
      rw [values_of_past hpast] at hvs
      cases hvs
    rw [values_of_not_past hstep hv] at hvs
    obtain ⟨rfl, hrest⟩ := List.cons.inj hvs
    rw [if_neg hv] at hat
    refine ⟨hat, h.a, fun vm' hbody => ?_⟩
    obtain ⟨vm'', hdecides, hholds, hat'⟩ := decides hlive h hnear hv hbody
    exact ⟨vm'', hdecides, ih hnear.next hholds hat' hrest⟩

/-- Without one, the VM goes on behind the loop. -/
theorem follows_singleton {v : Int} (hlive : ¬ L.p.Live) (hat : vm.At L.fo base L.p.loopstart)
    (hv : vm.register L.a.toNat = whole v) : L.Follows C base [v] vm := by
  refine ⟨hat, hv, fun vm' hbody => ?_⟩
  obtain ⟨vm₁, hlands, hland, -⟩ := lands (C := C) hbody.ends.holds hbody.fo
  have hafter := L.laid.after_eq
  rw [if_neg hlive] at hafter
  refine ⟨vm₁, ⟨vm₁, hlands, ?_⟩, ?_⟩
  · rw [if_neg hlive]
  · show vm₁.At L.fo base L.p.after
    rw [hafter]
    exact hland

/-- And there is no second round. -/
theorem not_follows {v w : Int} {vs : List Int} (hlive : ¬ L.p.Live) (hbody : ∃ vm', L.Body C base vm vm') :
    ¬ L.Follows C base (v :: w :: vs) vm := by
  rintro ⟨-, -, hnext⟩
  obtain ⟨vm', hbody⟩ := hbody
  obtain ⟨vm'', ⟨vm₁, hlands, hdecides⟩, hat, -⟩ := hnext vm' hbody
  rw [if_neg hlive] at hdecides
  have hpc : vm₁.pc = L.p.land := by
    rcases hlands with ⟨hpc, rfl⟩ | ⟨-, -, hland⟩
    · exact hpc
    · exact hland.pc_eq
  have hlt := L.laid.loopstart_lt hlive
  have hstart := hat.pc_eq
  rw [hdecides, hpc] at hstart
  omega

/-- The VM enters the loop in one way. -/
theorem enters {first step bound : BitVec 32} (h : L.Entered base first step bound vm) :
    ∃ vm', L.Enters C vm vm' ∧ L.Holds first.toInt step.toInt bound.toInt vm' ∧
      vm'.At L.fo base
        (if Past bound.toInt step.toInt first.toInt then L.p.after else L.p.loopstart) ∧
      L.Others vm vm' := by
  have hpre := L.laid.preloop_eq
  obtain ⟨hba, -, hcb⟩ := L.registers_ne
  cases hgiven : L.given with
  | true =>
    have hb := h.step
    rw [if_pos hgiven] at hb
    rw [hgiven, if_pos rfl, Nat.add_zero] at hpre
    obtain ⟨vm', hturn, hholds, hat, hothers⟩ := turn_preloop (C := C) (hpre ▸ h.at_entry) h.first hb h.bound
    refine ⟨vm', ⟨vm, ?_, hturn⟩, hholds, hat, hothers⟩
    rw [if_pos hgiven]
  | false =>
    have hb := h.step
    rw [hgiven, if_neg Bool.false_ne_true] at hb
    subst hb
    rw [hgiven, if_neg Bool.false_ne_true] at hpre
    have hturn₀ : Turn E.doubles C vm ((vm.advance 4).writeReg L.b.toNat (.integer 1)) :=
      turn_of_exec (.ldi L.b.toNat 1) h.at_entry (L.laid.step hgiven) rfl (fun _ => rfl) rfl
    have hat₀ : ((vm.advance 4).writeReg L.b.toNat (.integer 1)).At L.fo base L.p.preloop :=
      hpre ▸ h.at_entry.advance.writeReg
    obtain ⟨vm', hturn, hholds, hat, hothers⟩ := turn_preloop (C := C) hat₀
      ((register_writeReg_of_ne hba.symm).trans h.first) register_writeReg_self
      ((register_writeReg_of_ne hcb).trans h.bound)
    refine ⟨vm', ⟨_, ?_, hturn⟩, hholds, hat, fun r hra hrb hrc => ?_⟩
    · rw [hgiven, if_neg Bool.false_ne_true]
      exact hturn₀
    · exact (hothers r hra hrb hrc).trans (register_writeReg_of_ne hrb)

theorem Enters.unique {vm₁ vm₂ : Vm} (h : L.Enters C vm vm₁) (h' : L.Enters C vm vm₂) : vm₁ = vm₂ := by
  obtain ⟨w, hw, hturn⟩ := h
  obtain ⟨w', hw', hturn'⟩ := h'
  have hww : w = w' := by
    split at hw
    · rw [if_pos ‹_›] at hw'
      exact hw.trans hw'.symm
    · rw [if_neg ‹_›] at hw'
      exact hw.unique hw'
  subst hww
  exact hturn.unique hturn'

/-- The body is run for the numbers from the first to the bound if the compiler does not take the end
of it for unreachable, or else if there is at most one number. -/
theorem counts_iff {first step bound : BitVec 32} (h : L.Entered base first step bound vm) (hstep : step ≠ 0)
    (hends : ∀ vm', L.Enters C vm vm' → vm'.At L.fo base L.p.loopstart → ∃ vm'', L.Body C base vm' vm'') :
    L.Counts C base (values first.toInt bound.toInt step.toInt) vm ↔
      L.p.Live ∨ Past bound.toInt step.toInt first.toInt ∨
        Past bound.toInt step.toInt (first.toInt + step.toInt) := by
  have hne : step.toInt ≠ 0 := fun hz => hstep (BitVec.eq_of_toInt_eq hz)
  obtain ⟨vm₁, henters, hholds, hat, -⟩ := enters (C := C) h
  have hnear : Near step.toInt first.toInt := by
    have hf := BitVec.two_mul_toInt_lt (x := first)
    have hf' := BitVec.le_two_mul_toInt (x := first)
    unfold Near
    split <;> omega
  constructor
  · rintro ⟨vm₂, henters₂, hfollows⟩
    obtain rfl := henters.unique henters₂
    by_contra hnot
    rw [not_or, not_or] at hnot
    obtain ⟨hlive, hfirst, hsecond⟩ := hnot
    rw [if_neg hfirst] at hat
    rw [values_of_not_past hne hfirst, values_of_not_past hne hsecond] at hfollows
    exact not_follows hlive (hends vm₁ henters hat) hfollows
  · intro hor
    refine ⟨vm₁, henters, ?_⟩
    by_cases hlive : L.p.Live
    · exact follows_of_live hlive hne hnear hholds hat
    · by_cases hfirst : Past bound.toInt step.toInt first.toInt
      · rw [if_pos hfirst] at hat
        rw [values_of_past hfirst]
        exact hat
      · have hsecond := (hor.resolve_left hlive).resolve_left hfirst
        rw [if_neg hfirst] at hat
        rw [values_of_not_past hne hfirst, values_of_past hsecond]
        exact follows_singleton hlive hat hholds.a

/-- Where all the rounds end, the VM gets behind the loop, and what it does from there on completes the run. -/
theorem Follows.completes {vs : List Int} (h : L.Follows C base vs vm)
    (hends : ∀ v ∈ vs, ∀ vm, vm.At L.fo base L.p.loopstart → vm.register L.a.toNat = whole v →
      ∃ vm', L.Body C base vm vm') :
    ∃ vm', vm'.At L.fo base L.p.after ∧
      ∀ x w, Completes E.doubles C .loop vm' x w → Completes E.doubles C .loop vm x w := by
  induction vs generalizing vm with
  | nil => exact ⟨vm, h, fun _ _ => id⟩
  | cons v vs ih =>
    obtain ⟨hat, hv, hnext⟩ := h
    obtain ⟨vm', hbody⟩ := hends v List.mem_cons_self vm hat hv
    obtain ⟨vm'', ⟨vm₁, hlands, hdecides⟩, hfollows⟩ := hnext vm' hbody
    obtain ⟨vmₑ, hafter, hrun⟩ := ih hfollows fun w hw => hends w (List.mem_cons_of_mem v hw)
    refine ⟨vmₑ, hafter, fun x w hw => hbody.ends.completes ?_⟩
    have hw₁ : Completes E.doubles C .loop vm₁ x w := by
      split at hdecides
      · exact hdecides.completes (hrun x w hw)
      · exact hdecides ▸ hrun x w hw
    rcases hlands with ⟨-, rfl⟩ | ⟨-, hturn, -⟩
    · exact hw₁
    · exact hturn.completes hw₁

/-! ## Two loops -/

/-- Where nothing has happened. -/
def fresh : Exits := ⟨.no, .no, .no, 0, 0⟩

/-- `for i = x, y, z;` -/
def empty : ForCode where
  code := [6, 0, 1, 2, 6, 0, 7, 0, 1, 2, 250, 255]
  preloop := 0
  loopstart := 6
  body := ⟨[6, 0, 1, 2, 0, 0], fresh.push, [], []⟩
  after := 12

def emptyLoop : ForLoop (bareEnv (instrAt empty.code)) where
  a := 0
  b := 1
  c := 2
  given := true
  statement ctx := .ok ctx
  code := []
  exits := fresh
  p := empty
  compiled := rfl
  reachable := by decide
  appends pos ctx hopen ctx' hctx := by
    obtain rfl := Except.ok.inj hctx
    have hctx : (0, empty.body) = (pos, ctx) := Except.ok.inj hopen
    obtain ⟨-, rfl⟩ := Prod.mk.inj hctx
    exact ⟨List.prefix_rfl, ⟨nofun, .nil⟩, nofun, fun h => absurd h (by decide)⟩
  apart := by decide
  fo := 0
  final := empty.code
  kept := ⟨Nat.le_refl _, fun _ _ => rfl⟩
  loaded := Env.loaded_instrAt rfl

/-- `for i = x, y, z { if(w) return; continue; }`, with the code of what follows. -/
def skipping : ForCode where
  code := [6, 0, 1, 2, 8, 0, 3, 3, 1, 0, 28, 2, 0, 0]
  preloop := 0
  loopstart := 6
  body := ⟨[6, 0, 1, 2, 0, 0, 3, 3, 1, 0, 28, 2, 0, 0], ⟨.no, .maybe, .no, 1, 0⟩, [⟨11, .maybe⟩], []⟩
  after := 14

def skippingLoop : ForLoop (bareEnv (instrAt (skipping.code ++ [28]))) where
  a := 0
  b := 1
  c := 2
  given := true
  statement := returnOrContinue 3
  code := []
  exits := fresh
  p := skipping
  compiled := rfl
  reachable := by decide
  appends pos ctx hopen ctx' hctx := by
    have hopen : (0, ⟨[6, 0, 1, 2, 0, 0], fresh.push, [], []⟩) = (pos, ctx) := Except.ok.inj hopen
    obtain ⟨-, rfl⟩ := Prod.mk.inj hopen
    obtain rfl : skipping.body = ctx' := Except.ok.inj hctx
    refine ⟨⟨_, rfl⟩, ⟨fun cm hcm => ?_, .cons nofun .nil⟩, fun cm hcm => ?_, fun _ => by decide⟩
    · obtain rfl := List.mem_singleton.mp hcm
      exact ⟨11, rfl, rfl, by decide⟩
    · obtain rfl := List.mem_singleton.mp hcm
      decide
  apart := by decide
  fo := 0
  final := skipping.code ++ [28]
  kept := by
    refine ⟨by decide, fun i hi => List.getElem?_append_left ?_⟩
    have hlen : skipping.code.length = 14 := rfl
    rcases hi with ⟨-, hi⟩ | ⟨-, hi⟩ | ⟨cm, hcm, -, hi⟩
    · exact hi.trans (by decide)
    · exact hi
    · obtain rfl := List.mem_singleton.mp hcm
      simp only at hi
      omega
  loaded := Env.loaded_instrAt rfl

/-- The VM at a loop, with its numbers in registers and `false` in the next register. -/
def atLoop (first step bound : BitVec 32) : Vm :=
  { oneArgument with
    base := 1
    store := { oneArgument.store with
      heap := fun i =>
        match i with
        | 1 => .integer first
        | 2 => .integer step
        | 3 => .integer bound
        | _ => .boolean 0 } }

/-- From 0 to 9, with nothing to do. -/
theorem counts_empty : emptyLoop.Counts (fun _ => .ret Xno.ok) 1 (values 0 9 1) (atLoop 0 1 9) := by
  have hentered : emptyLoop.Entered 1 0 1 9 (atLoop 0 1 9) := ⟨⟨rfl, rfl, rfl⟩, rfl, rfl, rfl⟩
  refine (counts_iff hentered (by decide) fun vm' _ hat => ?_).mpr (.inl (by decide))
  exact ⟨vm', .here ⟨hat.base_eq, .inl hat.pc_eq⟩, hat.fo_eq, rfl, rfl, rfl⟩

theorem skippingLoop_body {C : ObjId → Host} {vm : Vm} (hat : vm.At 0 1 6)
    (hreg : vm.register 3 = .boolean 0) : ∃ vm', skippingLoop.Body C 1 vm vm' := by
  have hexec : (vm.advance 4).exec (bareEnv (instrAt (skipping.code ++ [28]))).doubles (.jumpz 3 1) =
      .next ((vm.advance 4).jump 1) := by
    show Outcome.next (if (vm.register 3).testNz then _ else _) = _
    rw [hreg]
    rfl
  have hturn : Turn (bareEnv (instrAt (skipping.code ++ [28]))).doubles C vm ((vm.advance 4).jump 1) :=
    turn_of_exec (L := skippingLoop) (.jumpz 3 1) hat ⟨rfl, by decide⟩ rfl (fun _ => rfl) hexec
  have hat' : ((vm.advance 4).jump 1).At 0 1 11 := hat.advance.jump rfl
  refine ⟨_, .turn ?_ hturn (.here ⟨hat'.base_eq, .inr ⟨⟨11, .maybe⟩, List.mem_singleton_self _, ?_⟩⟩), hat'.fo_eq,
    rfl, rfl, rfl⟩
  · rintro ⟨-, hpc | ⟨cm, hcm, hpc⟩⟩
    · rw [hat.pc_eq] at hpc
      exact absurd hpc (by decide)
    · obtain rfl := List.mem_singleton.mp hcm
      rw [hat.pc_eq] at hpc
      exact absurd hpc (by decide)
  · rw [hat'.pc_eq]
    rfl

/-- From 0 to 9, where every round ends by `continue`: there is one round. -/
theorem not_counts_skipping :
    skippingLoop.Entered 1 0 1 9 (atLoop 0 1 9) ∧
      (∀ vm : Vm, vm.At 0 1 6 → vm.register 3 = .boolean 0 →
        ∃ vm', skippingLoop.Body (fun _ => .ret Xno.ok) 1 vm vm') ∧
      ¬ skippingLoop.Counts (fun _ => .ret Xno.ok) 1 (values 0 9 1) (atLoop 0 1 9) := by
  have hentered : skippingLoop.Entered 1 0 1 9 (atLoop 0 1 9) := ⟨⟨rfl, rfl, rfl⟩, rfl, rfl, rfl⟩
  refine ⟨hentered, fun vm hat hreg => skippingLoop_body hat hreg, ?_⟩
  rintro ⟨vm, henters, hfollows⟩
  obtain ⟨vm', henters', -, hat, hothers⟩ := enters (C := fun _ => .ret Xno.ok) hentered
  obtain rfl := henters.unique henters'
  have hreg : vm.register 3 = .boolean 0 := hothers 3 (by decide) (by decide) (by decide)
  have hvalues : values 0 9 1 = 0 :: 1 :: [2, 3, 4, 5, 6, 7, 8, 9] := rfl
  rw [hvalues] at hfollows
  exact not_follows (by decide) (skippingLoop_body hat hreg) hfollows

end ForLoop

end Eel
