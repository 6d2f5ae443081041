-- SUMMARY: What the instructions of counting loops do to registers that hold whole numbers.
import Eel.Core.Doubles
import Eel.Lib.Counting
import Eel.Vm.Decode
import Eel.Vm.Turns

/-!
# Loop instructions

Numbers are doubles. The sums and differences that come up are whole numbers of less than 54 bits.
-/

namespace Eel

/-- The VM of a machine with doubles. -/
def Env.doubles (E : Env) : Env :=
  { E with
    realval := fun v =>
      match v with
      | .integer v => .ok (Binary64.ofInt v.toInt)
      | v => E.realval v
    realAdd := Binary64.add
    realLt := Binary64.lt }

namespace Vm

/-- A whole number in a register, as a real. -/
def whole (n : Int) : Value := .real (Binary64.ofInt n)

/-- The VM is at `pc`, in the frame at `base`, which is one of the function. -/
structure At (fo : ObjId) (base pc : Nat) (vm : Vm) : Prop where
  base_eq : vm.base = base
  fo_eq : vm.fo base = fo
  pc_eq : vm.pc = pc

/-- Behind an instruction of so many bytes. -/
def advance (vm : Vm) (n : Nat) : Vm := { vm with pc := vm.pc + n }

section Registers

variable {vm : Vm} {a b : Nat} {v : Value} {d : Int} {fo : ObjId} {base pc pc' : Nat}

@[simp] theorem register_writeReg_self : (vm.writeReg a v).register a = v := Function.update_self ..

theorem register_writeReg_of_ne (h : b ≠ a) : (vm.writeReg a v).register b = vm.register b :=
  Function.update_of_ne (fun heq => h (Nat.add_left_cancel heq)) ..

@[simp] theorem register_jump : (vm.jump d).register a = vm.register a := rfl

theorem At.writeReg (h : vm.At fo base pc) : (vm.writeReg a v).At fo base pc := ⟨h.base_eq, h.fo_eq, h.pc_eq⟩

theorem At.jump (h : vm.At fo base pc) (hpc : pc + d = pc') : (vm.jump d).At fo base pc' := by
  refine ⟨h.base_eq, h.fo_eq, ?_⟩
  show ((vm.pc : Int) + d).toNat = pc'
  rw [h.pc_eq]
  omega

@[simp] theorem register_advance {n : Nat} : (vm.advance n).register a = vm.register a := rfl

theorem At.advance (h : vm.At fo base pc) {n : Nat} : (vm.advance n).At fo base (pc + n) :=
  ⟨h.base_eq, h.fo_eq, congrArg (· + n) h.pc_eq⟩

/-- An integer has no owners. -/
theorem disownHeap_integer {i : BitVec 32} (h : vm.register a = .integer i) :
    vm.disownHeap (vm.base + a) = vm := by
  show ({ vm with store := vm.store.disown (vm.register a) } : Vm) = vm
  rw [h]
  rfl

end Registers

end Vm

/-! ## Whole numbers -/

section Whole

open Counting

variable {x y : Int}

theorem lt_zero (hx : x.natAbs < 2 ^ 53) : Binary64.lt (Binary64.ofInt x) 0 = decide (x < 0) :=
  Binary64.lt_ofInt (y := 0) hx (by decide)

/-- The test of `PRELOOP` and `LOOP` -/
def exceeds (ra rb rc : BitVec 64) : Bool :=
  if Binary64.lt rb 0 then Binary64.lt ra rc else Binary64.lt rc ra

theorem exceeds_ofInt {v step bound : Int} (hv : v.natAbs < 2 ^ 53) (hstep : step.natAbs < 2 ^ 53)
    (hbound : bound.natAbs < 2 ^ 53) :
    exceeds (Binary64.ofInt v) (Binary64.ofInt step) (Binary64.ofInt bound) = decide (Past bound step v) := by
  unfold exceeds Past
  rw [lt_zero hstep, Binary64.lt_ofInt hv hbound, Binary64.lt_ofInt hbound hv]
  by_cases h : step < 0 <;> simp [h]

end Whole

/-! ## The instructions -/

namespace Vm

open Counting

variable {E : Env} {vm : Vm} {a b c : Nat} {d : Int}

theorem castLoopVar_integer {i : BitVec 32} {k : Vm → BitVec 64 → Outcome} (h : vm.register a = .integer i) :
    vm.castLoopVar E.doubles a k = k (vm.writeReg a (whole i.toInt)) (Binary64.ofInt i.toInt) := by
  rw [castLoopVar, h]
  simp only [Env.doubles, disownHeap_integer h, whole]

theorem castLoop_integer {i : BitVec 32} {k : Vm → BitVec 64 → Outcome} (h : vm.register a = .integer i) :
    vm.castLoop E.doubles a k = k (vm.writeReg a (whole i.toInt)) (Binary64.ofInt i.toInt) := by
  rw [castLoop, h]
  simp only [Env.doubles, whole]

/-- The test, as the instructions have it. -/
theorem exceeds_eq {α : Type} (ra rb rc : BitVec 64) (x y : α) :
    (if E.doubles.realLt rb 0 then (if E.doubles.realLt ra rc then x else y)
      else if E.doubles.realLt rc ra then x else y) = if exceeds ra rb rc then x else y := by
  show (if Binary64.lt rb 0 then (if Binary64.lt ra rc then x else y)
    else if Binary64.lt rc ra then x else y) = _
  unfold exceeds
  split <;> rfl

/-- `PRELOOP` makes reals of the three numbers, and leaves the loop if the first is beyond the bound. -/
theorem exec_preloop {first step bound : BitVec 32} (ha : vm.register a = .integer first)
    (hb : vm.register b = .integer step) (hc : vm.register c = .integer bound) (hab : b ≠ a) (hac : c ≠ a)
    (hbc : c ≠ b) :
    vm.exec E.doubles (.preloop a b c d) =
      let vm := ((vm.writeReg a (whole first.toInt)).writeReg b (whole step.toInt)).writeReg c (whole bound.toInt)
      .next (if Past bound.toInt step.toInt first.toInt then vm.jump d else vm) := by
  have hb' : (vm.writeReg a (whole first.toInt)).register b = .integer step := by
    rw [register_writeReg_of_ne hab, hb]
  have hc' : ((vm.writeReg a (whole first.toInt)).writeReg b (whole step.toInt)).register c = .integer bound := by
    rw [register_writeReg_of_ne hbc, register_writeReg_of_ne hac, hc]
  rw [exec, castLoopVar_integer ha, castLoop_integer hb', castLoop_integer hc', exceeds_eq,
    exceeds_ofInt (natAbs_toInt_lt _) (natAbs_toInt_lt _) (natAbs_toInt_lt _)]
  simp only [decide_eq_true_eq]

/-- `LOOP` adds the step, and goes on with the loop unless the sum is beyond the bound. -/
theorem exec_loop {v step bound : Int} (ha : vm.register a = whole v) (hb : vm.register b = whole step)
    (hc : vm.register c = whole bound) (hv : v.natAbs < 2 ^ 53)
    (hstep : step.natAbs < 2 ^ 53) (hbound : bound.natAbs < 2 ^ 53) (hsum : (v + step).natAbs < 2 ^ 53) :
    vm.exec E.doubles (.loop a b c d) =
      let vm := vm.writeReg a (whole (v + step))
      .next (if Past bound step (v + step) then vm else vm.jump d) := by
  have hcast {k : Vm → BitVec 64 → Outcome} :
      vm.castLoopVar E.doubles a k = k vm (Binary64.ofInt v) := by
    rw [castLoopVar, ha]
    rfl
  have hadd : E.doubles.realAdd (Binary64.ofInt v) (Binary64.ofInt step) = Binary64.ofInt (v + step) :=
    Binary64.add_ofInt hv hstep hsum
  rw [exec, hcast, hb, hc]
  simp only [whole, hadd]
  rw [exceeds_eq, exceeds_ofInt hsum hstep hbound]
  simp only [decide_eq_true_eq]

/-- `LDI`. -/
theorem exec_ldi {n : Int} : vm.exec E (.ldi a n) = .next (vm.writeReg a (.integer (BitVec.ofInt 32 n))) := rfl

end Vm

end Eel
