-- SUMMARY: Where tuple arguments are: what the argument checker accepts, and what TUPC, TSPEC, GETTARGI and PUSHTUP make of it.
import Eel.Vm.CallDiscipline

/-!
# Tuple arguments

The tuples of a call come behind the required arguments and all the optional ones.
-/

namespace Eel

/-- The number of complete tuples that `argc` arguments have. -/
def Function.tuples (f : Function) (argc : Nat) : Nat :=
  if f.reqargs + f.optargs ≤ argc then (argc - f.reqargs - f.optargs) / f.tupargs else 0

/-- The place of an argument in a tuple. -/
def Function.tuplePlace (f : Function) (i j : Nat) : Nat := f.reqargs + f.optargs + i * f.tupargs + j

namespace Vm

variable (E : Env) (vm : Vm)

/-- Argument `n` of the current frame to `R[a]`. -/
def passed (a n : Nat) : Outcome :=
  .next ((vm.qcopyReg a (vm.store.heap ((vm.callframe vm.base).argv + n))).grabReg a)

/-- The default of a member of a tuple to `R[a]`. -/
def defaulted (a j : Nat) : Outcome :=
  match vm.tupargDefault E vm.base j with
  | some v => .next (vm.qcopyReg a v)
  | none => .thrown Xno.highIndex vm

/-- The instructions agree with the number of tuples, for tuple `i` and member `j`, whatever
else is in the VM. -/
def LaidOut (f : Function) (argc i j : Nat) : Prop :=
  ∀ (E : Env) (vm : Vm) (a c : Nat), vm.fn E = f → (vm.callframe vm.base).argc = argc →
    E.indexval (vm.register c) = i →
      vm.exec E (.tupc a) = .next (vm.writeReg a (.integer (BitVec.ofNat 32 (f.tuples argc)))) ∧
      vm.exec E (.tspec c a) = .next (vm.writeReg a (.boolean (if i < f.tuples argc then 1 else 0))) ∧
      vm.exec E (.gettargi a j c) =
        (if i < f.tuples argc then vm.passed a (f.tuplePlace i j) else vm.defaulted E a j) ∧
      vm.exec E .pushtup =
        .next (pushRange ((vm.callframe vm.base).argv + f.tuplePlace 0 0) (f.tuples argc * f.tupargs) vm)

section Arguments

variable {E : Env} {vm : Vm} {fo : ObjId} {f : Function} {argc i j a c n : Nat}

/-- What the checker accepts: the required arguments, and behind the optional ones complete
tuples. -/
theorem checkArgs_ok (ht : 0 < (E.function fo).tupargs) (h : vm.checkArgs E fo = Xno.ok) :
    (E.function fo).reqargs ≤ vm.sp - vm.sbase ∧
      ((E.function fo).reqargs + (E.function fo).optargs ≤ vm.sp - vm.sbase →
        (E.function fo).tupargs ∣ vm.sp - vm.sbase - (E.function fo).reqargs - (E.function fo).optargs) := by
  unfold checkArgs at h
  dsimp only at h
  split at h
  · cases h
  · rename_i hreq
    rw [if_pos (Nat.ne_of_gt ht)] at h
    split at h
    · cases h
    · rename_i htup
      refine ⟨Nat.le_of_not_lt hreq, fun hopt => Nat.dvd_of_mod_eq_zero ?_⟩
      by_contra hmod
      exact htup ⟨hopt, hmod⟩

/-- The tuples are all that follows the required arguments, if there are no optional ones or
if nothing follows. -/
theorem tuples_mul (h : f.optargs = 0 ∨ argc = f.reqargs) (hreq : f.reqargs ≤ argc)
    (hdvd : f.reqargs + f.optargs ≤ argc → f.tupargs ∣ argc - f.reqargs - f.optargs) :
    f.tuples argc * f.tupargs = argc - f.reqargs := by
  unfold Function.tuples
  split
  · rename_i hopt
    rw [Nat.div_mul_cancel (hdvd hopt)]
    omega
  · rename_i hopt
    omega

/-- A tuple that was passed has its arguments among those of the call. -/
theorem tuplePlace_lt (hdvd : f.reqargs + f.optargs ≤ argc → f.tupargs ∣ argc - f.reqargs - f.optargs)
    (hj : j < f.tupargs) : f.tuplePlace i j < argc ↔ i < f.tuples argc := by
  unfold Function.tuples Function.tuplePlace
  split
  · rename_i hopt
    obtain ⟨k, hk⟩ := hdvd hopt
    have ht : 0 < f.tupargs := Nat.lt_of_le_of_lt (Nat.zero_le j) hj
    rw [hk, Nat.mul_div_cancel_left k ht]
    have hargc : argc = f.reqargs + f.optargs + f.tupargs * k := by omega
    rw [hargc, Nat.add_assoc, Nat.add_lt_add_iff_left]
    constructor
    · intro hlt
      by_contra hik
      have := Nat.mul_le_mul_left f.tupargs (Nat.le_of_not_lt hik)
      rw [Nat.mul_comm i] at hlt
      omega
    · intro hik
      have := Nat.mul_le_mul_left f.tupargs (Nat.succ_le_of_lt hik)
      rw [Nat.mul_succ] at this
      rw [Nat.mul_comm i]
      omega
  · rename_i hopt
    constructor
    · intro hlt
      omega
    · intro hlt
      exact absurd hlt (Nat.not_lt_zero i)

theorem targ_eq : targ f j i = f.tuplePlace i j % 2 ^ 32 := by
  unfold targ Function.tuplePlace
  congr 1
  omega

@[simp] theorem pushRange_sp : (pushRange a n vm).sp = vm.sp + n := by
  induction n generalizing a vm with
  | zero => rfl
  | succ n ih =>
    rw [pushRange, ih]
    show vm.sp + 1 + n = vm.sp + (n + 1)
    omega

/-- `GETTARGI` reads an argument that was passed, or the default. -/
theorem exec_gettargi (hf : vm.fn E = f) (hi : E.indexval (vm.register c) = i) :
    vm.exec E (.gettargi a j c) =
      if f.tuplePlace i j % 2 ^ 32 < (vm.callframe vm.base).argc then
        vm.passed a (f.tuplePlace i j % 2 ^ 32)
      else vm.defaulted E a j := by
  subst hf
  show vm.gettarg E a vm.base j (E.indexval (vm.register c)) = _
  unfold gettarg
  rw [hi, if_neg (Int.not_lt.mpr (Int.natCast_nonneg i)), Int.toNat_natCast, targ_eq]
  rfl

end Arguments

/-! ## A frame to try it in -/

section Frame

variable (f : Function) (argc i : Nat)

/-- Every object is the function `f`, and every real is the index `i`. -/
def tupleEnv : Env := { bareEnv fun _ => .nop with function := fun _ => f, realFloor := fun _ => i }

/-- The register of a frame, with arguments that are 1 behind it. -/
def tupleFrame : Vm :=
  { oneArgument with
    store := { oneArgument.store with heap := fun n => if n = 0 then .real 0 else .integer 1 }
    callframe := fun _ => { plainFrame 0 0 with argv := 1, argc := argc } }

end Frame

section Arguments

variable {E : Env} {vm : Vm} {fo : ObjId} {f : Function} {argc i j n : Nat}

/-- An argument is not what a default is. -/
theorem passed_ne_defaulted : (tupleFrame argc).passed 0 n ≠ (tupleFrame argc).defaulted (tupleEnv f i) 0 j := by
  intro h
  have hone : ((((tupleFrame argc).qcopyReg 0 (.integer 1)).grabReg 0).register 0) = .integer 1 := rfl
  have hpassed : (tupleFrame argc).passed 0 n =
      .next (((tupleFrame argc).qcopyReg 0 (.integer 1)).grabReg 0) := by
    unfold passed
    have hheap : (tupleFrame argc).store.heap (((tupleFrame argc).callframe (tupleFrame argc).base).argv + n) =
        .integer 1 := if_neg (by show ¬ 1 + n = 0; omega)
    rw [hheap]
  rw [hpassed] at h
  unfold defaulted at h
  split at h
  · rename_i v hv
    have hnil : v = .nil := by
      unfold tupargDefault at hv
      dsimp only at hv
      split at hv
      · cases hv
      · split at hv
        · exact (Option.some.inj hv).symm
        · cases hv
    subst hnil
    rw [Outcome.next.inj h] at hone
    cases hone
  · cases h

/-- Where the instructions agree, tuples are all that follows the required arguments, and no place comes
back to the arguments. -/
theorem LaidOut.fits (h : LaidOut f argc i j)
    (hdvd : f.reqargs + f.optargs ≤ argc → f.tupargs ∣ argc - f.reqargs - f.optargs) (hreq : f.reqargs ≤ argc) :
    (f.optargs = 0 ∨ argc = f.reqargs) ∧ (i < f.tuples argc ∨ argc ≤ f.tuplePlace i j % 2 ^ 32) := by
  obtain ⟨-, -, hget, hpush⟩ := h (tupleEnv f i) (tupleFrame argc) 0 0 rfl rfl rfl
  constructor
  · have hsp := congrArg Vm.sp (Outcome.next.inj hpush)
    rw [pushRange_sp, pushRange_sp] at hsp
    have hsp : argc - f.reqargs = f.tuples argc * f.tupargs := Nat.add_left_cancel hsp
    unfold Function.tuples at hsp
    split at hsp
    · rename_i hopt
      rw [Nat.div_mul_cancel (hdvd hopt)] at hsp
      omega
    · omega
  · by_contra hno
    obtain ⟨hi, hlt⟩ := not_or.mp hno
    have hlt : f.tuplePlace i j % 2 ^ 32 < ((tupleFrame argc).callframe (tupleFrame argc).base).argc :=
      Nat.lt_of_not_le hlt
    rw [@exec_gettargi _ _ f _ _ 0 0 rfl rfl, if_pos hlt, if_neg hi] at hget
    exact passed_ne_defaulted hget

/-- The instructions count and push what was passed, and read an argument or a default. -/
theorem laidOut_of_fits (ht : 0 < f.tupargs) (hreq : f.reqargs ≤ argc) (hargc : argc < 2 ^ 31)
    (hdvd : f.reqargs + f.optargs ≤ argc → f.tupargs ∣ argc - f.reqargs - f.optargs) (hj : j < f.tupargs)
    (hopt : f.optargs = 0 ∨ argc = f.reqargs) (hwrap : i < f.tuples argc ∨ argc ≤ f.tuplePlace i j % 2 ^ 32) :
    LaidOut f argc i j := by
  intro E vm a c hf hc hi
  have hmul := tuples_mul hopt hreq hdvd
  have hdiv : (argc - f.reqargs) / f.tupargs = f.tuples argc := by
    rw [← hmul, Nat.mul_div_cancel _ ht]
  refine ⟨?_, ?_, ?_, ?_⟩
  · show Outcome.next (vm.writeReg a (.integer (BitVec.ofNat 32 (((vm.callframe vm.base).argc -
      (vm.fn E).reqargs) / (vm.fn E).tupargs)))) = _
    rw [hf, hc, hdiv]
  · show (if E.indexval (vm.register c) < 0 then _ else
      Outcome.next (vm.writeReg a (.boolean (if E.indexval (vm.register c) < (((vm.callframe vm.base).argc -
        (vm.fn E).reqargs) / (vm.fn E).tupargs : Nat) then 1 else 0)))) = _
    rw [hi, if_neg (Int.not_lt.mpr (Int.natCast_nonneg i)), hf, hc, hdiv]
    simp only [Int.ofNat_lt]
  · rw [exec_gettargi hf hi, hc]
    by_cases hit : i < f.tuples argc
    · have hlt := (@tuplePlace_lt f argc i j hdvd hj).mpr hit
      have hmod : f.tuplePlace i j % 2 ^ 32 = f.tuplePlace i j := Nat.mod_eq_of_lt (by omega)
      rw [if_pos hit, hmod, if_pos hlt]
    · rw [if_neg hit, if_neg (Nat.not_lt.mpr (hwrap.resolve_left hit))]
  · show Outcome.next (pushRange ((vm.callframe vm.base).argv + (vm.fn E).reqargs)
      ((vm.callframe vm.base).argc - (vm.fn E).reqargs) vm) = _
    rw [hf, hc, hmul]
    rcases hopt with hopt | hopt
    · unfold Function.tuplePlace
      rw [hopt]
      simp only [Nat.add_zero, Nat.zero_mul]
    · rw [hopt, Nat.sub_self]
      rfl

/-- The instructions agree in a call without optional arguments, or with required ones alone:
`TUPC`, `TSPEC` and `PUSHTUP` take all that follows the required arguments for tuples. The
place that `GETTARGI` computes must not come back to the arguments when it overflows. -/
theorem laidOut_iff (ht : 0 < (E.function fo).tupargs) (hargs : vm.checkArgs E fo = Xno.ok)
    (hargc : vm.sp - vm.sbase < 2 ^ 31) (hj : j < (E.function fo).tupargs) :
    LaidOut (E.function fo) (vm.sp - vm.sbase) i j ↔
      ((E.function fo).optargs = 0 ∨ vm.sp - vm.sbase = (E.function fo).reqargs) ∧
      (i < (E.function fo).tuples (vm.sp - vm.sbase) ∨
        vm.sp - vm.sbase ≤ (E.function fo).tuplePlace i j % 2 ^ 32) := by
  obtain ⟨hreq, hdvd⟩ := checkArgs_ok ht hargs
  constructor
  · intro h
    exact h.fits hdvd hreq
  · intro ⟨hopt, hwrap⟩
    exact laidOut_of_fits ht hreq hargc hdvd hj hopt hwrap

end Arguments

/-- A function with an optional argument, and tuples of one. -/
def optionalAndTuples : Function :=
  { cfunc := false, results := false, reqargs := 0, optargs := 1, tupargs := 1, argdefaults := none
    framesize := 1, cleansize := 1, «module» := 0 }

/-- A function with a required argument, and tuples of two. -/
def requiredAndTuples : Function := { optionalAndTuples with reqargs := 1, optargs := 0, tupargs := 2 }

/-- Five arguments are two tuples behind the required one. -/
theorem laidOut_five : LaidOut requiredAndTuples 5 1 1 :=
  (@laidOut_iff (tupleEnv requiredAndTuples 0) { oneArgument with sp := 6 } 0 1 1 (by decide) (by decide)
    (by decide) (by decide)).mpr (by decide)

/-- One argument is the optional one, and counted as a tuple. -/
theorem not_laidOut_optional :
    { oneArgument with sp := 2 }.checkArgs (tupleEnv optionalAndTuples 0) 0 = Xno.ok ∧
      ¬ LaidOut optionalAndTuples 1 0 0 := by
  refine ⟨rfl, fun h => ?_⟩
  obtain ⟨htupc, -⟩ := h (tupleEnv optionalAndTuples 0) (tupleFrame 1) 0 0 rfl rfl rfl
  have hreg := congrArg (fun vm : Vm => vm.register 0) (Outcome.next.inj htupc)
  revert hreg
  decide

end Vm

end Eel
