-- SUMMARY: The operators on integers and booleans, as far as C defines what they compute.
import Eel.Core.IntegerOps
import Eel.Lib.CInt

/-!
# Defined operators

The integer cases of the operators are C operators, here with no result where C has none:
for a division that traps, a shift by a count that is negative or too large, and a real
that does not fit an integer. Where there is a result, it is that of the VM.
-/

namespace Eel

/-- How an operator ends, if it does. -/
abbrev Defined := Option (Except Xno Value)

namespace Defined

def give (v : Option (BitVec 32)) : Defined := v.map fun v => .ok (.integer v)

def throw (x : Xno) : Defined := some (.error x)

theorem give_isSome (v : Option (BitVec 32)) : (give v).isSome ↔ v.isSome := by
  rw [give, Option.isSome_map]

/-- The operands that shifts and rotations have a case for. -/
def shiftable : Whole → Whole → Bool
  | .integer, .integer | .integer, .boolean | .boolean, .integer => true
  | _, _ => false

section Operators

variable (k k' : Whole) (a b : BitVec 32)

/-- `eel_op_power`, with how results are rounded. -/
def opPower (round : ℚ → ℚ) : Defined :=
  give ((CInt.power? a.toInt b.toInt).bind fun q => CInt.ofInt? ⌊round q⌋)

/-- `eel_op_mod`. -/
def opMod : Defined := if b = 0 then throw Xno.divByZero else give (CInt.mod? a b)

/-- `eel_op_div`. -/
def opDiv (R : Reals) : Defined :=
  if b = 0 then throw Xno.divByZero
  else if k' = .boolean then give (CInt.div? a b)
  else some (.ok (.real (R.div (R.ofInt a) (R.ofInt b))))

/-- `eel_op_shl`. -/
def opShl : Defined := if shiftable k k' then give (CInt.shl? a b.toInt) else throw Xno.notImplemented

/-- `eel_op_shr`. -/
def opShr : Defined := if shiftable k k' then give (CInt.shr? a b.toInt) else throw Xno.notImplemented

/-- `eel_op_rol`. -/
def opRol : Defined :=
  if shiftable k k' then
    let sh : Int := (b.toNat % 32 : Nat)
    give do
      let up ← CInt.shl? a sh
      let down ← CInt.ushr? a (32 - sh)
      return up ||| down
  else throw Xno.notImplemented

/-- `eel_op_ror`. -/
def opRor : Defined :=
  if shiftable k k' then
    let sh : Int := (b.toNat % 32 : Nat)
    give do
      let down ← CInt.ushr? a sh
      let up ← CInt.shl? a (32 - sh)
      return down ||| up
  else throw Xno.notImplemented

/-- `eel_op_brev`. -/
def opBrev : Defined :=
  if k' = .integer ∧ k ≠ .classid then
    if (32 : BitVec 32).slt b then throw Xno.highValue
    else if b.slt 0 then throw Xno.lowValue
    else give (CInt.ushr? (Meta.reverse a) (32 - b.toInt))
  else throw Xno.notImplemented

/-! ## When an operator is defined -/

/-- Whether a power fits an integer. -/
def PowerFits : Prop :=
  if b.toInt < 0 then a ≠ 0 else CInt.InRange (a.toInt ^ b.toInt.toNat)

theorem toInt_eq_zero (v : BitVec 32) : v.toInt = 0 ↔ v = 0 := by
  rw [← BitVec.toInt_inj]
  rfl

theorem opPower_isSome {round : ℚ → ℚ} (hr : CInt.Rounding round) :
    (opPower a b round).isSome ↔ PowerFits a b := by
  rw [opPower, give_isSome, PowerFits, CInt.power?]
  rcases Int.lt_or_le b.toInt 0 with hneg | hpos
  · rw [if_pos hneg]
    rcases eq_or_ne a 0 with ha | ha
    · rw [if_pos ⟨(toInt_eq_zero a).mpr ha, hneg⟩]
      exact iff_of_false Bool.false_ne_true (absurd ha)
    · have hne : a.toInt ≠ 0 := mt (toInt_eq_zero a).mp ha
      have hle : |(a.toInt : ℚ) ^ b.toInt| ≤ 1 := by
        rw [abs_zpow]
        refine zpow_le_one_of_nonpos₀ ?_ hneg.le
        exact_mod_cast Int.one_le_abs hne
      rw [if_neg (fun h => hne h.1), Option.bind_some, CInt.ofInt?_isSome]
      exact iff_of_true (hr.inRange_inv hle) ha
  · have hpow : (a.toInt : ℚ) ^ b.toInt = ((a.toInt ^ b.toInt.toNat : Int) : ℚ) := by
      rw [← Int.toNat_of_nonneg hpos, zpow_natCast, Int.toNat_natCast, Int.cast_pow]
    rw [if_neg (Int.not_lt.mpr hpos), if_neg (fun h => Int.not_lt.mpr hpos h.2), hpow,
      Option.bind_some, CInt.ofInt?_isSome, hr.inRange_iff]

theorem opMod_isSome : (opMod a b).isSome ↔ ¬(a = BitVec.intMin 32 ∧ b = -1) := by
  rw [opMod]
  split
  · rename_i h
    subst h
    exact iff_of_true rfl (by simp)
  · rename_i h
    rw [give_isSome, CInt.mod?_isSome]
    exact and_iff_right h

theorem opDiv_isSome (R : Reals) :
    (opDiv k' a b R).isSome ↔ (k' = .boolean → ¬(a = BitVec.intMin 32 ∧ b = -1)) := by
  rw [opDiv]
  split
  · rename_i h
    subst h
    exact iff_of_true rfl (by simp)
  · rename_i h
    split
    · rename_i hk
      rw [give_isSome, CInt.div?_isSome]
      exact ⟨fun hd _ => hd.2, fun ht => ⟨h, ht hk⟩⟩
    · rename_i hk
      exact iff_of_true rfl (fun hk' => absurd hk' hk)

/-- An operator with a case for shiftable operands is defined if that case is. -/
theorem case_isSome {p : Prop} {o : Option (BitVec 32)} (h : o.isSome ↔ p) :
    (if shiftable k k' then give o else throw Xno.notImplemented).isSome ↔ (shiftable k k' → p) := by
  split
  · rename_i hs
    rw [give_isSome, h]
    simp [hs]
  · rename_i hs
    exact iff_of_true rfl (fun hs' => absurd hs' hs)

theorem opShl_isSome : (opShl k k' a b).isSome ↔ (shiftable k k' → CInt.IsCount b.toInt) :=
  case_isSome k k' (CInt.shl?_isSome a b.toInt)

theorem opShr_isSome : (opShr k k' a b).isSome ↔ (shiftable k k' → CInt.IsCount b.toInt) :=
  case_isSome k k' (CInt.shr?_isSome a b.toInt)

/-- Two shifts that make up a rotation are defined unless the count is 0, or a whole turn. -/
theorem rotation_isSome {n : Nat} {f g : Int → Option (BitVec 32)}
    (hf : ∀ m, (f m).isSome ↔ CInt.IsCount m) (hg : ∀ m, (g m).isSome ↔ CInt.IsCount m) (hn : n < 32) :
    (do let u ← f n; let v ← g (32 - n); return u ||| v : Option (BitVec 32)).isSome ↔ n ≠ 0 := by
  have hfn : (f n).isSome := (hf n).mpr ⟨by omega, by omega⟩
  obtain ⟨u, hu⟩ := Option.isSome_iff_exists.mp hfn
  have hgn : (g (32 - n)).isSome ↔ n ≠ 0 := by
    rw [hg, CInt.IsCount]
    omega
  rw [hu, ← hgn]
  cases g (32 - n) <;> rfl

theorem opRol_isSome : (opRol k k' a b).isSome ↔ (shiftable k k' → b.toNat % 32 ≠ 0) :=
  case_isSome k k' (rotation_isSome (CInt.shl?_isSome a) (CInt.ushr?_isSome a) (Nat.mod_lt _ (by decide)))

theorem opRor_isSome : (opRor k k' a b).isSome ↔ (shiftable k k' → b.toNat % 32 ≠ 0) :=
  case_isSome k k' (rotation_isSome (CInt.ushr?_isSome a) (CInt.shl?_isSome a) (Nat.mod_lt _ (by decide)))

theorem opBrev_isSome : (opBrev k k' a b).isSome ↔ (k' = .integer ∧ k ≠ .classid → b ≠ 0) := by
  rw [opBrev]
  split
  · rename_i hk
    split
    · rename_i hhigh
      exact iff_of_true rfl (fun _ h => absurd (h ▸ hhigh) (by decide))
    split
    · rename_i hlow
      exact iff_of_true rfl (fun _ h => absurd (h ▸ hlow) (by decide))
    · rename_i hhigh hlow
      rw [BitVec.slt_iff_toInt_lt] at hhigh hlow
      have h32 : (32 : BitVec 32).toInt = 32 := rfl
      have h0 : (0 : BitVec 32).toInt = 0 := rfl
      rw [h32] at hhigh
      rw [h0] at hlow
      rw [give_isSome, CInt.ushr?_isSome, CInt.IsCount]
      constructor
      · rintro h - rfl
        exact absurd h.2 (by decide)
      · intro h
        have hne : b.toInt ≠ 0 := mt (toInt_eq_zero b).mp (h hk)
        omega
  · rename_i hk
    exact iff_of_true rfl (fun hk' => absurd hk' hk)

/-! ## The operators -/

/-- The operators that compute with machine integers. -/
inductive MachineOp where
  | power | mod | div
  | shl | shr | rol | ror | brev
  deriving DecidableEq

def MachineOp.operator : MachineOp → Operator
  | power => .power
  | mod => .mod
  | div => .div
  | shl => .shl
  | shr => .shr
  | rol => .rol
  | ror => .ror
  | brev => .brev

/-- The result of an operator, if there is one. -/
def operate (R : Reals) (round : ℚ → ℚ) : MachineOp → Defined
  | .power => opPower a b round
  | .mod => opMod a b
  | .div => opDiv k' a b R
  | .shl => opShl k k' a b
  | .shr => opShr k k' a b
  | .rol => opRol k k' a b
  | .ror => opRor k k' a b
  | .brev => opBrev k k' a b

/-- The operands that an operator is defined for. -/
def OperandsFit : MachineOp → Prop
  | .power => PowerFits a b
  | .mod => ¬(a = BitVec.intMin 32 ∧ b = -1)
  | .div => k' = .boolean → ¬(a = BitVec.intMin 32 ∧ b = -1)
  | .shl | .shr => shiftable k k' → CInt.IsCount b.toInt
  | .rol | .ror => shiftable k k' → b.toNat % 32 ≠ 0
  | .brev => k' = .integer ∧ k ≠ .classid → b ≠ 0

/-- An operator computes nothing undefined just when its operands fit. -/
theorem operate_isSome_iff (R : Reals) {round : ℚ → ℚ} (hr : CInt.Rounding round) (op : MachineOp) :
    (operate k k' a b R round op).isSome ↔ OperandsFit k k' a b op := by
  cases op with
  | power => exact opPower_isSome a b hr
  | mod => exact opMod_isSome a b
  | div => exact opDiv_isSome k' a b R
  | shl => exact opShl_isSome k k' a b
  | shr => exact opShr_isSome k k' a b
  | rol => exact opRol_isSome k k' a b
  | ror => exact opRor_isSome k k' a b
  | brev => exact opBrev_isSome k k' a b

end Operators

theorem operate_isSome_rotation :
    let R := Reals.binary64 (fun a _ => a) (fun a _ => a)
    (operate .integer .boolean 5 1 R id .rol).isSome ↔ OperandsFit .integer .boolean 5 1 .rol :=
  operate_isSome_iff _ _ _ _ _ ⟨monotone_id, fun _ _ => rfl⟩ _

/-- The machine has no remainder of the smallest integer by -1, and no shift by 32, which is
what rotations by 0 and reversals of no bits have in them. -/
theorem operate_undefined :
    let R := Reals.binary64 (fun a _ => a) (fun a _ => a)
    ¬(operate .integer .integer (BitVec.intMin 32) (-1) R id .mod).isSome ∧
      ¬(operate .integer .integer 1 32 R id .shl).isSome ∧
      ¬(operate .integer .integer 1 0 R id .rol).isSome ∧
      ¬(operate .integer .integer 1 0 R id .brev).isSome :=
  ⟨by decide, by decide, by decide, by decide⟩

/-! ## The VM -/

section Vm

variable {W : Type} {M : Meta W} {k k' : Whole} {a b : BitVec 32} {round : ℚ → ℚ} {w : W}

/-- What the VM makes of an operator that ends. -/
def result (w : W) : Except Xno Value → Except (Stop W) (Written × W)
  | .ok v => .ok (.value v, w)
  | .error x => .error (.thrown x w)

theorem give_eq_some {o : Option (BitVec 32)} {r : Except Xno Value} (h : give o = some r) :
    ∃ v, o = some v ∧ r = .ok (.integer v) := by
  obtain ⟨v, hv, hr⟩ := Option.map_eq_some_iff.mp h
  exact ⟨v, hv, hr.symm⟩

theorem some_of_ite {α : Type} {p : Prop} [Decidable p] {x y : α} (h : (if p then some x else none) = some y) :
    p ∧ x = y := by
  split at h
  · exact ⟨‹p›, Option.some_inj.mp h⟩
  · exact nomatch h

/-- The value in a register. -/
def operand (k : Whole) (a : BitVec 32) : Value := (Prim.whole k a).value

theorem operands_whole :
    operands (operand k a) (operand k' b) = some (.whole k (some a), .whole k' (some b)) :=
  operands_value (.whole k a) (.whole k' b)

/-- A divisor that is 0 is refused before anything is divided. -/
theorem nonzero_refines {f : Op W} {d : Defined} {r : Except Xno Value}
    (hf : d = some r → f w = result w r)
    (h : (if b = 0 then throw Xno.divByZero else d) = some r) :
    Meta.nonzero (.whole k' (some b)) f w = result w r := by
  simp only [Meta.nonzero, CaseOperand.nz, Option.map_some, Op.read]
  split at h
  · rename_i hb
    obtain rfl := Option.some_inj.mp h
    rw [if_neg (by simp [hb])]
    rfl
  · rename_i hb
    rw [if_pos (decide_eq_true hb)]
    exact hf h

theorem opMod_refines {r : Except Xno Value} (h : opMod a b = some r) :
    M.operate (operand k a) .mod (operand k' b) w = result w r := by
  simp only [Meta.operate, Meta.opMod, operands_whole]
  refine nonzero_refines (fun hr => ?_) h
  obtain ⟨v, hv, rfl⟩ := give_eq_some hr
  obtain ⟨-, rfl⟩ := some_of_ite hv
  rfl

theorem opDiv_refines {r : Except Xno Value} (h : opDiv k' a b M.real = some r) :
    M.operate (operand k a) .div (operand k' b) w = result w r := by
  cases k' with
  | boolean =>
    simp only [Meta.operate, Meta.opDiv, operands_whole]
    refine nonzero_refines (fun hr => ?_) h
    obtain ⟨v, hv, rfl⟩ := give_eq_some hr
    obtain ⟨-, rfl⟩ := some_of_ite hv
    rfl
  | integer | classid =>
    simp only [Meta.operate, Meta.opDiv, operands_whole]
    refine nonzero_refines (fun hr => ?_) h
    obtain rfl := Option.some_inj.mp hr
    rfl

theorem fallback_whole (op : Operator) :
    M.fallback (operand k a) op (operand k' b) w = result w (.error Xno.notImplemented) := by
  rcases k with _ | _ | _ <;> rcases k' with _ | _ | _ <;> rfl

/-- A shift of the VM is one of C where the count is that of a bit. -/
theorem shift_refines {op : Operator} {f : BitVec 32 → BitVec 32 → BitVec 32}
    {g : BitVec 32 → Int → Option (BitVec 32)} {r : Except Xno Value}
    (hg : ∀ v, g a b.toInt = some v → f a b = v)
    (h : (if shiftable k k' then give (g a b.toInt) else throw Xno.notImplemented) = some r) :
    M.shift op f (operand k a) (operand k' b) w = result w r := by
  split at h
  · rename_i hs
    obtain ⟨v, hv, rfl⟩ := give_eq_some h
    obtain rfl := hg v hv
    rcases k with _ | _ | _ <;> rcases k' with _ | _ | _ <;>
      first | exact absurd hs Bool.false_ne_true | (simp only [Meta.shift, operands_whole]; rfl)
  · rename_i hs
    obtain rfl := Option.some_inj.mp h
    rcases k with _ | _ | _ <;> rcases k' with _ | _ | _ <;>
      first | exact absurd rfl hs | (simp only [Meta.shift, operands_whole]; exact fallback_whole op)

/-- A count that is one of a bit is not reduced. -/
theorem toNat_count (h : CInt.IsCount b.toInt) : b.toInt.toNat = b.toNat % 32 := by
  obtain ⟨h0, h32⟩ := h
  rw [BitVec.toInt_eq_toNat_cond] at h0 h32 ⊢
  have := b.isLt
  split at h0 <;> omega

theorem opShl_refines {r : Except Xno Value} (h : opShl k k' a b = some r) :
    M.operate (operand k a) .shl (operand k' b) w = result w r := by
  refine shift_refines (fun v hv => ?_) h
  obtain ⟨hc, rfl⟩ := some_of_ite hv
  rw [Meta.shl, toNat_count hc]

theorem opShr_refines {r : Except Xno Value} (h : opShr k k' a b = some r) :
    M.operate (operand k a) .shr (operand k' b) w = result w r := by
  refine shift_refines (fun v hv => ?_) h
  obtain ⟨hc, rfl⟩ := some_of_ite hv
  rw [Meta.shr, toNat_count hc]

/-- A rotation of the VM is made of two shifts of C unless it is by whole turns. -/
theorem rotate_refines {op : Operator} {f : BitVec 32 → Nat → BitVec 32} {o : Option (BitVec 32)}
    {r : Except Xno Value} (ho : ∀ v, o = some v → f a (b.toNat % 32) = v)
    (h : (if shiftable k k' then give o else throw Xno.notImplemented) = some r) :
    M.rotate op f (operand k a) (operand k' b) w = result w r := by
  split at h
  · rename_i hs
    obtain ⟨v, hv, rfl⟩ := give_eq_some h
    obtain rfl := ho v hv
    rcases k with _ | _ | _ <;> rcases k' with _ | _ | _ <;>
      first | exact absurd hs Bool.false_ne_true | (simp only [Meta.rotate, operands_whole]; rfl)
  · rename_i hs
    obtain rfl := Option.some_inj.mp h
    rcases k with _ | _ | _ <;> rcases k' with _ | _ | _ <;>
      first | exact absurd rfl hs | (simp only [Meta.rotate, operands_whole]; exact fallback_whole op)

theorem opRol_refines {r : Except Xno Value} (h : opRol k k' a b = some r) :
    M.operate (operand k a) .rol (operand k' b) w = result w r := by
  refine rotate_refines (fun v hv => ?_) h
  obtain ⟨up, hup, hv⟩ := Option.bind_eq_some_iff.mp hv
  obtain ⟨down, hdown, hv⟩ := Option.bind_eq_some_iff.mp hv
  obtain ⟨-, rfl⟩ := some_of_ite hup
  obtain ⟨hc, rfl⟩ := some_of_ite hdown
  obtain rfl := Option.some_inj.mp hv
  have hcount : (32 - ((b.toNat % 32 : Nat) : Int)).toNat = 32 - b.toNat % 32 := by omega
  rw [BitVec.rotateLeft_def, Nat.mod_mod, Int.toNat_natCast, hcount]

theorem opRor_refines {r : Except Xno Value} (h : opRor k k' a b = some r) :
    M.operate (operand k a) .ror (operand k' b) w = result w r := by
  refine rotate_refines (fun v hv => ?_) h
  obtain ⟨down, hdown, hv⟩ := Option.bind_eq_some_iff.mp hv
  obtain ⟨up, hup, hv⟩ := Option.bind_eq_some_iff.mp hv
  obtain ⟨-, rfl⟩ := some_of_ite hdown
  obtain ⟨hc, rfl⟩ := some_of_ite hup
  obtain rfl := Option.some_inj.mp hv
  have hcount : (32 - ((b.toNat % 32 : Nat) : Int)).toNat = 32 - b.toNat % 32 := by omega
  rw [BitVec.rotateRight_def, Nat.mod_mod, Int.toNat_natCast, hcount]

theorem toNat_width (h : CInt.IsCount (32 - b.toInt)) : (32 - b.toInt).toNat = (32 - b).toNat % 32 := by
  obtain ⟨h0, h32⟩ := h
  have h32' : (32 : BitVec 32).toNat = 32 := rfl
  rw [BitVec.toNat_sub, h32']
  rw [BitVec.toInt_eq_toNat_cond] at h0 h32 ⊢
  have := b.isLt
  split at h0 <;> omega

theorem reversal_refines {r : Except Xno Value}
    (h : (if (32 : BitVec 32).slt b then throw Xno.highValue
      else if b.slt 0 then throw Xno.lowValue
      else give (CInt.ushr? (Meta.reverse a) (32 - b.toInt))) = some r) :
    (if (32 : BitVec 32).slt b then Op.throw Xno.highValue
      else if b.slt 0 then Op.throw Xno.lowValue
      else Op.give (.integer (Meta.reverse a >>> ((32 - b).toNat % 32)))) w = result w r := by
  split at h
  · rename_i hhigh
    obtain rfl := Option.some_inj.mp h
    rw [if_pos hhigh]
    rfl
  rename_i hhigh
  split at h
  · rename_i hlow
    obtain rfl := Option.some_inj.mp h
    rw [if_neg hhigh, if_pos hlow]
    rfl
  · rename_i hlow
    obtain ⟨v, hv, rfl⟩ := give_eq_some h
    obtain ⟨hc, rfl⟩ := some_of_ite hv
    rw [if_neg hhigh, if_neg hlow, toNat_width hc]
    rfl

theorem opBrev_refines {r : Except Xno Value} (h : opBrev k k' a b = some r) :
    M.operate (operand k a) .brev (operand k' b) w = result w r := by
  rw [opBrev] at h
  split at h
  · rename_i hk
    obtain ⟨rfl, hk⟩ := hk
    cases k with
    | integer | boolean =>
      simp only [Meta.operate, Meta.opBrev, operands_whole, Op.read]
      exact reversal_refines h
    | classid => exact absurd rfl hk
  · rename_i hk
    obtain rfl := Option.some_inj.mp h
    rcases k with _ | _ | _ <;> rcases k' with _ | _ | _ <;>
      first
        | exact absurd ⟨rfl, by decide⟩ hk
        | (simp only [Meta.operate, Meta.opBrev, operands_whole]; exact fallback_whole .brev)

/-- A power that fits is the one that the library computes. -/
def PowerRounds (R : Reals) (round : ℚ → ℚ) : Prop :=
  ∀ a b v, opPower a b round = some (.ok (.integer v)) → R.floor (R.pow (R.ofInt a) (R.ofInt b)) = v

theorem opPower_refines (hpow : PowerRounds M.real round) {r : Except Xno Value}
    (h : opPower a b round = some r) : M.operate (operand k a) .power (operand k' b) w = result w r := by
  obtain ⟨v, hv, rfl⟩ := give_eq_some h
  simp only [Meta.operate, Meta.opPower, operands_whole, Meta.onWholes, Op.read, hpow a b v h]
  rfl

/-- What C defines, the VM computes. -/
theorem operate_refines (hpow : PowerRounds M.real round) {op : MachineOp} {r : Except Xno Value}
    (h : operate k k' a b M.real round op = some r) :
    M.operate (operand k a) op.operator (operand k' b) w = result w r := by
  cases op with
  | power => exact opPower_refines hpow h
  | mod => exact opMod_refines h
  | div => exact opDiv_refines h
  | shl => exact opShl_refines h
  | shr => exact opShr_refines h
  | rol => exact opRol_refines h
  | ror => exact opRor_refines h
  | brev => exact opBrev_refines h

end Vm

end Defined

end Eel
