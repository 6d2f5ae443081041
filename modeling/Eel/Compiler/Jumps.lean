-- SUMMARY: Branches whose targets are set after they were emitted, and what the VM and the compiler read back.
import Eel.Compiler.Coder

/-!
# Jumps

A branch is emitted with the offset zero, which stands for a target that has not been set.
-/

namespace Eel

/-- What stops `eel_code_setjump`. -/
inductive JumpError where
  | nonBranch
  | alreadySet
  | outOfRange
  deriving DecidableEq

/-- The messages. -/
def JumpError.message : JumpError → String
  | nonBranch => "eel_code_setjump() used on non branch instruction!"
  | alreadySet => "eel_code_setjump() used on branch instruction that has already been set!"
  | outOfRange => "Relative jump out of range!"

/-- `eel_get_offset_pos`: where the offset is in a branch, and the size of the instruction. -/
def getOffsetPos : Opcode → Option (Nat × Nat)
  | .jump => some (Layout.sAx.osize - 2, Layout.sAx.osize)
  | .jumpz | .jumpnz => some (Layout.AsBx.osize - 2, Layout.AsBx.osize)
  | .«switch» => some (Layout.ABxsCx.osize - 2, Layout.ABxsCx.osize)
  | .preloop | .loop => some (Layout.ABCsDx.osize - 2, Layout.ABCsDx.osize)
  | _ => none

namespace Code

/-- The code from `pos` on: `e.code + pos`. -/
def ins (code : List Byte) (pos i : Nat) : Byte := (code[pos + i]?).getD 0

/-- The two bytes of an offset. -/
def putOffset (code : List Byte) (i : Nat) (v : BitVec 32) : List Byte :=
  (code.set i ((v &&& 255#32).setWidth 8)).set (i + 1) ((v.sshiftRight 8).setWidth 8)

/-- `eel_code_setjump`. With code generation disabled, positions are negative. -/
def setjump (code : List Byte) (pos whereto : Int) : Except JumpError (List Byte) :=
  if pos < 0 then .ok code
  else
    let ins := ins code pos.toNat
    match (Opcode.ofByte (ins 0)).bind getOffsetPos with
    | none => .error .nonBranch
    | some (offspos, isize) =>
      if signed (os16 ins offspos) ≠ 0 then .error .alreadySet
      else
        let whereto := whereto - (pos + isize)
        if whereto < -32768 ∨ 32767 < whereto then .error .outOfRange
        else .ok (putOffset code (pos.toNat + offspos) (BitVec.ofInt 32 whereto))

/-- `eel_code_getjump`. -/
def getjump (code : List Byte) (pos : Int) : Int :=
  if pos < 0 then -2
  else
    let ins := ins code pos.toNat
    match (Opcode.ofByte (ins 0)).bind getOffsetPos with
    | none => -2
    | some (offspos, isize) =>
      let whereto := signed (os16 ins offspos)
      if whereto = 0 then -1 else whereto - pos + isize

/-- Where the VM goes on from the branch at `pc`, if it jumps. -/
def branchTarget (code : List Byte) (pc : Nat) : Option Int :=
  match fetchCode code pc with
  | some (.jump, [a], pc) => some (pc + a)
  | some (.jumpz, [_, b], pc) | some (.jumpnz, [_, b], pc) => some (pc + b)
  | some (.«switch», [_, _, c], pc) => some (pc + c)
  | some (.preloop, [_, _, _, d], pc) | some (.loop, [_, _, _, d], pc) => some (pc + d)
  | _ => none

/-! ## Offsets -/

section Offsets

variable {code : List Byte} {pos offspos isize i : Nat} {op : Opcode} {v : BitVec 32} {t : Int}

@[simp] theorem length_putOffset : (putOffset code i v).length = code.length := by
  simp [putOffset]

theorem getElem?_putOffset_of_ne {j : Nat} (h : j ≠ i) (h' : j ≠ i + 1) :
    (putOffset code i v)[j]? = code[j]? := by
  unfold putOffset
  rw [List.getElem?_set_ne h'.symm, List.getElem?_set_ne h.symm]

/-- The offset that was put is the one that is read. -/
theorem os16_putOffset (h : pos + i + 1 < code.length) :
    os16 (ins (putOffset code (pos + i) v) pos) i = (v.setWidth 16).signExtend 32 := by
  have hi : pos + i < code.length := Nat.lt_of_succ_lt h
  refine os16_word ?_ ?_
  · simp [ins, putOffset, hi]
  · simp [ins, putOffset, ← Nat.add_assoc, h]

/-- An offset is the same in two bytes. -/
theorem signed_offset (h : -32768 ≤ t) (h' : t ≤ 32767) :
    signed (((BitVec.ofInt 32 t).setWidth 16).signExtend 32) = t := by
  have ht : (BitVec.ofInt 32 t).toInt = t := by
    rw [BitVec.toInt_ofInt, Int.bmod]
    omega
  have hfits : OperandKind.s16.Fits (BitVec.ofInt 32 t).toInt := by
    rw [ht]
    exact ⟨h, h'⟩
  rw [sword_fits hfits]
  exact ht

/-- The VM adds the offset to the place behind the instruction. -/
theorem branchTarget_eq (hop : Opcode.ofByte (ins code pos 0) = some op)
    (hpos : getOffsetPos op = some (offspos, isize)) :
    branchTarget code pos = some (pos + isize + signed (os16 (ins code pos) offspos)) := by
  have hfetch : fetchCode code pos =
      some (op, opr (ins code pos) op.layout, pos + op.layout.osize) := by
    show (Opcode.ofByte (ins code pos 0)).map _ = _
    rw [hop]
    rfl
  unfold branchTarget
  rw [hfetch]
  cases op <;> cases hpos <;> rfl

end Offsets

/-! ## Setting a branch -/

/-- There is a branch at `pos`, whose target has not been set. -/
structure Unset (code : List Byte) (pos : Nat) (op : Opcode) (offspos isize : Nat) : Prop where
  opcode : Opcode.ofByte (ins code pos 0) = some op
  offset : getOffsetPos op = some (offspos, isize)
  inside : pos + isize ≤ code.length
  unset : signed (os16 (ins code pos) offspos) = 0

/-- The VM goes to the target that was set, the compiler gets it back, and no other byte of
the code changes. -/
def SetsTo (code : List Byte) (pos offspos : Nat) (t : Int) : Prop :=
  ∃ code', setjump code pos t = .ok code' ∧ branchTarget code' pos = some t ∧
    code'.length = code.length ∧
    (∀ i, i ≠ pos + offspos → i ≠ pos + offspos + 1 → code'[i]? = code[i]?) ∧
    getjump code' pos = t

section Setting

variable {code : List Byte} {pos offspos isize : Nat} {op : Opcode} {t : Int}

theorem getOffsetPos_lt (h : getOffsetPos op = some (offspos, isize)) :
    0 < offspos ∧ offspos + 2 = isize := by
  cases op <;> cases h <;> decide

theorem Unset.setjump (h : Unset code pos op offspos isize) (hlo : -32768 ≤ t - (pos + isize))
    (hhi : t - (pos + isize) ≤ 32767) :
    Code.setjump code pos t =
      .ok (putOffset code (pos + offspos) (BitVec.ofInt 32 (t - (pos + isize)))) := by
  have hrange : ¬ (t - (pos + isize) < -32768 ∨ 32767 < t - (pos + isize)) := by omega
  unfold Code.setjump
  rw [if_neg (Int.not_lt.mpr (Int.natCast_nonneg pos)), Int.toNat_natCast]
  simp only [h.opcode, Option.bind_some, h.offset, h.unset, ne_eq, not_true, if_false, if_neg hrange]

/-- What is read from the code in which the offset was put. -/
theorem Unset.put (h : Unset code pos op offspos isize) (hlo : -32768 ≤ t) (hhi : t ≤ 32767) :
    Opcode.ofByte (ins (putOffset code (pos + offspos) (BitVec.ofInt 32 t)) pos 0) = some op ∧
      signed (os16 (ins (putOffset code (pos + offspos) (BitVec.ofInt 32 t)) pos) offspos) = t := by
  obtain ⟨hlt, hsize⟩ := getOffsetPos_lt h.offset
  have hinside := h.inside
  constructor
  · rw [← h.opcode]
    unfold ins
    rw [getElem?_putOffset_of_ne (by omega) (by omega)]
  · rw [os16_putOffset (by omega)]
    exact signed_offset hlo hhi

theorem getjump_eq (hop : Opcode.ofByte (ins code pos 0) = some op)
    (hpos : getOffsetPos op = some (offspos, isize)) :
    getjump code pos =
      if signed (os16 (ins code pos) offspos) = 0 then -1
      else signed (os16 (ins code pos) offspos) - pos + isize := by
  unfold getjump
  rw [if_neg (Int.not_lt.mpr (Int.natCast_nonneg pos)), Int.toNat_natCast]
  simp only [hop, Option.bind_some, hpos]

/-- The VM always goes where a branch was set to. The compiler gets that back from the start
of the code alone, where the position that it subtracts is zero. -/
theorem setsTo_iff (h : Unset code pos op offspos isize) (hlo : -32768 ≤ t - (pos + isize))
    (hhi : t - (pos + isize) ≤ 32767) : SetsTo code pos offspos t ↔ pos = 0 ∧ t ≠ isize := by
  obtain ⟨hop, hoffset⟩ := h.put hlo hhi
  have hset := h.setjump hlo hhi
  have hget := getjump_eq hop h.offset
  have htarget := branchTarget_eq hop h.offset
  rw [hoffset] at hget htarget
  constructor
  · rintro ⟨code', hset', -, -, -, hget'⟩
    obtain rfl := Except.ok.inj (hset.symm.trans hset')
    rw [hget'] at hget
    split at hget
    · omega
    · omega
  · rintro ⟨rfl, ht⟩
    refine ⟨_, hset, ?_, length_putOffset, fun i hi hi' => getElem?_putOffset_of_ne hi hi', ?_⟩
    · rw [htarget]
      congr 1
      omega
    · rw [hget, if_neg (by omega)]
      omega

end Setting

/-- A jump at the start of the code, to the end of it. -/
theorem setsTo_start : SetsTo [Opcode.jump.byte, 0, 0, 0, 0] 0 1 5 :=
  (@setsTo_iff _ 0 1 3 .jump 5 ⟨rfl, rfl, by decide, rfl⟩ (by decide) (by decide)).mpr (by decide)

/-- A jump from 1 to 6 is read back as one to 4. -/
theorem not_setsTo_six : ¬ SetsTo [Opcode.nop.byte, Opcode.jump.byte, 0, 0, 0, 0, 0] 1 1 6 := by
  rintro ⟨code', hset, -, -, -, hget⟩
  have heval : setjump [Opcode.nop.byte, Opcode.jump.byte, 0, 0, 0, 0, 0] (1 : Nat) 6 =
      .ok [Opcode.nop.byte, Opcode.jump.byte, 2, 0, 0, 0, 0] := rfl
  obtain rfl := Except.ok.inj (heval.symm.trans hset)
  revert hget
  decide

end Code

end Eel
