-- SUMMARY: Emitting instructions: range checks, the bytes of every operand layout, and that the VM reads the operands back.
import Eel.Vm.Opcode
import Mathlib.Data.BitVec

/-!
# Coder

The emitters up to the code buffer; what the optimizer does with the code afterwards is
another matter. Operands are `int`s.
-/

namespace Eel

/-- `EEL_coder`, as far as emitting goes: the code so far, and whether `eel_test_exit`
answers `EEL_EYES`. -/
structure Coder where
  code : List Byte
  dead : Bool

/-- What stops the compiler, for good. -/
inductive CodeError where
  /-- The instruction has another operand layout. -/
  | layout (op : Opcode) (expected : Layout)
  /-- Operands by name, with their values. -/
  | range (op : Opcode) (args : List (String × Int))

/-- The messages, in order. -/
def CodeError.messages : CodeError → List String
  | .layout op expected =>
    ["Instruction " ++ op.name ++ " with operand layout " ++ op.layout.name ++ "; should be " ++
      expected.name ++ "!"]
  | .range op args =>
    (args.map fun arg => "Argument " ++ arg.1 ++ " (" ++ toString arg.2 ++ ") out of range!") ++
      ["Could not generate " ++ op.name ++ " instruction!"]

/-- An operand of an emitter: the bounds of its `EEL_RANGE`, and what goes to the buffer. -/
structure Operand where
  name : String
  lo : Int
  hi : Int
  bytes : BitVec 32 → List Byte

namespace Operand

def byte (name : String) : Operand := ⟨name, 0, 255, fun v => [v.setWidth 8]⟩

def wordBytes (v : BitVec 32) : List Byte :=
  [(v &&& 255#32).setWidth 8, (v.sshiftRight 8).setWidth 8]

def word (name : String) : Operand := ⟨name, 0, 65535, wordBytes⟩

def sword (name : String) : Operand := ⟨name, -32768, 32767, wordBytes⟩

end Operand

namespace Coder

/-- `do_code`: the position of the instruction, negative in dead code. -/
def doCode (cdr : Coder) (ins : List Byte) : Int × Coder :=
  if cdr.dead then (-cdr.code.length, cdr)
  else (cdr.code.length, { cdr with code := cdr.code ++ ins })

/-- The common part of the emitters. -/
def emit (cdr : Coder) (op : Opcode) (expected : Layout) (args : List (Operand × BitVec 32)) :
    Except CodeError (Int × Coder) :=
  if op.layout ≠ expected then .error (.layout op expected)
  else
    let bad := args.filter fun arg => arg.2.toInt < arg.1.lo ∨ arg.1.hi < arg.2.toInt
    if bad ≠ [] then .error (.range op (bad.map fun arg => (arg.1.name, arg.2.toInt)))
    else .ok (cdr.doCode (op.byte :: args.flatMap fun arg => arg.1.bytes arg.2))

open Operand

variable (cdr : Coder) (op : Opcode) (a b c d : BitVec 32)

/-- `eel_code0`. -/
def code0 := cdr.emit op .none []

/-- `eel_codeA`. -/
def codeA := cdr.emit op .A [(byte "A", a)]

/-- `eel_codeAx`. -/
def codeAx := cdr.emit op .Ax [(word "A", a)]

/-- `eel_codeAB`. -/
def codeAB := cdr.emit op .AB [(byte "A", a), (byte "B", b)]

/-- `eel_codeABC`. -/
def codeABC := cdr.emit op .ABC [(byte "A", a), (byte "B", b), (byte "C", c)]

/-- `eel_codeABCD`. -/
def codeABCD := cdr.emit op .ABCD [(byte "A", a), (byte "B", b), (byte "C", c), (byte "D", d)]

/-- `eel_codesAx`. -/
def codesAx := cdr.emit op .sAx [(sword "A", a)]

/-- `eel_codeABx`. -/
def codeABx := cdr.emit op .ABx [(byte "A", a), (word "B", b)]

/-- `eel_codeAsBx`. -/
def codeAsBx := cdr.emit op .AsBx [(byte "A", a), (sword "B", b)]

/-- `eel_codeAxBx`. -/
def codeAxBx := cdr.emit op .AxBx [(word "A", a), (word "B", b)]

/-- `eel_codeAxsBx`. -/
def codeAxsBx := cdr.emit op .AxsBx [(word "A", a), (sword "B", b)]

/-- `eel_codeABCx`. -/
def codeABCx := cdr.emit op .ABCx [(byte "A", a), (byte "B", b), (word "C", c)]

/-- `eel_codeABsCx`. -/
def codeABsCx := cdr.emit op .ABsCx [(byte "A", a), (byte "B", b), (sword "C", c)]

/-- `eel_codeABxCx`. -/
def codeABxCx := cdr.emit op .ABxCx [(byte "A", a), (word "B", b), (word "C", c)]

/-- `eel_codeABxsCx`. -/
def codeABxsCx := cdr.emit op .ABxsCx [(byte "A", a), (word "B", b), (sword "C", c)]

/-- `eel_codeABCDx`. -/
def codeABCDx :=
  cdr.emit op .ABCDx [(byte "A", a), (byte "B", b), (byte "C", c), (word "D", d)]

/-- `eel_codeABCsDx`. -/
def codeABCsDx :=
  cdr.emit op .ABCsDx [(byte "A", a), (byte "B", b), (byte "C", c), (sword "D", d)]

/-- The emitter for the layout of `op`, when it takes that many operands. -/
def codeFor (args : List (BitVec 32)) : Option (Except CodeError (Int × Coder)) :=
  match op.layout, args with
  | .none, [] => some (cdr.code0 op)
  | .A, [a] => some (cdr.codeA op a)
  | .Ax, [a] => some (cdr.codeAx op a)
  | .AB, [a, b] => some (cdr.codeAB op a b)
  | .ABC, [a, b, c] => some (cdr.codeABC op a b c)
  | .ABCD, [a, b, c, d] => some (cdr.codeABCD op a b c d)
  | .sAx, [a] => some (cdr.codesAx op a)
  | .ABx, [a, b] => some (cdr.codeABx op a b)
  | .AsBx, [a, b] => some (cdr.codeAsBx op a b)
  | .AxBx, [a, b] => some (cdr.codeAxBx op a b)
  | .AxsBx, [a, b] => some (cdr.codeAxsBx op a b)
  | .ABCx, [a, b, c] => some (cdr.codeABCx op a b c)
  | .ABsCx, [a, b, c] => some (cdr.codeABsCx op a b c)
  | .ABxCx, [a, b, c] => some (cdr.codeABxCx op a b c)
  | .ABxsCx, [a, b, c] => some (cdr.codeABxsCx op a b c)
  | .ABCDx, [a, b, c, d] => some (cdr.codeABCDx op a b c d)
  | .ABCsDx, [a, b, c, d] => some (cdr.codeABCsDx op a b c d)
  | _, _ => none

end Coder

/-! ## What the layouts declare -/

/-- The kinds of operands, by the documentation of the instruction set. -/
inductive OperandKind where
  /-- `A`: 8 bits unsigned. -/
  | u8
  /-- `Ax`: 16 bits unsigned. -/
  | u16
  /-- `sAx`: 16 bits signed. -/
  | s16
  deriving DecidableEq, Repr

/-- The values of a kind. -/
def OperandKind.Fits (v : Int) : OperandKind → Prop
  | u8 => 0 ≤ v ∧ v ≤ 255
  | u16 => 0 ≤ v ∧ v ≤ 65535
  | s16 => -32768 ≤ v ∧ v ≤ 32767

instance {v : Int} : (k : OperandKind) → Decidable (k.Fits v)
  | .u8 | .u16 | .s16 => inferInstanceAs (Decidable (_ ∧ _))

/-- The operands of a layout, as its name says. -/
def Layout.kinds : Layout → List OperandKind
  | none => []
  | A => [.u8]
  | Ax => [.u16]
  | AB => [.u8, .u8]
  | ABC => [.u8, .u8, .u8]
  | ABCD => [.u8, .u8, .u8, .u8]
  | sAx => [.s16]
  | ABx => [.u8, .u16]
  | AsBx => [.u8, .s16]
  | AxBx => [.u16, .u16]
  | AxsBx => [.u16, .s16]
  | ABCx => [.u8, .u8, .u16]
  | ABsCx => [.u8, .u8, .s16]
  | ABxCx => [.u8, .u16, .u16]
  | ABxsCx => [.u8, .u16, .s16]
  | ABCDx => [.u8, .u8, .u8, .u16]
  | ABCsDx => [.u8, .u8, .u8, .s16]

/-- All operands are there and within their declared ranges. -/
def Layout.Fits (l : Layout) (args : List (BitVec 32)) : Prop :=
  List.Forall₂ (fun k v => OperandKind.Fits (BitVec.toInt v) k) l.kinds args

instance {l : Layout} {args : List (BitVec 32)} : Decidable (l.Fits args) :=
  inferInstanceAs (Decidable (List.Forall₂ _ _ _))

namespace OperandKind

/-- The operand of an emitter. -/
def operand (name : String) : OperandKind → Operand
  | u8 => .byte name
  | u16 => .word name
  | s16 => .sword name

/-- How the operand would be read with the declaration its kind calls for. -/
def read (ins : Nat → Byte) (i : Nat) : OperandKind → Int
  | u8 => unsigned (o8 ins i)
  | u16 => unsigned (o16 ins i)
  | s16 => signed (os16 ins i)

/-- The number of bytes. -/
def width : OperandKind → Nat
  | u8 => 1
  | u16 | s16 => 2

end OperandKind

/-- Operands in a row from position `i`. -/
def readKinds (ins : Nat → Byte) : Nat → List OperandKind → List Int
  | _, [] => []
  | i, k :: ks => k.read ins i :: readKinds ins (i + k.width) ks

/-- The bytes of operands in a row. -/
def kindBytes : List OperandKind → List (BitVec 32) → List Byte
  | k :: ks, v :: vs => (k.operand "").bytes v ++ kindBytes ks vs
  | _, _ => []

/-! ## Words -/

section Words

variable {v : BitVec 32}

theorem low_eq : (v &&& 255#32).setWidth 8 = v.setWidth 8 := by
  apply BitVec.eq_of_toNat_eq
  rw [BitVec.toNat_setWidth, BitVec.toNat_setWidth, BitVec.toNat_and]
  rw [show (255#32).toNat = 2 ^ 8 - 1 from rfl, Nat.and_two_pow_sub_one_eq_mod, Nat.mod_mod]

theorem high_eq : (v.sshiftRight 8).setWidth 8 = v.extractLsb' 8 8 := by
  ext i hi
  have h : 8 + i < 32 := by omega
  have h' : i < 32 := by omega
  simp [BitVec.getElem_sshiftRight, h, h']

theorem word_eq : (v.setWidth 8).setWidth 32 ||| (v.extractLsb' 8 8).setWidth 32 <<< 8 =
    (v.setWidth 16).setWidth 32 := by
  ext i hi
  by_cases h : i < 8
  · have h' : i < 16 := by omega
    simp [h, h']
  · have h' : 8 + (i - 8) = i := by omega
    have h'' : i - 8 < 8 ↔ i < 16 := by omega
    simp [h, h', h'']

theorem sword_eq : (v.setWidth 8).setWidth 32 ||| (v.extractLsb' 8 8).signExtend 32 <<< 8 =
    (v.setWidth 16).signExtend 32 := by
  ext i hi
  by_cases h : i < 8
  · have h' : i < 16 := by omega
    simp [h, h', BitVec.getElem_signExtend]
  · have h' : 8 + (i - 8) = i := by omega
    have h'' : i - 8 < 8 ↔ i < 16 := by omega
    simp [h, h', h'', BitVec.getElem_signExtend, BitVec.msb_eq_getLsbD_last]

theorem toNat_of_nonneg (h : 0 ≤ v.toInt) : (v.toNat : Int) = v.toInt := by
  have hv := BitVec.toInt_eq_toNat_cond v
  have := v.isLt
  split at hv <;> omega

theorem byte_fits (h : OperandKind.u8.Fits v.toInt) : (v.setWidth 8).setWidth 32 = v := by
  have hv := toNat_of_nonneg h.1
  have := h.2
  apply BitVec.eq_of_toNat_eq
  simp only [BitVec.toNat_setWidth]
  omega

theorem word_fits (h : OperandKind.u16.Fits v.toInt) : (v.setWidth 16).setWidth 32 = v := by
  have hv := toNat_of_nonneg h.1
  have := h.2
  apply BitVec.eq_of_toNat_eq
  simp only [BitVec.toNat_setWidth]
  omega

theorem sword_fits (h : OperandKind.s16.Fits v.toInt) : (v.setWidth 16).signExtend 32 = v := by
  have hv := BitVec.toInt_eq_toNat_cond v
  obtain ⟨hlo, hhi⟩ := h
  apply BitVec.eq_of_toInt_eq
  rw [BitVec.toInt_signExtend_of_le (by omega), BitVec.toInt_setWidth, Int.bmod]
  omega

variable {ins : Nat → Byte} {i : Nat}

theorem o16_word (h : ins i = (v &&& 255#32).setWidth 8)
    (h' : ins (i + 1) = (v.sshiftRight 8).setWidth 8) : o16 ins i = (v.setWidth 16).setWidth 32 := by
  unfold o16
  rw [h, h', low_eq, high_eq, word_eq]

theorem os16_word (h : ins i = (v &&& 255#32).setWidth 8)
    (h' : ins (i + 1) = (v.sshiftRight 8).setWidth 8) :
    os16 ins i = (v.setWidth 16).signExtend 32 := by
  unfold os16
  rw [h, h', low_eq, high_eq, sword_eq]

end Words

/-! ## Reading what was written -/

section Reading

variable {ins : Nat → Byte} {i : Nat} {v : BitVec 32} {k : OperandKind}
  {ks : List OperandKind} {args : List (BitVec 32)}

theorem bytes_length {name : String} : ((k.operand name).bytes v).length = k.width := by
  cases k <;> rfl

theorem kindBytes_length (h : args.length = ks.length) :
    (kindBytes ks args).length = (ks.map OperandKind.width).sum := by
  induction ks generalizing args with
  | nil => rfl
  | cons k ks ih =>
    cases args with
    | nil => cases h
    | cons v args =>
      simp only [kindBytes, List.length_append, bytes_length, List.map_cons, List.sum_cons,
        ih (Nat.succ.inj h)]

theorem read_bytes (hv : k.Fits v.toInt)
    (hins : ∀ j (hj : j < ((k.operand "").bytes v).length),
      ins (i + j) = ((k.operand "").bytes v)[j]) : k.read ins i = v.toInt := by
  cases k with
  | u8 =>
    have h0 : ins i = v.setWidth 8 := hins 0 (Nat.succ_pos _)
    unfold OperandKind.read unsigned o8
    rw [h0, byte_fits hv]
    exact toNat_of_nonneg hv.1
  | u16 =>
    have h0 : ins i = (v &&& 255#32).setWidth 8 := hins 0 (Nat.succ_pos _)
    have h1 : ins (i + 1) = (v.sshiftRight 8).setWidth 8 := hins 1 (Nat.lt_succ_self 1)
    unfold OperandKind.read unsigned
    simp only
    rw [o16_word h0 h1, word_fits hv]
    exact toNat_of_nonneg hv.1
  | s16 =>
    have h0 : ins i = (v &&& 255#32).setWidth 8 := hins 0 (Nat.succ_pos _)
    have h1 : ins (i + 1) = (v.sshiftRight 8).setWidth 8 := hins 1 (Nat.lt_succ_self 1)
    unfold OperandKind.read signed
    simp only
    rw [os16_word h0 h1, sword_fits hv]

/-- Operands come back as their kinds say. -/
theorem readKinds_bytes (hfits : List.Forall₂ (fun k v => OperandKind.Fits (BitVec.toInt v) k) ks args)
    (hins : ∀ j (hj : j < (kindBytes ks args).length), ins (i + j) = (kindBytes ks args)[j]) :
    readKinds ins i ks = args.map BitVec.toInt := by
  induction hfits generalizing i with
  | nil => rfl
  | @cons k v ks args hv _ ih =>
    have hlen : ((k.operand "").bytes v).length = k.width := bytes_length
    have hhead : k.read ins i = v.toInt := by
      refine read_bytes hv fun j hj => ?_
      have hj' : j < (kindBytes (k :: ks) (v :: args)).length := by
        simp only [kindBytes, List.length_append]
        omega
      rw [hins j hj']
      exact List.getElem_append_left hj
    have htail : readKinds ins (i + k.width) ks = args.map BitVec.toInt := by
      refine ih fun j hj => ?_
      have hj' : k.width + j < (kindBytes (k :: ks) (v :: args)).length := by
        simp only [kindBytes, List.length_append]
        omega
      rw [Nat.add_assoc, hins _ hj']
      simp only [kindBytes]
      rw [List.getElem_append_right (by omega)]
      congr 1
      omega
    simp only [readKinds, hhead, htail, List.map_cons]

end Reading

/-! ## Emitting -/

namespace Coder

variable {cdr : Coder} {op : Opcode} {args : List (BitVec 32)} {names : List String}
  {ks : List OperandKind} {rest : List Byte}

/-- The arguments of `emit` for operands of these kinds. -/
def namedArgs : List String → List OperandKind → List (BitVec 32) → List (Operand × BitVec 32)
  | name :: names, k :: ks, v :: vs => (k.operand name, v) :: namedArgs names ks vs
  | _, _, _ => []

theorem codeFor_eq (h : op.layout.kinds.length = args.length) :
    cdr.codeFor op args =
      some (cdr.emit op op.layout (namedArgs ["A", "B", "C", "D"] op.layout.kinds args)) := by
  unfold codeFor
  generalize hl : op.layout = l at h
  cases l <;>
    rcases args with _ | ⟨a, _ | ⟨b, _ | ⟨c, _ | ⟨d, _ | ⟨e, rest⟩⟩⟩⟩⟩ <;>
    first
    | rfl
    | exact absurd h (by simp [Layout.kinds])

theorem flatMap_bytes (hn : ks.length ≤ names.length) :
    ((namedArgs names ks args).flatMap fun arg => arg.1.bytes arg.2) = kindBytes ks args := by
  induction ks generalizing names args with
  | nil => cases names <;> rfl
  | cons k ks ih =>
    cases names with
    | nil => cases hn
    | cons name names =>
      cases args with
      | nil => rfl
      | cons v args =>
        have hbytes : (k.operand name).bytes v = (k.operand "").bytes v := by cases k <;> rfl
        simp only [namedArgs, List.flatMap_cons, kindBytes, hbytes,
          ih (Nat.le_of_succ_le_succ hn)]

/-- The range checks check the declared ranges. -/
theorem forall_inRange (hn : ks.length ≤ names.length) (hlen : ks.length = args.length) :
    (∀ arg ∈ namedArgs names ks args, arg.1.lo ≤ arg.2.toInt ∧ arg.2.toInt ≤ arg.1.hi) ↔
      List.Forall₂ (fun k v => OperandKind.Fits (BitVec.toInt v) k) ks args := by
  induction ks generalizing names args with
  | nil =>
    cases args with
    | nil => cases names <;> simp [namedArgs]
    | cons => cases hlen
  | cons k ks ih =>
    cases args with
    | nil => cases hlen
    | cons v args =>
      cases names with
      | nil => cases hn
      | cons name names =>
        have hk : ((k.operand name).lo ≤ v.toInt ∧ v.toInt ≤ (k.operand name).hi) ↔
            k.Fits v.toInt := by cases k <;> rfl
        simp only [namedArgs, List.forall_mem_cons, List.forall₂_cons, hk,
          ih (Nat.le_of_succ_le_succ hn) (Nat.succ.inj hlen)]

theorem kinds_length_le {l : Layout} : l.kinds.length ≤ 4 := by
  cases l <;> decide

theorem named_length_le {l : Layout} : l.kinds.length ≤ ["A", "B", "C", "D"].length :=
  kinds_length_le

theorem codeFor_of_fits (h : op.layout.Fits args) :
    cdr.codeFor op args = some (.ok (cdr.doCode (op.byte :: kindBytes op.layout.kinds args))) := by
  rw [codeFor_eq h.length_eq, emit, if_neg fun hne => hne rfl]
  have hrange := (forall_inRange named_length_le h.length_eq).mpr h
  have hbad : ((namedArgs ["A", "B", "C", "D"] op.layout.kinds args).filter fun arg =>
      arg.2.toInt < arg.1.lo ∨ arg.1.hi < arg.2.toInt) = [] := by
    refine List.filter_eq_nil_iff.mpr fun arg harg => ?_
    have := hrange arg harg
    simp only [decide_eq_true_eq]
    omega
  simp only [hbad, ne_eq, not_true_eq_false, if_false]
  rw [flatMap_bytes kinds_length_le]

/-- What does not fit is rejected. -/
theorem codeFor_of_not_fits (hlen : op.layout.kinds.length = args.length)
    (h : ¬ op.layout.Fits args) : ∃ e, cdr.codeFor op args = some (.error e) := by
  rw [codeFor_eq hlen, emit, if_neg fun hne => hne rfl]
  have hbad : ((namedArgs ["A", "B", "C", "D"] op.layout.kinds args).filter fun arg =>
      arg.2.toInt < arg.1.lo ∨ arg.1.hi < arg.2.toInt) ≠ [] := by
    intro hnil
    refine h ((forall_inRange named_length_le hlen).mp
      fun arg harg => ?_)
    have := List.filter_eq_nil_iff.mp hnil arg harg
    simp only [decide_eq_true_eq] at this
    omega
  exact ⟨_, congrArg some (if_pos hbad)⟩

/-! ## Round trips -/

/-- The VM takes from the code what was emitted for `op` and `args`, and operands that do
not fit are rejected. -/
def RoundTrips (op : Opcode) (args : List (BitVec 32)) : Prop :=
  ∀ cdr : Coder, cdr.dead = false →
    (op.layout.Fits args → ∃ bytes : List Byte, bytes.length = op.iSize ∧
      cdr.codeFor op args = some (.ok (cdr.code.length, { cdr with code := cdr.code ++ bytes })) ∧
      ∀ rest, fetchCode (cdr.code ++ bytes ++ rest) cdr.code.length =
        some (op, args.map BitVec.toInt, cdr.code.length + op.iSize)) ∧
    (op.layout.kinds.length = args.length → ¬ op.layout.Fits args →
      ∃ e, cdr.codeFor op args = some (.error e))

theorem unsigned_eq_signed {x : BitVec 32} : unsigned x = signed x ↔ 0 ≤ signed x := by
  unfold unsigned signed
  refine ⟨fun h => h ▸ Int.natCast_nonneg _, toNat_of_nonneg⟩

/-- The operand B of the layout `AxsBx` is the only one whose declaration is not that of
its kind. -/
theorem opr_eq {ins : Nat → Byte} {l : Layout} (hl : l ≠ .AxsBx) :
    opr ins l = readKinds ins 1 l.kinds := by
  cases l with
  | AxsBx => exact absurd rfl hl
  | _ => rfl

theorem osize_eq {l : Layout} : l.osize = (l.kinds.map OperandKind.width).sum + 1 := by
  cases l <;> rfl

theorem iSize_eq (h : op.layout.Fits args) :
    (op.byte :: kindBytes op.layout.kinds args).length = op.iSize := by
  rw [List.length_cons, kindBytes_length h.length_eq.symm]
  exact osize_eq.symm

theorem fetchCode_append {code bytes : List Byte} :
    fetchCode (code ++ (op.byte :: bytes) ++ rest) code.length =
      some (op, opr (fun i => ((op.byte :: (bytes ++ rest))[i]?).getD 0) op.layout,
        code.length + op.iSize) := by
  have hins : ∀ i, (code ++ (op.byte :: bytes) ++ rest)[code.length + i]? =
      (op.byte :: (bytes ++ rest))[i]? := by
    intro i
    rw [List.append_assoc, List.getElem?_append_right (Nat.le_add_right _ _),
      Nat.add_sub_cancel_left]
    rfl
  unfold fetchCode
  simp only [hins, List.getElem?_cons_zero, Option.getD_some, Opcode.ofByte_byte, Option.map_some]
  rfl

theorem ins_bytes {bytes : List Byte} {j : Nat} (hj : j < bytes.length) :
    (fun i => ((op.byte :: (bytes ++ rest))[i]?).getD 0) (1 + j) = bytes[j] := by
  simp only [Nat.add_comm 1 j, List.getElem?_cons_succ, List.getElem?_append_left hj,
    List.getElem?_eq_getElem hj, Option.getD_some]

/-- What the VM reads is what was emitted, but for B in the layout `AxsBx`, which loses its
sign. -/
theorem opr_bytes (h : op.layout.Fits args) :
    opr (fun i => ((op.byte :: (kindBytes op.layout.kinds args ++ rest))[i]?).getD 0) op.layout =
        args.map BitVec.toInt ↔
      (op.layout = .AxsBx → ∀ b ∈ args.getLast?, 0 ≤ b.toInt) := by
  have hread : readKinds (fun i => ((op.byte :: (kindBytes op.layout.kinds args ++ rest))[i]?).getD 0)
      1 op.layout.kinds = args.map BitVec.toInt := readKinds_bytes h fun j hj => ins_bytes hj
  generalize (fun i : Nat => ((op.byte :: (kindBytes op.layout.kinds args ++ rest))[i]?).getD 0) = ins
    at hread ⊢
  by_cases hl : op.layout = .AxsBx
  · unfold Layout.Fits at h
    rw [hl] at h hread ⊢
    obtain ⟨a, b, rfl⟩ : ∃ a b, args = [a, b] := List.length_eq_two.mp h.length_eq.symm
    simp only [Layout.kinds, readKinds, OperandKind.read, OperandKind.width, List.map_cons,
      List.map_nil, List.cons.injEq, and_true] at hread
    obtain ⟨ha, hb⟩ := hread
    simp only [opr, List.map_cons, List.map_nil, List.cons.injEq, and_true, ha, true_and,
      List.getLast?_cons_cons, List.getLast?_singleton, Option.mem_def, Option.some.injEq,
      forall_eq', forall_const, ← hb]
    exact unsigned_eq_signed
  · rw [opr_eq hl]
    exact ⟨fun _ hl' => absurd hl' hl, fun _ => hread⟩

/-- Reading back what was emitted fails for negative operands of `PUSHIC` and `PUSHCI`, and
for nothing else. -/
theorem roundTrips_iff :
    RoundTrips op args ↔
      ¬ (op.layout = .AxsBx ∧ op.layout.Fits args ∧ ∃ b ∈ args.getLast?, b.toInt < 0) := by
  constructor
  · rintro h ⟨hl, hfits, b, hb, hneg⟩
    obtain ⟨bytes, -, hcode, hfetch⟩ := (h ⟨[], false⟩ rfl).1 hfits
    rw [codeFor_of_fits hfits] at hcode
    obtain rfl : op.byte :: kindBytes op.layout.kinds args = bytes :=
      congrArg (fun r => r.2.code) (Except.ok.inj (Option.some.inj hcode))
    have hopr := hfetch []
    rw [fetchCode_append] at hopr
    simp only [Option.some.injEq, Prod.mk.injEq, and_true, true_and] at hopr
    exact Int.not_le.mpr hneg ((opr_bytes hfits).mp hopr hl b hb)
  · intro h cdr hdead
    refine ⟨fun hfits => ?_, fun hlen hfits => codeFor_of_not_fits hlen hfits⟩
    refine ⟨op.byte :: kindBytes op.layout.kinds args, iSize_eq hfits, ?_, fun rest => ?_⟩
    · rw [codeFor_of_fits hfits, doCode, hdead]
      rfl
    · rw [fetchCode_append, (opr_bytes hfits).mpr fun hl b hb => ?_]
      by_contra hneg
      exact h ⟨hl, hfits, b, hb, Int.not_le.mp hneg⟩

/-- `PUSHIC 0, -1` is read back with 4294967295. -/
theorem not_roundTrips_pushic : ¬ RoundTrips .pushic [0, -1] := by
  intro h
  obtain ⟨bytes, -, hcode, hfetch⟩ := (h ⟨[], false⟩ rfl).1 (by decide)
  have heval : (⟨[], false⟩ : Coder).codeFor .pushic [0, -1] =
      some (.ok (0, ⟨[Opcode.pushic.byte, 0, 0, 255, 255], false⟩)) := rfl
  rw [heval] at hcode
  obtain rfl : [Opcode.pushic.byte, 0, 0, 255, 255] = bytes :=
    congrArg (fun r => r.2.code) (Except.ok.inj (Option.some.inj hcode))
  exact absurd (hfetch []) (by decide)

end Coder

end Eel
