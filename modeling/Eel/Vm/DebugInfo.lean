-- SUMMARY: Whole instructions in a code buffer, and the lookup of the instruction and source line of a code position.
import Eel.Vm.Opcode

/-!
# Debug info

The line table has one entry an instruction, in the order of the code.
-/

namespace Eel

/-- An instruction as it is in the code: the opcode and as many bytes of operands as it takes. -/
structure CodeIns where
  op : Opcode
  operands : List Byte
  whole : operands.length + 1 = op.iSize

/-- `eel_i_size`, of any byte. -/
def iSizeOf (opcode : Byte) : Nat :=
  match Opcode.ofByte opcode with
  | some op => op.iSize
  | none => 1

/-- What the lookup reads of `EEL_function`. A line table that is not there is an empty one. -/
structure CodeListing where
  cfunc : Bool
  code : List Byte
  lines : List Int

namespace CodeIns

variable {ins : CodeIns} {items rest : List (CodeIns × Int)}

def bytes (ins : CodeIns) : List Byte := ins.op.byte :: ins.operands

@[simp] theorem length_bytes : ins.bytes.length = ins.op.iSize := ins.whole

/-- The code of instructions with their lines. -/
def code (items : List (CodeIns × Int)) : List Byte := items.flatMap fun item => item.1.bytes

def lines (items : List (CodeIns × Int)) : List Int := items.map Prod.snd

@[simp] theorem code_nil : code [] = [] := rfl

@[simp] theorem code_cons {item : CodeIns × Int} : code (item :: rest) = item.1.bytes ++ code rest := rfl

@[simp] theorem code_append : code (items ++ rest) = code items ++ code rest := List.flatMap_append

@[simp] theorem lines_append : lines (items ++ rest) = lines items ++ lines rest := List.map_append

@[simp] theorem length_lines : (lines items).length = items.length := List.length_map _

end CodeIns

@[simp] theorem iSizeOf_byte {op : Opcode} : iSizeOf op.byte = op.iSize := by
  unfold iSizeOf
  rw [Opcode.ofByte_byte]

theorem Layout.osize_pos {l : Layout} : 0 < l.osize := by
  cases l <;> exact Nat.succ_pos _

theorem iSizeOf_pos {b : Byte} : 0 < iSizeOf b := by
  unfold iSizeOf
  split
  · exact Layout.osize_pos
  · exact Nat.one_pos

namespace CodeListing

/-- The loop of `find_instruction`. Without code there is nothing to read. -/
def findFrom (f : CodeListing) (pos : Int) (pc i : Nat) : Option (Int × Nat) :=
  match f.code[pc]? with
  | none => none
  | some opcode =>
    let size := iSizeOf opcode
    if pos < pc + size then some (pc, i)
    else if f.code.length ≤ pc + size then some (-1, i + 1)
    else f.findFrom pos (pc + size) (i + 1)
  termination_by f.code.length - pc
  decreasing_by
    have := @iSizeOf_pos opcode
    omega

/-- `find_instruction`: where the instruction is, and its line, which C functions leave alone. -/
def findInstruction (f : CodeListing) (pos : Int) : Option (Int × Option Int) :=
  let pos := if pos < 0 then 0 else pos
  if f.cfunc then some (0, none)
  else
    let pos := if f.code.length ≤ pos then (f.code.length : Int) - 1 else pos
    (f.findFrom pos 0 0).map fun found =>
      (found.1, some (if found.2 < f.lines.length then f.lines.getD found.2 0 else -1))

variable {f : CodeListing} {before after rest : List (CodeIns × Int)} {ins : CodeIns} {line : Int}

theorem code_get (hcode : f.code = CodeIns.code (before ++ (ins, line) :: after)) :
    f.code[(CodeIns.code before).length]? = some ins.op.byte := by
  rw [hcode, CodeIns.code_append, List.getElem?_append_right (Nat.le_refl _), Nat.sub_self]
  rfl

/-- The loop walks over the instructions in front of the one at the position. -/
theorem findFrom_eq {pos : Nat} (hcode : f.code = CodeIns.code (before ++ rest ++ (ins, line) :: after))
    (hlo : (CodeIns.code (before ++ rest)).length ≤ pos)
    (hhi : pos < (CodeIns.code (before ++ rest)).length + ins.op.iSize) :
    f.findFrom pos (CodeIns.code before).length before.length =
      some (((CodeIns.code (before ++ rest)).length : Int), (before ++ rest).length) := by
  induction rest generalizing before with
  | nil =>
    rw [List.append_nil] at *
    unfold findFrom
    rw [code_get hcode]
    dsimp only
    rw [iSizeOf_byte, if_pos (by omega)]
  | cons item rest ih =>
    have hstep : before ++ item :: rest = (before ++ [item]) ++ rest := by simp
    have hget : f.code[(CodeIns.code before).length]? = some item.1.op.byte := by
      have hcode' : f.code = CodeIns.code (before ++ (item.1, item.2) :: (rest ++ (ins, line) :: after)) := by
        rw [hcode]
        simp
      exact code_get hcode'
    have hlen : (CodeIns.code (before ++ [item])).length = (CodeIns.code before).length + item.1.op.iSize := by
      simp
    have hsize : (CodeIns.code (before ++ item :: rest)).length =
        (CodeIns.code (before ++ [item])).length + (CodeIns.code rest).length := by
      simp [Nat.add_assoc]
    have hall : f.code.length = (CodeIns.code (before ++ item :: rest)).length + ins.op.iSize +
        (CodeIns.code after).length := by
      rw [hcode]
      simp [Nat.add_assoc]
    have hpos := @Layout.osize_pos ins.op.layout
    unfold findFrom
    rw [hget]
    dsimp only
    rw [iSizeOf_byte, if_neg (by omega), if_neg (by unfold Opcode.iSize at *; omega), ← hlen]
    have hlen' : before.length + 1 = (before ++ [item]).length := by simp
    rw [hlen', hstep]
    rw [hstep] at hcode hlo hhi
    exact ih hcode hlo hhi

/-- Every position of the code is in an instruction. -/
theorem exists_containing {items : List (CodeIns × Int)} {pos : Nat}
    (hpos : pos < (CodeIns.code items).length) :
    ∃ before ins line after, items = before ++ (ins, line) :: after ∧
      (CodeIns.code before).length ≤ pos ∧ pos < (CodeIns.code before).length + ins.op.iSize := by
  induction items generalizing pos with
  | nil => cases hpos
  | cons item items ih =>
    by_cases hin : pos < item.1.op.iSize
    · refine ⟨[], item.1, item.2, items, rfl, Nat.zero_le _, ?_⟩
      simpa using hin
    · have hrest : pos - item.1.op.iSize < (CodeIns.code items).length := by
        simp at hpos
        omega
      obtain ⟨before, ins, line, after, rfl, hlo, hhi⟩ := ih hrest
      refine ⟨item :: before, ins, line, after, rfl, ?_, ?_⟩
      · simp
        omega
      · simp
        omega

/-- For every position of the code, the lookup finds the instruction that contains it, with the line
of that instruction. -/
theorem findInstruction_eq {items : List (CodeIns × Int)} {pos : Nat} (hfun : f.cfunc = false)
    (hcode : f.code = CodeIns.code items) (hlines : f.lines = CodeIns.lines items)
    (hpos : pos < f.code.length) :
    ∃ before ins line after, items = before ++ (ins, line) :: after ∧
      (CodeIns.code before).length ≤ pos ∧ pos < (CodeIns.code before).length + ins.op.iSize ∧
      f.findInstruction pos = some (((CodeIns.code before).length : Int), some line) := by
  obtain ⟨before, ins, line, after, rfl, hlo, hhi⟩ := exists_containing (hcode ▸ hpos)
  refine ⟨before, ins, line, after, rfl, hlo, hhi, ?_⟩
  have hfind : f.findFrom pos 0 0 = some (((CodeIns.code before).length : Int), before.length) :=
    @findFrom_eq f [] after before ins line pos hcode hlo hhi
  have hlen : (before ++ (ins, line) :: after).length = before.length + 1 + after.length := by
    rw [List.length_append, List.length_cons]
    omega
  unfold findInstruction
  rw [if_neg (Int.not_lt.mpr (Int.natCast_nonneg pos)), hfun, if_neg Bool.false_ne_true,
    if_neg (by omega)]
  dsimp only
  rw [hfind, Option.map_some, hlines, CodeIns.length_lines, if_pos (by omega)]
  simp [CodeIns.lines]

end CodeListing

end Eel
