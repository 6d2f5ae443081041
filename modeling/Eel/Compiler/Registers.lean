-- SUMMARY: The register allocator of the coder, its table and the sizes it keeps for a function.
import Eel.Compiler.Lexer
import Eel.Lib.CInt
import Mathlib.Data.List.Basic

/-!
# The register allocator

The table of registers grows when a register behind its end is asked for. An access behind its
end, or an `int` that overflows, has no result. Frame size and clean size are bytes.
-/

namespace Eel

/-- `EEL_reguse`, but for `EEL_RUFREE`. -/
inductive RegUse where
  | temporary | var
  deriving DecidableEq

/-- The register table of a coder, and what is kept of it in the function. A free register is `none`. -/
structure RegTable where
  registers : List (Option RegUse)
  framesize : BitVec 8
  cleansize : BitVec 8
  deriving DecidableEq

namespace RegTable

/-- A coder without registers. -/
def empty : RegTable := ⟨[], 0, 0⟩

/-- `cdr->registers[r].use`. -/
def use (t : RegTable) (r : Int) : Option (Option RegUse) := if r < 0 then none else t.registers[r.toNat]?

/-- `cdr->registers[r].use = u`. -/
def setUse (t : RegTable) (r : Int) (u : Option RegUse) : Option RegTable :=
  if 0 ≤ r ∧ r < t.registers.length then some { t with registers := t.registers.set r.toNat u } else none

/-- The loops that set registers from `r` on. -/
def setUses (u : Option RegUse) : (n : Nat) → (r : Int) → RegTable → Option RegTable
  | 0, _, t => some t
  | n + 1, r, t => (t.setUse r u).bind (setUses u n (r + 1))

/-- `realloc_regs`. -/
def reallocRegs (t : RegTable) : Option RegTable := do
  let newsize ← if t.registers = [] then pure 16 else CInt.check (t.registers.length * 2)
  return { t with registers := t.registers ++ List.replicate (newsize.toNat - t.registers.length) none }

/-- `if(r >= cdr->maxregisters) realloc_regs(cdr);`. -/
def extend (t : RegTable) (r : Int) : Option RegTable := if t.registers.length ≤ r then t.reallocRegs else some t

/-- `check_cleansize`. -/
def checkCleansize (t : RegTable) : RegTable :=
  let clean := t.registers.count (some .var)
  if t.cleansize.toNat < clean then { t with cleansize := BitVec.ofNat 8 clean } else t

/-- Whether `n` registers from `i` on are free. The table grows on the way. -/
def rangeFree : (n : Nat) → (i : Int) → RegTable → Option (Bool × RegTable)
  | 0, _, t => some (true, t)
  | n + 1, i, t => do
    let t ← t.extend i
    if (← t.use i) ≠ none then return (false, t) else rangeFree n (i + 1) t

/-- The search of `eel_r_alloc`, of as many rounds as there can be. -/
def findRange (count : Int) : (rounds : Nat) → (first : Int) → RegTable → Option (Int × RegTable)
  | 0, _, _ => none
  | rounds + 1, first, t => do
    let _ ← CInt.check (first + count)
    let (ok, t) ← rangeFree count.toNat first t
    if ok then return (first, t) else findRange count rounds (first + 1) t

/-- The function register frame size, bumped if what is given does not fit. -/
def bumpFramesize (t : RegTable) (last size : Int) : RegTable :=
  if t.framesize.toNat ≤ last then { t with framesize := BitVec.ofInt 8 size } else t

/-- What `eel_r_alloc` and `eel_r_alloc_top` do with the range they found. -/
def take (t : RegTable) (first count : Int) (u : RegUse) : Option (Int × RegTable) := do
  let t := t.bumpFramesize (first + count) (first + count + 1)
  let t ← setUses (some u) count.toNat first t
  return (first, t.checkCleansize)

/-- `eel_r_alloc`. Behind the table, all registers are free. -/
def eelRAlloc (t : RegTable) (count : Int) (u : RegUse) : Option (Int × RegTable) := do
  let (first, t) ← findRange count (t.registers.length + 1) 0 t
  t.take first count u

/-- The loop of `eel_r_alloc_top` over the first `n` registers: the number behind the last that is not free. -/
def topOf (t : RegTable) : Nat → Nat
  | 0 => 0
  | n + 1 => if t.registers[n]? ≠ some none then n + 1 else topOf t n

/-- The loop that makes room for a register. The table cannot be doubled as often as there are rounds. -/
def makeRoom (r : Int) : (rounds : Nat) → RegTable → Option RegTable
  | 0, _ => none
  | rounds + 1, t => if t.registers.length ≤ r then t.reallocRegs.bind (makeRoom r rounds) else some t

/-- `eel_r_alloc_top`. -/
def eelRAllocTop (t : RegTable) (count : Int) (u : RegUse) : Option (Int × RegTable) := do
  let first : Int := t.topOf t.registers.length
  let last ← CInt.check (first + count)
  let t ← makeRoom last 32 t
  t.take first count u

/-- `eel_r_alloc_reg`. -/
def eelRAllocReg (t : RegTable) (r : Int) (u : RegUse) : Option (Except CompileError RegTable) := do
  let t ← t.extend r
  if (← t.use r) ≠ none then return .error "Tried to allocate in-use register!"
  else
    let t := t.bumpFramesize r (r + 1)
    let t ← t.setUse r (some u)
    return .ok t.checkCleansize

/-- `eel_r_free`. -/
def eelRFree (t : RegTable) (first count : Int) : Option (Except CompileError RegTable) := do
  let max ← if 0 < count then CInt.check (first + count) else pure (t.framesize.toNat - 1)
  let t ← t.extend max
  if first < 0 ∨ count ≤ 0 then
    return .error ("Someone tried to free " ++ toString count ++ " registers starting at R" ++ toString first ++ "!")
  else return .ok (← setUses none (max - first).toNat first t)

end RegTable

/-- Calls of the allocator. -/
inductive RegCall where
  | alloc (count : BitVec 32) (use : RegUse)
  | allocTop (count : BitVec 32) (use : RegUse)
  | allocReg (r : BitVec 32) (use : RegUse)
  | free (first count : BitVec 32)

/-- A range of registers. -/
structure RegRange where
  first : Int
  count : Int

/-- A call: the range that it hands out, if it does, and the table behind it. -/
def RegTable.call (t : RegTable) : RegCall → Option (Except CompileError (Option RegRange × RegTable))
  | .alloc count u => (t.eelRAlloc count.toInt u).map fun (first, t) => .ok (some ⟨first, count.toInt⟩, t)
  | .allocTop count u => (t.eelRAllocTop count.toInt u).map fun (first, t) => .ok (some ⟨first, count.toInt⟩, t)
  | .allocReg r u => (t.eelRAllocReg r.toInt u).map fun result => result.map fun t => (some ⟨r.toInt, 1⟩, t)
  | .free first count => (t.eelRFree first.toInt count.toInt).map fun result => result.map fun t => (none, t)

end Eel
