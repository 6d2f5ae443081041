-- SUMMARY: The peephole optimizer: substitutions of pairs and single instructions in the current fragment.
import Eel.Compiler.Coder
import Eel.Vm.DebugInfo
import Eel.Vm.Decode
import Eel.Lib.Regroup

/-!
# Optimizer

The optimizer emits the new instruction behind the code, takes excess bytes and line entries out,
and moves the new instruction into place. It emits with `codeonly` set, so emitting does not come
back to the optimizer.
-/

namespace Eel

/-- `EEL_coder` with the line table of its function and the start of the current fragment. -/
structure FragCoder extends Coder where
  lines : List Int
  fragstart : Nat
  fragline : Nat
  peephole : Bool
  /-- The answer of `eel_code_find_line`. -/
  line : Int
  /-- What is left in the buffer behind the code. -/
  behind : Byte

/-- A call of an emitter. -/
abbrev Emission := Coder → Except CodeError (Int × Coder)

/-- `memmove` of what is behind `count` items at `start` over them. -/
def cut {α : Type} (xs : List α) (start : Nat) (count : Int) : Option (List α) :=
  if 0 ≤ count ∧ start + count ≤ xs.length then some (xs.take start ++ xs.drop (start + count.toNat))
  else none

/-- `memcpy` within a buffer. -/
def paste {α : Type} (xs : List α) (dst src len : Nat) : Option (List α) :=
  if dst + len ≤ src ∧ src + len ≤ xs.length then
    some (xs.take dst ++ (xs.drop src).take len ++ xs.drop (dst + len))
  else none

namespace FragCoder

/-- `f->e.code[pc]`. -/
def codeAt (cdr : FragCoder) (pc : Nat) : Byte := cdr.code.getD pc cdr.behind

/-- `do_code` for an emitter: with the code comes the line, unless the code is dead. -/
def emitting (cdr : FragCoder) (k : Emission) : Except CodeError FragCoder :=
  (k cdr.toCoder).map fun r =>
    { cdr with toCoder := r.2, lines := if cdr.dead then cdr.lines else cdr.lines ++ [cdr.line] }

/-- The loop of `eel_code_remove_lineinfo`: the index of the line entry for `start`. -/
def lineIndex (cdr : FragCoder) (start pc i : Nat) : Nat :=
  if pc < start then cdr.lineIndex start (pc + iSizeOf (cdr.codeAt pc)) (i + 1) else i
  termination_by start - pc
  decreasing_by
    have := @iSizeOf_pos (cdr.codeAt pc)
    omega

/-- `eel_code_remove_lineinfo`. -/
def codeRemoveLineinfo (cdr : FragCoder) (start : Nat) (count : Int) : Option FragCoder :=
  (cut cdr.lines (cdr.lineIndex start cdr.fragstart cdr.fragline) count).map fun lines =>
    { cdr with lines }

/-- `eel_code_remove_bytes`. -/
def codeRemoveBytes (cdr : FragCoder) (start : Nat) (count : Int) : Option FragCoder :=
  (cut cdr.code start count).map fun code => { cdr with code }

/-! ## Substitutions -/

/-- The instruction to emit for two in a row: the branches of `eel_pair_subst`. -/
def pairCode (keepregs : Bool) (i1 i2 : Nat → Byte) : Option Emission :=
  match Opcode.ofByte (i1 0), Opcode.ofByte (i2 0) with
  | some .push, some .push => some (·.codeAB .push2 (o8 i1 1) (o8 i2 1))
  | some .push2, some .push => some (·.codeABC .push3 (o8 i1 1) (o8 i1 2) (o8 i2 1))
  | some .push2, some .push2 => some (·.codeABCD .push4 (o8 i1 1) (o8 i1 2) (o8 i2 1) (o8 i2 2))
  | some .pushc, some .pushc => some (·.codeAxBx .pushc2 (o16 i1 1) (o16 i2 1))
  | some .pushc, some .pushi => some (·.codeAxsBx .pushci (o16 i1 1) (os16 i2 1))
  | some .pushi, some .pushc => some (·.codeAxsBx .pushic (o16 i2 1) (os16 i1 1))
  | some .not, some .jumpz =>
    if keepregs ∨ i1 1 ≠ i2 1 then none else some (·.codeAsBx .jumpnz (o8 i1 2) 0)
  | some .not, some .jumpnz =>
    if keepregs ∨ i1 1 ≠ i2 1 then none else some (·.codeAsBx .jumpz (o8 i1 2) 0)
  | some .ldi, some .init =>
    if keepregs ∨ i1 1 ≠ i2 2 then none else some (·.codeAsBx .initi (o8 i2 1) (os16 i1 2))
  | some .ldi, some .assign =>
    if keepregs ∨ i1 1 ≠ i2 2 then none else some (·.codeAsBx .assigni (o8 i2 1) (os16 i1 2))
  | some .ldnil, some .init =>
    if keepregs ∨ i1 1 ≠ i2 2 then none else some (·.codeA .initnil (o8 i2 1))
  | some .ldnil, some .assign =>
    if keepregs ∨ i1 1 ≠ i2 2 then none else some (·.codeA .asnnil (o8 i2 1))
  | some .ldc, some .init =>
    if keepregs ∨ i1 1 ≠ i2 2 then none else some (·.codeABx .initc (o8 i2 1) (o16 i1 2))
  | some .ldc, some .assign =>
    if keepregs ∨ i1 1 ≠ i2 2 then none else some (·.codeABx .assignc (o8 i2 1) (o16 i1 2))
  | some .getargi, some .push =>
    if keepregs ∨ i1 1 ≠ i2 1 then none else some (·.codeA .phargi (o8 i1 2))
  | some .phargi, some .phargi => some (·.codeAB .phargi2 (o8 i1 1) (o8 i2 1))
  | some .bop, some .push =>
    if keepregs ∨ i1 1 ≠ i2 1 then none
    else some (·.codeABC .phbop (o8 i1 2) (o8 i1 3) (o8 i1 4))
  | some .bopi, some .push =>
    if keepregs ∨ i1 1 ≠ i2 1 then none
    else some (·.codeABsCx .phbopi (o8 i1 2) (o8 i1 3) (os16 i1 4))
  | some .ldc, some .indget =>
    if keepregs ∨ i1 1 ≠ i2 2 then none
    else some (·.codeABCx .indgetc (o8 i2 1) (o8 i2 3) (o16 i1 2))
  | some .ldc, some .indset =>
    if keepregs ∨ i1 1 ≠ i2 2 then none
    else some (·.codeABCx .indsetc (o8 i2 1) (o8 i2 3) (o16 i1 2))
  | some .ldc, some .bop =>
    if keepregs ∨ i1 1 ≠ i2 4 then none
    else some (·.codeABCDx .bopc (o8 i2 1) (o8 i2 2) (o8 i2 3) (o16 i1 2))
  | _, _ => none

/-- The instruction of its own that an operator has: the inner `switch` for `BOP`. -/
def bopCode (operator : Byte) : Option Opcode :=
  match Operator.ofNat? operator.toNat with
  | some .add => some .add
  | some .sub => some .sub
  | some .mul => some .mul
  | some .div => some .div
  | some .mod => some .mod
  | some .power => some .power
  | _ => none

/-- And that for `PHBOP`. -/
def phbopCode (operator : Byte) : Option Opcode :=
  match Operator.ofNat? operator.toNat with
  | some .add => some .phadd
  | some .sub => some .phsub
  | some .mul => some .phmul
  | some .div => some .phdiv
  | some .mod => some .phmod
  | some .power => some .phpower
  | _ => none

/-- The instruction to emit for one: the branches of `eel_single_subst`. -/
def singleCode (i1 : Nat → Byte) : Option Emission :=
  match Opcode.ofByte (i1 0) with
  | some .bop => (bopCode (i1 3)).map fun op cdr => cdr.codeABC op (o8 i1 1) (o8 i1 2) (o8 i1 4)
  | some .phbop => (phbopCode (i1 2)).map fun op cdr => cdr.codeAB op (o8 i1 1) (o8 i1 3)
  | _ => none

/-- What both kinds of substitution do after emitting, for `count` instructions of `oldLen` bytes at
`pc`. -/
def substitute (old new : FragCoder) (pc oldLen count : Nat) : Option FragCoder := do
  let newLen := new.code.length - old.code.length
  let diff : Int := oldLen - newLen
  let icountout : Int := new.lines.length - old.lines.length
  let icdiff := count - icountout
  let cdr ← new.codeRemoveLineinfo pc icdiff
  let oldNlines := (old.lines.length - icdiff).toNat
  let cdr ← cdr.codeRemoveBytes pc diff
  let oldEnd := (old.code.length - diff).toNat
  let code ← paste cdr.code pc oldEnd newLen
  let cdr := { cdr with code := code, lines := cdr.lines.take oldNlines }
  cdr.codeRemoveBytes oldEnd newLen

/-- `eel_pair_subst`: whether a substitution was made. -/
def pairSubst (cdr : FragCoder) (keepregs : Bool) (pc : Nat) : Option (Bool × FragCoder) :=
  let i1 := fun i => cdr.codeAt (pc + i)
  let pc2 := pc + iSizeOf (i1 0)
  let i2 := fun i => cdr.codeAt (pc2 + i)
  if cdr.code.length ≤ pc2 then some (false, cdr)
  else
    match pairCode keepregs i1 i2 with
    | none => some (false, cdr)
    | some k => do
      let new ← (cdr.emitting k).toOption
      let cdr ← substitute cdr new pc (iSizeOf (i1 0) + iSizeOf (i2 0)) 2
      some (true, cdr)

/-- `eel_single_subst`. -/
def singleSubst (cdr : FragCoder) (pc : Nat) : Option (Bool × FragCoder) :=
  let i1 := fun i => cdr.codeAt (pc + i)
  if cdr.code.length ≤ pc then some (false, cdr)
  else
    match singleCode i1 with
    | none => some (false, cdr)
    | some k => do
      let new ← (cdr.emitting k).toOption
      let cdr ← substitute cdr new pc (iSizeOf (i1 0)) 1
      some (true, cdr)

/-! ## The loops -/

/-- One pass over the fragment from `pc` on. -/
def pass (keepregs : Bool) : Nat → Nat → Bool → FragCoder → Option (Bool × FragCoder)
  | 0, _, _, _ => none
  | rounds + 1, pc, changed, cdr =>
    if pc < cdr.code.length then do
      let (c1, cdr) ← cdr.pairSubst keepregs pc
      let (c2, cdr) ← cdr.singleSubst pc
      pass keepregs rounds (pc + iSizeOf (cdr.codeAt pc)) (changed || c1 || c2) cdr
    else some (changed, cdr)

/-- Passes until one changes nothing. -/
def passes (keepregs : Bool) (rounds : Nat) : Nat → FragCoder → Option FragCoder
  | 0, _ => none
  | n + 1, cdr =>
    if cdr.peephole then do
      let (changed, cdr) ← pass keepregs rounds cdr.fragstart false cdr
      if changed then passes keepregs rounds n cdr else some cdr
    else some cdr

/-- `eel_optimize`, with at most so many rounds of each loop. -/
def optimize (cdr : FragCoder) (keepregs : Bool) (rounds : Nat) : Option FragCoder :=
  (passes keepregs rounds rounds cdr).map fun cdr =>
    { cdr with fragstart := cdr.code.length, fragline := cdr.lines.length }

end FragCoder

end Eel
