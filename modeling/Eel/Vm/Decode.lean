-- SUMMARY: The instructions that bytes of code stand for.
import Eel.Vm.Exec
import Eel.Vm.Opcode

/-!
# Decoding

The operands of an instruction are numbers, as the VM reads them. Operators are numbered.
-/

namespace Eel

/-- The operator of a number. -/
def Operator.ofNat? (n : Nat) : Option Operator :=
  if n ≤ Operator.bnot.ctorIdx then some (.ofNat n) else none

theorem Operator.ofNat?_ctorIdx (op : Operator) : Operator.ofNat? op.ctorIdx = some op := by
  cases op <;> rfl

namespace Instr

/-- The operands of an instruction. -/
def operands : Instr → List Int
  | illegal | nop | phtrue | phfalse | pushnil | pushtup | phargs | «return» | retry | retx => []
  | jump a | pushi a => [a]
  | jumpz a b | jumpnz a b | pushic a b | pushci a b | ldi a b | initi a b | assigni a b => [a, b]
  | «switch» a b c => [a, b, c]
  | preloop a b c d | loop a b c d => [a, b, c, d]
  | push a | pushc a | phvar a | call a | returnr a | clean a | argc a | tupc a | ldtrue a
    | ldfalse a | ldnil a | initnil a | asnnil a | phargi a | untry a | throw a | retxr a => [a]
  | push2 a b | pushc2 a b | phuval a b | callr a b | ccall a b | spec a b | tspec a b | ldc a b
    | move a b | init a b | initc a b | assign a b | assignc a b | getvar a b | setvar a b
    | getargi a b | phargi2 a b | setargi a b | neg a b | bnot a b | not a b | castr a b
    | casti a b | castb a b | typeof a b | sizeof a b | weakref a b | phadd a b | phsub a b
    | phmul a b | phdiv a b | phmod a b | phpower a b | new a b | clone a b | «try» a b => [a, b]
  | push3 a b c | ccallr a b c | getuval a b c | setuval a b c | indseti a b c | indgeti a b c
    | indset a b c | indget a b c | indsetc a b c | indgetc a b c | gettargi a b c
    | getuvargi a b c | setuvargi a b c | cast a b c | add a b c | sub a b c | mul a b c
    | div a b c | mod a b c | power a b c => [a, b, c]
  | push4 a b c d | getuvtargi a b c d => [a, b, c, d]
  | bop a b c d | ipbop a b c d | bops a b c d | ipbops a b c d | bopc a b c d => [a, b, c.ctorIdx, d]
  | phbop a b c => [a, b.ctorIdx, c]
  | bopi a b c d | ipbopi a b c d => [a, b, c.ctorIdx, d]
  | phbopi a b c => [a, b.ctorIdx, c]

/-! ## Reading operands -/

def done (i : Instr) : List Int → Option Instr
  | [] => some i
  | _ => none

def nat (k : Nat → List Int → Option Instr) : List Int → Option Instr
  | a :: args => k a.toNat args
  | [] => none

def int (k : Int → List Int → Option Instr) : List Int → Option Instr
  | a :: args => k a args
  | [] => none

def oper (k : Operator → List Int → Option Instr) : List Int → Option Instr
  | a :: args => (Operator.ofNat? a.toNat).bind fun op => k op args
  | [] => none

/-- The instruction with these operands. -/
def decode : Opcode → List Int → Option Instr
  | .illegal => done illegal
  | .nop => done nop
  | .jump => int fun a => done (jump a)
  | .jumpz => nat fun a => int fun b => done (jumpz a b)
  | .jumpnz => nat fun a => int fun b => done (jumpnz a b)
  | .«switch» => nat fun a => nat fun b => int fun c => done («switch» a b c)
  | .preloop => nat fun a => nat fun b => nat fun c => int fun d => done (preloop a b c d)
  | .loop => nat fun a => nat fun b => nat fun c => int fun d => done (loop a b c d)
  | .push => nat fun a => done (push a)
  | .push2 => nat fun a => nat fun b => done (push2 a b)
  | .push3 => nat fun a => nat fun b => nat fun c => done (push3 a b c)
  | .push4 => nat fun a => nat fun b => nat fun c => nat fun d => done (push4 a b c d)
  | .pushi => int fun a => done (pushi a)
  | .phtrue => done phtrue
  | .phfalse => done phfalse
  | .pushnil => done pushnil
  | .pushc => nat fun a => done (pushc a)
  | .pushc2 => nat fun a => nat fun b => done (pushc2 a b)
  | .pushic => nat fun a => int fun b => done (pushic a b)
  | .pushci => nat fun a => int fun b => done (pushci a b)
  | .phvar => nat fun a => done (phvar a)
  | .phuval => nat fun a => nat fun b => done (phuval a b)
  | .pushtup => done pushtup
  | .phargs => done phargs
  | .call => nat fun a => done (call a)
  | .callr => nat fun a => nat fun b => done (callr a b)
  | .ccall => nat fun a => nat fun b => done (ccall a b)
  | .ccallr => nat fun a => nat fun b => nat fun c => done (ccallr a b c)
  | .«return» => done «return»
  | .returnr => nat fun a => done (returnr a)
  | .clean => nat fun a => done (clean a)
  | .argc => nat fun a => done (argc a)
  | .tupc => nat fun a => done (tupc a)
  | .spec => nat fun a => nat fun b => done (spec a b)
  | .tspec => nat fun a => nat fun b => done (tspec a b)
  | .ldi => nat fun a => int fun b => done (ldi a b)
  | .ldtrue => nat fun a => done (ldtrue a)
  | .ldfalse => nat fun a => done (ldfalse a)
  | .ldnil => nat fun a => done (ldnil a)
  | .ldc => nat fun a => nat fun b => done (ldc a b)
  | .move => nat fun a => nat fun b => done (move a b)
  | .init => nat fun a => nat fun b => done (init a b)
  | .initi => nat fun a => int fun b => done (initi a b)
  | .initnil => nat fun a => done (initnil a)
  | .initc => nat fun a => nat fun b => done (initc a b)
  | .assign => nat fun a => nat fun b => done (assign a b)
  | .assigni => nat fun a => int fun b => done (assigni a b)
  | .asnnil => nat fun a => done (asnnil a)
  | .assignc => nat fun a => nat fun b => done (assignc a b)
  | .getuval => nat fun a => nat fun b => nat fun c => done (getuval a b c)
  | .setuval => nat fun a => nat fun b => nat fun c => done (setuval a b c)
  | .getvar => nat fun a => nat fun b => done (getvar a b)
  | .setvar => nat fun a => nat fun b => done (setvar a b)
  | .indseti => nat fun a => nat fun b => nat fun c => done (indseti a b c)
  | .indgeti => nat fun a => nat fun b => nat fun c => done (indgeti a b c)
  | .indset => nat fun a => nat fun b => nat fun c => done (indset a b c)
  | .indget => nat fun a => nat fun b => nat fun c => done (indget a b c)
  | .indsetc => nat fun a => nat fun b => nat fun c => done (indsetc a b c)
  | .indgetc => nat fun a => nat fun b => nat fun c => done (indgetc a b c)
  | .getargi => nat fun a => nat fun b => done (getargi a b)
  | .phargi => nat fun a => done (phargi a)
  | .phargi2 => nat fun a => nat fun b => done (phargi2 a b)
  | .setargi => nat fun a => nat fun b => done (setargi a b)
  | .gettargi => nat fun a => nat fun b => nat fun c => done (gettargi a b c)
  | .getuvargi => nat fun a => nat fun b => nat fun c => done (getuvargi a b c)
  | .setuvargi => nat fun a => nat fun b => nat fun c => done (setuvargi a b c)
  | .getuvtargi => nat fun a => nat fun b => nat fun c => nat fun d => done (getuvtargi a b c d)
  | .bop => nat fun a => nat fun b => oper fun c => nat fun d => done (bop a b c d)
  | .phbop => nat fun a => oper fun b => nat fun c => done (phbop a b c)
  | .ipbop => nat fun a => nat fun b => oper fun c => nat fun d => done (ipbop a b c d)
  | .bops => nat fun a => nat fun b => oper fun c => nat fun d => done (bops a b c d)
  | .ipbops => nat fun a => nat fun b => oper fun c => nat fun d => done (ipbops a b c d)
  | .bopi => nat fun a => nat fun b => oper fun c => int fun d => done (bopi a b c d)
  | .phbopi => nat fun a => oper fun b => int fun c => done (phbopi a b c)
  | .ipbopi => nat fun a => nat fun b => oper fun c => int fun d => done (ipbopi a b c d)
  | .bopc => nat fun a => nat fun b => oper fun c => nat fun d => done (bopc a b c d)
  | .neg => nat fun a => nat fun b => done (neg a b)
  | .bnot => nat fun a => nat fun b => done (bnot a b)
  | .not => nat fun a => nat fun b => done (not a b)
  | .castr => nat fun a => nat fun b => done (castr a b)
  | .casti => nat fun a => nat fun b => done (casti a b)
  | .castb => nat fun a => nat fun b => done (castb a b)
  | .cast => nat fun a => nat fun b => nat fun c => done (cast a b c)
  | .typeof => nat fun a => nat fun b => done (typeof a b)
  | .sizeof => nat fun a => nat fun b => done (sizeof a b)
  | .weakref => nat fun a => nat fun b => done (weakref a b)
  | .add => nat fun a => nat fun b => nat fun c => done (add a b c)
  | .sub => nat fun a => nat fun b => nat fun c => done (sub a b c)
  | .mul => nat fun a => nat fun b => nat fun c => done (mul a b c)
  | .div => nat fun a => nat fun b => nat fun c => done (div a b c)
  | .mod => nat fun a => nat fun b => nat fun c => done (mod a b c)
  | .power => nat fun a => nat fun b => nat fun c => done (power a b c)
  | .phadd => nat fun a => nat fun b => done (phadd a b)
  | .phsub => nat fun a => nat fun b => done (phsub a b)
  | .phmul => nat fun a => nat fun b => done (phmul a b)
  | .phdiv => nat fun a => nat fun b => done (phdiv a b)
  | .phmod => nat fun a => nat fun b => done (phmod a b)
  | .phpower => nat fun a => nat fun b => done (phpower a b)
  | .new => nat fun a => nat fun b => done (new a b)
  | .clone => nat fun a => nat fun b => done (clone a b)
  | .«try» => nat fun a => nat fun b => done («try» a b)
  | .untry => nat fun a => done (untry a)
  | .throw => nat fun a => done (throw a)
  | .retry => done retry
  | .retx => done retx
  | .retxr => nat fun a => done (retxr a)

theorem decode_operands (i : Instr) : decode i.opcode i.operands = some i := by
  cases i <;>
    simp [opcode, operands, decode, nat, int, oper, done, Operator.ofNat?_ctorIdx]

end Instr

/-- The bytes are the code of the function. -/
def Env.Loaded (E : Env) (fo : ObjId) (code : List Byte) : Prop :=
  ∀ pc op args next i, fetchCode code pc = some (op, args, next) → Instr.decode op args = some i →
    E.code fo pc = i

/-- The instruction at an address. What is none is illegal. -/
def instrAt (code : List Byte) (pc : Nat) : Instr :=
  ((fetchCode code pc).bind fun ins => Instr.decode ins.1 ins.2.1).getD .illegal

theorem Env.loaded_instrAt {E : Env} {fo : ObjId} {code : List Byte} (h : E.code fo = instrAt code) :
    E.Loaded fo code := by
  intro pc op args next i hfetch hdecode
  rw [h, instrAt, hfetch, Option.bind_some, hdecode, Option.getD_some]

end Eel
