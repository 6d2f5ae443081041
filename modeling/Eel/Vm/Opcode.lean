-- SUMMARY: Opcodes and operand layouts, and what the VM reads of the code: opcode, operands and size.
import Eel.Core.Value
import Eel.Vm.Instr

/-!
# Opcodes
-/

namespace Eel

/-- `EEL_operands`. -/
inductive Layout where
  /-- `EEL_OL_0`. -/
  | none
  | A | Ax | AB | ABC | ABCD | sAx | ABx | AsBx | AxBx | AxsBx | ABCx | ABsCx | ABxCx | ABxsCx
  | ABCDx | ABCsDx
  deriving DecidableEq, Repr

/-- `EEL_opcodes`. -/
inductive Opcode where
  | illegal | nop
  | jump | jumpz | jumpnz | «switch»
  | preloop | loop
  | push | push2 | push3 | push4
  | pushi | phtrue | phfalse | pushnil
  | pushc | pushc2 | pushic | pushci
  | phvar | phuval | pushtup | phargs
  | call | callr | ccall | ccallr
  | «return» | returnr
  | clean
  | argc | tupc | spec | tspec
  | ldi | ldtrue | ldfalse | ldnil
  | ldc
  | move
  | init | initi | initnil | initc
  | assign | assigni | asnnil | assignc
  | getuval | setuval
  | getvar | setvar
  | indseti | indgeti | indset | indget
  | indsetc | indgetc
  | getargi | phargi | phargi2 | setargi
  | gettargi | getuvargi | setuvargi | getuvtargi
  | bop | phbop | ipbop
  | bops | ipbops
  | bopi | phbopi | ipbopi
  | bopc
  | neg | bnot | not
  | castr | casti | castb | cast
  | typeof | sizeof | weakref
  | add | sub | mul | div
  | mod | power
  | phadd | phsub | phmul | phdiv
  | phmod | phpower
  | new | clone
  | «try» | untry | throw | retry
  | retx | retxr
  deriving DecidableEq, Repr

namespace Layout

/-- `eel_ol_name`. -/
def name : Layout → String
  | none => "<none>"
  | A => "A" | Ax => "Ax" | AB => "AB" | ABC => "ABC" | ABCD => "ABCD" | sAx => "sAx"
  | ABx => "ABx" | AsBx => "AsBx" | AxBx => "AxBx" | AxsBx => "AxsBx" | ABCx => "ABCx"
  | ABsCx => "ABsCx" | ABxCx => "ABxCx" | ABxsCx => "ABxsCx" | ABCDx => "ABCDx"
  | ABCsDx => "ABCsDx"

/-- `EEL_OSIZE_0` and so on, in bytes. -/
def osize : Layout → Nat
  | none => 1
  | A => 2
  | Ax | AB | sAx => 3
  | ABC | ABx | AsBx => 4
  | ABCD | AxBx | AxsBx | ABCx | ABsCx => 5
  | ABxCx | ABxsCx | ABCDx | ABCsDx => 6

end Layout

namespace Opcode

/-- `eel_i_name`. -/
def name : Opcode → String
  | illegal => "ILLEGAL" | nop => "NOP" | jump => "JUMP" | jumpz => "JUMPZ" | jumpnz => "JUMPNZ"
  | «switch» => "SWITCH" | preloop => "PRELOOP" | loop => "LOOP" | push => "PUSH"
  | push2 => "PUSH2" | push3 => "PUSH3" | push4 => "PUSH4" | pushi => "PUSHI"
  | phtrue => "PHTRUE" | phfalse => "PHFALSE" | pushnil => "PUSHNIL" | pushc => "PUSHC"
  | pushc2 => "PUSHC2" | pushic => "PUSHIC" | pushci => "PUSHCI" | phvar => "PHVAR"
  | phuval => "PHUVAL" | pushtup => "PUSHTUP" | phargs => "PHARGS" | call => "CALL"
  | callr => "CALLR" | ccall => "CCALL" | ccallr => "CCALLR" | «return» => "RETURN"
  | returnr => "RETURNR" | clean => "CLEAN" | argc => "ARGC" | tupc => "TUPC" | spec => "SPEC"
  | tspec => "TSPEC" | ldi => "LDI" | ldtrue => "LDTRUE" | ldfalse => "LDFALSE"
  | ldnil => "LDNIL" | ldc => "LDC" | move => "MOVE" | init => "INIT" | initi => "INITI"
  | initnil => "INITNIL" | initc => "INITC" | assign => "ASSIGN" | assigni => "ASSIGNI"
  | asnnil => "ASNNIL" | assignc => "ASSIGNC" | getuval => "GETUVAL" | setuval => "SETUVAL"
  | getvar => "GETVAR" | setvar => "SETVAR" | indseti => "INDSETI" | indgeti => "INDGETI"
  | indset => "INDSET" | indget => "INDGET" | indsetc => "INDSETC" | indgetc => "INDGETC"
  | getargi => "GETARGI" | phargi => "PHARGI" | phargi2 => "PHARGI2" | setargi => "SETARGI"
  | gettargi => "GETTARGI" | getuvargi => "GETUVARGI" | setuvargi => "SETUVARGI"
  | getuvtargi => "GETUVTARGI" | bop => "BOP" | phbop => "PHBOP" | ipbop => "IPBOP"
  | bops => "BOPS" | ipbops => "IPBOPS" | bopi => "BOPI" | phbopi => "PHBOPI"
  | ipbopi => "IPBOPI" | bopc => "BOPC" | neg => "NEG" | bnot => "BNOT" | not => "NOT"
  | castr => "CASTR" | casti => "CASTI" | castb => "CASTB" | cast => "CAST" | typeof => "TYPEOF"
  | sizeof => "SIZEOF" | weakref => "WEAKREF" | add => "ADD" | sub => "SUB" | mul => "MUL"
  | div => "DIV" | mod => "MOD" | power => "POWER" | phadd => "PHADD" | phsub => "PHSUB"
  | phmul => "PHMUL" | phdiv => "PHDIV" | phmod => "PHMOD" | phpower => "PHPOWER" | new => "NEW"
  | clone => "CLONE" | «try» => "TRY" | untry => "UNTRY" | throw => "THROW" | retry => "RETRY"
  | retx => "RETX" | retxr => "RETXR"

/-- `eel_i_operands`. -/
def layout : Opcode → Layout
  | illegal | nop | phtrue | phfalse | pushnil | pushtup | phargs | «return» | retry | retx => .none
  | push | call | returnr | clean | argc | tupc | ldtrue | ldfalse | ldnil | initnil | asnnil
    | phargi | throw | retxr => .A
  | pushc | phvar | untry => .Ax
  | push2 | phuval | callr | spec | tspec | move | init | assign | getargi | phargi2 | setargi
    | neg | bnot | not | castr | casti | castb | typeof | sizeof | weakref | phadd | phsub
    | phmul | phdiv | phmod | phpower | new | clone => .AB
  | push3 | getuval | setuval | indseti | indgeti | indset | indget | gettargi | getuvargi
    | setuvargi | phbop | cast | add | sub | mul | div | mod | power => .ABC
  | push4 | getuvtargi | bop | ipbop => .ABCD
  | jump | pushi => .sAx
  | ccall | ldc | initc | assignc | getvar | setvar => .ABx
  | jumpz | jumpnz | ldi | initi | assigni => .AsBx
  | pushc2 | «try» => .AxBx
  | pushic | pushci => .AxsBx
  | ccallr | indsetc | indgetc => .ABCx
  | phbopi => .ABsCx
  | «switch» => .ABxsCx
  | bopc => .ABCDx
  | preloop | loop | bops | ipbops | bopi | ipbopi => .ABCsDx

/-- `eel_i_size`. -/
def iSize (op : Opcode) : Nat := op.layout.osize

/-- The byte in front of the operands. -/
def byte (op : Opcode) : Byte := BitVec.ofNat 8 op.ctorIdx

/-- The opcode of a byte of code. -/
def ofByte (b : Byte) : Option Opcode :=
  if b.toNat ≤ retxr.ctorIdx then some (ofNat b.toNat) else none

@[simp] theorem ofByte_byte {op : Opcode} : ofByte op.byte = some op := by
  cases op <;> rfl

end Opcode

/-! ## Operands -/

/-- A variable declared `unsigned` that is given an `int`. -/
def unsigned (x : BitVec 32) : Int := x.toNat

/-- A variable declared `int`. -/
def signed (x : BitVec 32) : Int := x.toInt

/-- `EEL_O8`. -/
def o8 (ins : Nat → Byte) (i : Nat) : BitVec 32 := (ins i).setWidth 32

/-- `EEL_O16`. -/
def o16 (ins : Nat → Byte) (i : Nat) : BitVec 32 :=
  (ins i).setWidth 32 ||| (ins (i + 1)).setWidth 32 <<< 8

/-- `EEL_OS16`. -/
def os16 (ins : Nat → Byte) (i : Nat) : BitVec 32 :=
  (ins i).setWidth 32 ||| (ins (i + 1)).signExtend 32 <<< 8

/-- `EEL_OPR_0` and so on: the operands A, B, C and D of an instruction. -/
def opr (ins : Nat → Byte) : Layout → List Int
  | .none => []
  | .A => [unsigned (o8 ins 1)]
  | .Ax => [unsigned (o16 ins 1)]
  | .AB => [unsigned (o8 ins 1), unsigned (o8 ins 2)]
  | .ABC => [unsigned (o8 ins 1), unsigned (o8 ins 2), unsigned (o8 ins 3)]
  | .ABCD =>
    [unsigned (o8 ins 1), unsigned (o8 ins 2), unsigned (o8 ins 3), unsigned (o8 ins 4)]
  | .sAx => [signed (os16 ins 1)]
  | .ABx => [unsigned (o8 ins 1), unsigned (o16 ins 2)]
  | .AsBx => [unsigned (o8 ins 1), signed (os16 ins 2)]
  | .AxBx => [unsigned (o16 ins 1), unsigned (o16 ins 3)]
  -- B is declared `unsigned` here, unlike the other signed operands.
  | .AxsBx => [unsigned (o16 ins 1), unsigned (os16 ins 3)]
  | .ABCx => [unsigned (o8 ins 1), unsigned (o8 ins 2), unsigned (o16 ins 3)]
  | .ABsCx => [unsigned (o8 ins 1), unsigned (o8 ins 2), signed (os16 ins 3)]
  | .ABxCx => [unsigned (o8 ins 1), unsigned (o16 ins 2), unsigned (o16 ins 4)]
  | .ABxsCx => [unsigned (o8 ins 1), unsigned (o16 ins 2), signed (os16 ins 4)]
  | .ABCDx =>
    [unsigned (o8 ins 1), unsigned (o8 ins 2), unsigned (o8 ins 3), unsigned (o16 ins 4)]
  | .ABCsDx =>
    [unsigned (o8 ins 1), unsigned (o8 ins 2), unsigned (o8 ins 3), signed (os16 ins 4)]

/-- What the VM loop takes from the code at `pc`: the opcode, the operands, and where it
goes on. -/
def fetchCode (code : List Byte) (pc : Nat) : Option (Opcode × List Int × Nat) :=
  let ins := fun i => (code[pc + i]?).getD 0
  (Opcode.ofByte (ins 0)).map fun op => (op, opr ins op.layout, pc + op.layout.osize)

/-! ## The instructions of the VM -/

namespace Instr

/-- The opcode of an instruction. -/
def opcode : Instr → Opcode
  | illegal => .illegal | nop => .nop | jump _ => .jump | jumpz .. => .jumpz
  | jumpnz .. => .jumpnz | «switch» .. => .«switch» | preloop .. => .preloop | loop .. => .loop
  | push _ => .push | push2 .. => .push2 | push3 .. => .push3 | push4 .. => .push4
  | pushi _ => .pushi | phtrue => .phtrue | phfalse => .phfalse | pushnil => .pushnil
  | pushc _ => .pushc | pushc2 .. => .pushc2 | pushic .. => .pushic | pushci .. => .pushci
  | phvar _ => .phvar | phuval .. => .phuval | pushtup => .pushtup | phargs => .phargs
  | call _ => .call | callr .. => .callr | ccall .. => .ccall | ccallr .. => .ccallr
  | «return» => .«return» | returnr _ => .returnr | clean _ => .clean | argc _ => .argc
  | tupc _ => .tupc | spec .. => .spec | tspec .. => .tspec | ldi .. => .ldi
  | ldtrue _ => .ldtrue | ldfalse _ => .ldfalse | ldnil _ => .ldnil | ldc .. => .ldc
  | move .. => .move | init .. => .init | initi .. => .initi | initnil _ => .initnil
  | initc .. => .initc | assign .. => .assign | assigni .. => .assigni | asnnil _ => .asnnil
  | assignc .. => .assignc | getuval .. => .getuval | setuval .. => .setuval
  | getvar .. => .getvar | setvar .. => .setvar | indseti .. => .indseti
  | indgeti .. => .indgeti | indset .. => .indset | indget .. => .indget
  | indsetc .. => .indsetc | indgetc .. => .indgetc | getargi .. => .getargi
  | phargi _ => .phargi | phargi2 .. => .phargi2 | setargi .. => .setargi
  | gettargi .. => .gettargi | getuvargi .. => .getuvargi | setuvargi .. => .setuvargi
  | getuvtargi .. => .getuvtargi | bop .. => .bop | phbop .. => .phbop | ipbop .. => .ipbop
  | bops .. => .bops | ipbops .. => .ipbops | bopi .. => .bopi | phbopi .. => .phbopi
  | ipbopi .. => .ipbopi | bopc .. => .bopc | neg .. => .neg | bnot .. => .bnot | not .. => .not
  | castr .. => .castr | casti .. => .casti | castb .. => .castb | cast .. => .cast
  | typeof .. => .typeof | sizeof .. => .sizeof | weakref .. => .weakref | add .. => .add
  | sub .. => .sub | mul .. => .mul | div .. => .div | mod .. => .mod | power .. => .power
  | phadd .. => .phadd | phsub .. => .phsub | phmul .. => .phmul | phdiv .. => .phdiv
  | phmod .. => .phmod | phpower .. => .phpower | new .. => .new | clone .. => .clone
  | «try» .. => .«try» | untry _ => .untry | throw _ => .throw | retry => .retry | retx => .retx
  | retxr _ => .retxr

theorem size_eq (i : Instr) : i.size = i.opcode.iSize := by
  cases i <;> rfl

end Instr

end Eel
