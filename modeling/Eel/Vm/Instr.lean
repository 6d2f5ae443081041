-- SUMMARY: The instruction set of the VM, with the size of every instruction's code.
import Mathlib.Logic.Basic

/-!
# Instructions

Operands are named as in the instruction list: registers and arguments are
unsigned, immediates and jump offsets signed.
-/

namespace Eel

/-- `EEL_operators`. -/
inductive Operator where
  | assign | wkassn
  | power | mod | div | mul | sub | add
  | vpower | vmod | vdiv | vmul | vsub | vadd
  | band | bor | bxor | shl | shr | rol | ror | brev
  | and | or | xor | eq | ne | gt | ge | lt | le | «in»
  | max | min
  | neg | castr | casti | castb | typeof | sizeof | clone
  | not
  | bnot
  deriving DecidableEq, Repr

/-- `EEL_INSTRUCTIONS`. -/
inductive Instr where
  | illegal
  | nop
  -- Local flow control
  | jump (a : Int)
  | jumpz (a : Nat) (b : Int)
  | jumpnz (a : Nat) (b : Int)
  | «switch» (a b : Nat) (c : Int)
  | preloop (a b c : Nat) (d : Int)
  | loop (a b c : Nat) (d : Int)
  -- Argument stack operations
  | push (a : Nat)
  | push2 (a b : Nat)
  | push3 (a b c : Nat)
  | push4 (a b c d : Nat)
  | pushi (a : Int)
  | phtrue
  | phfalse
  | pushnil
  | pushc (a : Nat)
  | pushc2 (a b : Nat)
  | pushic (a : Nat) (b : Int)
  | pushci (a : Nat) (b : Int)
  | phvar (a : Nat)
  | phuval (a b : Nat)
  | pushtup
  | phargs
  -- Function calls
  | call (a : Nat)
  | callr (a b : Nat)
  | ccall (a b : Nat)
  | ccallr (a b c : Nat)
  | «return»
  | returnr (a : Nat)
  -- Memory management
  | clean (a : Nat)
  -- Optional and tuple argument checking
  | argc (a : Nat)
  | tupc (a : Nat)
  | spec (a b : Nat)
  | tspec (a b : Nat)
  -- Immediate values and constants
  | ldi (a : Nat) (b : Int)
  | ldtrue (a : Nat)
  | ldfalse (a : Nat)
  | ldnil (a : Nat)
  | ldc (a b : Nat)
  -- Register access
  | move (a b : Nat)
  -- Register variables
  | init (a b : Nat)
  | initi (a : Nat) (b : Int)
  | initnil (a : Nat)
  | initc (a b : Nat)
  | assign (a b : Nat)
  | assigni (a : Nat) (b : Int)
  | asnnil (a : Nat)
  | assignc (a b : Nat)
  -- Upvalues
  | getuval (a b c : Nat)
  | setuval (a b c : Nat)
  -- Static variables
  | getvar (a b : Nat)
  | setvar (a b : Nat)
  -- Indexed access
  | indseti (a b c : Nat)
  | indgeti (a b c : Nat)
  | indset (a b c : Nat)
  | indget (a b c : Nat)
  | indsetc (a b c : Nat)
  | indgetc (a b c : Nat)
  -- Argument access
  | getargi (a b : Nat)
  | phargi (a : Nat)
  | phargi2 (a b : Nat)
  | setargi (a b : Nat)
  | gettargi (a b c : Nat)
  | getuvargi (a b c : Nat)
  | setuvargi (a b c : Nat)
  | getuvtargi (a b c d : Nat)
  -- Operators
  | bop (a b : Nat) (c : Operator) (d : Nat)
  | phbop (a : Nat) (b : Operator) (c : Nat)
  | ipbop (a b : Nat) (c : Operator) (d : Nat)
  | bops (a b : Nat) (c : Operator) (d : Nat)
  | ipbops (a b : Nat) (c : Operator) (d : Nat)
  | bopi (a b : Nat) (c : Operator) (d : Int)
  | phbopi (a : Nat) (b : Operator) (c : Int)
  | ipbopi (a b : Nat) (c : Operator) (d : Int)
  | bopc (a b : Nat) (c : Operator) (d : Nat)
  | neg (a b : Nat)
  | bnot (a b : Nat)
  | not (a b : Nat)
  | castr (a b : Nat)
  | casti (a b : Nat)
  | castb (a b : Nat)
  | cast (a b c : Nat)
  | typeof (a b : Nat)
  | sizeof (a b : Nat)
  | weakref (a b : Nat)
  | add (a b c : Nat)
  | sub (a b c : Nat)
  | mul (a b c : Nat)
  | div (a b c : Nat)
  | mod (a b c : Nat)
  | power (a b c : Nat)
  | phadd (a b : Nat)
  | phsub (a b : Nat)
  | phmul (a b : Nat)
  | phdiv (a b : Nat)
  | phmod (a b : Nat)
  | phpower (a b : Nat)
  -- Constructors
  | new (a b : Nat)
  | clone (a b : Nat)
  -- Exception handling
  | «try» (a b : Nat)
  | untry (a : Nat)
  | throw (a : Nat)
  | retry
  | retx
  | retxr (a : Nat)
  deriving DecidableEq, Repr

/-- `eel_i_size`, in bytes. -/
def Instr.size : Instr → Nat
  | .illegal | .nop | .phtrue | .phfalse | .pushnil | .pushtup | .phargs | .«return»
  | .retry | .retx => 1
  | .push _ | .call _ | .returnr _ | .clean _ | .argc _ | .tupc _ | .ldtrue _ | .ldfalse _
  | .ldnil _ | .initnil _ | .asnnil _ | .phargi _ | .throw _ | .retxr _ => 2
  | .jump _ | .pushi _ | .pushc _ | .phvar _ | .untry _ => 3
  | .push2 .. | .phuval .. | .callr .. | .spec .. | .tspec .. | .move .. | .init ..
  | .assign .. | .phargi2 .. | .getargi .. | .setargi .. | .neg .. | .bnot .. | .not ..
  | .castr .. | .casti .. | .castb .. | .typeof .. | .sizeof .. | .weakref ..
  | .phadd .. | .phsub .. | .phmul .. | .phdiv .. | .phmod .. | .phpower ..
  | .new .. | .clone .. => 3
  | .jumpz .. | .jumpnz .. | .push3 .. | .ccall .. | .ldi .. | .ldc .. | .initi .. | .initc ..
  | .assigni .. | .assignc .. | .getuval .. | .setuval .. | .getvar .. | .setvar ..
  | .indseti .. | .indgeti .. | .indset .. | .indget .. | .gettargi .. | .getuvargi ..
  | .setuvargi .. | .phbop .. | .cast .. | .add .. | .sub .. | .mul .. | .div .. | .mod ..
  | .power .. => 4
  | .push4 .. | .pushc2 .. | .pushic .. | .pushci .. | .ccallr .. | .indsetc .. | .indgetc ..
  | .getuvtargi .. | .bop .. | .ipbop .. | .phbopi .. | .«try» .. => 5
  | .«switch» .. | .preloop .. | .loop .. | .bops .. | .ipbops .. | .bopi .. | .ipbopi ..
  | .bopc .. => 6

end Eel
