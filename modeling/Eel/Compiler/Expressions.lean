-- SUMMARY: The expression level of the parser: chains of operators, casts, lists and indexing.
import Eel.Compiler.FoldCode
import Eel.Lib.Procedures

/-!
# Expressions

An expression is a list of manipulators. Operators have priorities, but all that is left of these is
that an operand is read with a limit that no operator exceeds.
-/

namespace Eel

open Procedures Prog

/-- The operators of the language, by their symbols. -/
inductive OperatorSym where
  | minus
  | typeof
  | sizeof
  | clone
  | bnot
  | not
  | power
  | mod
  | div
  | mul
  | add
  | vpower
  | vmod
  | vdiv
  | vmul
  | vsub
  | vadd
  | band
  | bor
  | bxor
  | shl
  | shr
  | rol
  | ror
  | brev
  | min
  | max
  | lt
  | le
  | gt
  | ge
  | eq
  | ne
  | and
  | or
  | xor
  | wkassn
  | «in»
  deriving DecidableEq

/-- The fields of `EEL_operator` for the operator between two operands. -/
structure BinaryOperator where
  op : Operator
  lpri : Int
  rpri : Int

/-- The fields for the operator in front of an operand. -/
structure UnaryOperator where
  op : Operator
  pri : Int

namespace OperatorSym

/-- `eel_register_binop`. -/
def binop (op : Operator) (pri : Int) : Option BinaryOperator := some ⟨op, pri, pri⟩

/-- The same, with `EOPF_RIGHT`. -/
def binopRight (op : Operator) (pri : Int) : Option BinaryOperator := some ⟨op, pri, pri - 1⟩

/-- What is registered as a binary operator. None has `EOPF_NORESULT`. -/
def binary? : OperatorSym → Option BinaryOperator
  | power => binopRight .power 90
  | mod => binop .mod 70
  | div => binop .div 70
  | mul => binop .mul 70
  | minus => binop .sub 60
  | add => binop .add 60
  | vpower => binopRight .vpower 90
  | vmod => binop .vmod 70
  | vdiv => binop .vdiv 70
  | vmul => binop .vmul 70
  | vsub => binop .vsub 60
  | vadd => binop .vadd 60
  | band => binop .band 70
  | bor => binop .bor 60
  | bxor => binop .bxor 60
  | shl => binop .shl 55
  | shr => binop .shr 55
  | rol => binop .rol 55
  | ror => binop .ror 55
  | brev => binop .brev 55
  | min => binop .min 50
  | max => binop .max 50
  | lt => binop .lt 40
  | le => binop .le 40
  | gt => binop .gt 40
  | ge => binop .ge 40
  | eq => binop .eq 30
  | ne => binop .ne 30
  | and => binop .and 20
  | or => binop .or 10
  | xor => binop .xor 10
  | wkassn => binop .wkassn 0
  | «in» => binop .in 110
  | typeof | sizeof | clone | bnot | not => none

/-- `eel_register_unop`. -/
def unary? : OperatorSym → Option UnaryOperator
  | minus => some ⟨.neg, 100⟩
  | typeof => some ⟨.typeof, 100⟩
  | sizeof => some ⟨.sizeof, 100⟩
  | clone => some ⟨.clone, 100⟩
  | bnot => some ⟨.bnot, 100⟩
  | not => some ⟨.not, 25⟩
  | _ => none

end OperatorSym

/-- The tokens that the expression level looks at. `constant` stands for the keywords of values, strings
and constants, with the value. -/
inductive ExprToken where
  | inum (v : BitVec 32)
  | rnum (bits : BitVec 64)
  | constant (v : Value)
  | operator (op : OperatorSym)
  | char (c : Char)
  | other
  deriving DecidableEq

/-- What the expression level works with. The state `S` is that of the lexer and of the compiler; a
constant is folded in a world `W`. Whatever fails has raised an error. -/
structure ExprParser (S W : Type) where
  token : S → ExprToken
  /-- `eel_lex`, without flags. -/
  lex : S → Option S
  /-- `eel_relex`, without flags. -/
  relex : S → Option S
  /-- What `simplexp` does for the qualifiers in front of it. -/
  qualify : S → Option S
  /-- Whether there are qualifiers that have not been handled. -/
  qualified : S → Bool
  /-- `check_class`. -/
  isClass : S → BitVec 32 → Bool
  /-- The other rules that `simplexp2` tries. None of them may take the text. -/
  other : (wantresult : Bool) → S → Option (Option (List Manip × S))
  /-- What is behind `.` or `:`, other than an operator: indices. -/
  field : S → Option (List Manip × S)
  /-- `call_member`, with `self`: the results of the call. -/
  callMember : (wantresult : Bool) → (fn self : Manip) → S → Option (List Manip × S)
  /-- `call_indirect`. -/
  callIndirect : (wantresult : Bool) → (fn : Manip) → S → Option (List Manip × S)
  ops : Meta W
  world : S → W
  /-- What is on the stack where a folded value is written. -/
  stale : S → Value

/-- The answers of `expression2` and of `listof`. -/
inductive ExprAnswer where
  /-- This is not an expression: -3, or `TK_WRONG`. -/
  | wrong
  /-- -1, or `TK_EXPLIST`. -/
  | done
  /-- The priority of the operator behind the expression. -/
  | priority (lpri : Int)
  deriving DecidableEq

/-- The functions that call each other, and the loops in them. -/
inductive ExprCall (S : Type) where
  | expression2 (limit : Int) (wantresult : Bool) (s : S)
  /-- The loop of `expression3`. -/
  | operations (limit : Int) (left : List Manip) (s : S)
  /-- The loop of `listof`, for expressions. -/
  | listof (first wantresult : Bool) (sal : List Manip) (s : S)
  /-- The loop of `simplexp`. -/
  | indexing (wantresult : Bool) (al : List Manip) (s : S)

namespace ExprParser

variable {S W : Type} (P : ExprParser S W)

abbrev Parse (S α : Type) := Prog (ExprCall S) (ExprAnswer × List Manip × S) α

/-- An error is raised unless this is so. -/
def require {S : Type} (p : Bool) : Parse S Unit := if p then .ret () else .fail

/-- `expect`. -/
def expect (c : Char) (s : S) : Option S := if P.token s = .char c then P.lex s else none

/-- `eel_m_op`. -/
def mOp (s : S) (left : Option Manip) (op : Operator) (right : Manip) : Option Manip :=
  Manip.mOp P.ops (P.stale s) left op right (P.world s)

/-- `eel_m_cast`. -/
def mCast (s : S) (cid : BitVec 32) (object : Manip) : Option Manip :=
  Manip.mCast P.ops (P.stale s) object cid (P.world s)

/-! ## Operators on lists -/

/-- The loop that takes operands from the front of `left` and adds results at its end, with `n` rounds
to go. -/
def applyAll (s : S) (op : Operator) (right : List Manip) (linc : Bool) (rinc : Nat) :
    (n ri : Nat) → (left : List Manip) → Option (List Manip)
  | 0, _, left => some left
  | n + 1, ri, left => do
    let lm ← left.head?
    let rm ← right[ri]?
    let m ← P.mOp s (some lm) op rm
    let left := left ++ [m]
    applyAll s op right linc rinc n (ri + rinc) (if linc ∨ n = 0 then left.tail else left)

/-- A binary operator, in `expression3`. -/
def applyBinary (s : S) (op : Operator) (left right : List Manip) : Option (List Manip) :=
  if left.length = 1 then
    if right.length = 0 then none else P.applyAll s op right false 1 right.length 0 left
  else if right.length = 1 then
    if left.length = 0 then none else P.applyAll s op right true 0 left.length 0 left
  else if left.length < right.length then none
  else if right.length < left.length then none
  else P.applyAll s op right true 1 left.length 0 left

/-- `do_index`. -/
def doIndex (obj ind : List Manip) : Option (List Manip) :=
  if obj.length = 0 ∨ ind.length = 0 then none
  else if obj.length = 1 then some (obj.flatMap fun o => ind.map fun i => .index o i)
  else if ind.length = 1 then some (obj.flatMap fun o => ind.map fun i => .index o i)
  else if obj.length ≠ ind.length then none
  else some (obj.zipWith .index ind)

/-- The class of a cast: the last one in the parentheses is a class, and not that of functions. -/
def castClass (al : List Manip) : Option (BitVec 32) :=
  match al.getLast? with
  | some (.constant (.classid cid)) => if cid = 12 then none else some cid
  | _ => none

/-- A string. -/
def isString (m : Manip) : Bool :=
  match m with
  | .constant v => v.obj?.any fun o => P.ops.classOf o = 10
  | _ => false

/-! ## Operands -/

/-- A constant is taken from the text. -/
def constant (v : Value) (s : S) : Parse S (Option (List Manip) × S) := do
  require (!P.qualified s)
  let t ← ofOption (P.lex s)
  .ret (some [.constant v], t)

/-- The parentheses of `simplexp2`: a list, or a cast. -/
def parens (s : S) : Parse S (Option (List Manip) × S) := do
  require (!P.qualified s)
  let t ← ofOption (P.lex s)
  let (res, al, t) ← ask (.listof true true [] t)
  require (res ≠ .wrong)
  let t ← ofOption (P.expect ')' t)
  match castClass al with
  | none => .ret (some al, t)
  | some cid =>
    let (_, src, t) ← ask (.expression2 (100 + 1000) true t)
    require (!src.isEmpty)
    require (P.isClass t cid)
    let casts ← ofOption (src.mapM (P.mCast t cid))
    .ret (some (al.dropLast ++ casts), t)

/-- `simplexp2`: what it adds to the list, unless it answers `TK_WRONG`. -/
def simplexp2 (wantresult : Bool) (s : S) : Parse S (Option (List Manip) × S) :=
  match P.token s with
  | .inum v => P.constant (.integer v) s
  | .rnum bits => P.constant (.real bits) s
  | .constant v => P.constant v s
  | .operator op =>
    if (op.unary?.map UnaryOperator.op) = some .neg then do
      let t ← ofOption (P.lex s)
      match P.token t with
      | .inum v => P.constant (.integer (-v)) t
      | .rnum bits => P.constant (.real (bits ^^^ 0x8000000000000000#64)) t
      | _ => .ret (none, s)
    else .ret (none, s)
  | .char '(' => P.parens s
  | _ =>
    (ofOption (P.other wantresult s)).bind fun
      | some (al, t) => .ret (some al, t)
      | none => .ret (none, s)

/-- `simplexp`. -/
def simplexp (wantresult : Bool) (s : S) : Parse S (Option (List Manip) × S) := do
  let s ← ofOption (P.qualify s)
  match ← P.simplexp2 wantresult s with
  | (none, s) =>
    require (!P.qualified s)
    let s ← ofOption (P.relex s)
    .ret (none, s)
  | (some [], s) =>
    require (!P.qualified s)
    let s ← ofOption (P.relex s)
    .ret (some [], s)
  | (some al, s) =>
    require (!P.qualified s)
    -- A string in front of a colon is the key of an item of a table.
    if P.token s = .char ':' ∧ al.getLast?.any P.isString then .ret (some al, s)
    else
      let (_, al, s) ← ask (.indexing wantresult al s)
      .ret (some al, s)

/-- `expression3` up to the loop: an operand, if there is one. -/
def operand (wantresult : Bool) (s : S) : Parse S (Option (List Manip) × S) := do
  match ← P.simplexp wantresult s with
  | (some left, s) => .ret (some left, s)
  | (none, s) =>
    match P.token s with
    | .operator op =>
      let u ← ofOption op.unary?
      let t ← ofOption (P.lex s)
      let (_, right, t) ← ask (.expression2 (u.pri + 1000) true t)
      require (!right.isEmpty)
      let left ← ofOption (right.mapM (P.mOp t none u.op))
      .ret (some left, t)
    | _ => .ret (none, s)

/-- `expression2`. -/
def expression2 (limit : Int) (wantresult : Bool) (s : S) : Parse S (ExprAnswer × List Manip × S) := do
  match ← P.operand wantresult s with
  | (some left, s) => ask (.operations limit left s)
  | (none, s) => .ret (if limit = -1 then .wrong else .done, [], s)

/-- A round of the loop of `expression3`. -/
def operations (limit : Int) (left : List Manip) (s : S) : Parse S (ExprAnswer × List Manip × S) :=
  match P.token s with
  | .operator op => do
    let b ← ofOption op.binary?
    if b.lpri ≤ limit then .ret (.priority b.lpri, left, s)
    else
      let t ← ofOption (P.lex s)
      let (_, right, t) ← ask (.expression2 (b.rpri + 1000) true t)
      let left ← ofOption (P.applyBinary t b.op left right)
      ask (.operations limit left t)
  | _ => .ret (.done, left, s)

/-! ## Lists and indexing -/

/-- A round of the loop of `listof`. -/
def listof (first wantresult : Bool) (sal : List Manip) (s : S) : Parse S (ExprAnswer × List Manip × S) := do
  let (res, al, s) ← ask (.expression2 (-1) wantresult s)
  if res = .wrong then .ret (if first then .wrong else .done, sal, s)
  else if P.token s = .char ',' then
    let s ← ofOption (P.lex s)
    ask (.listof false wantresult (sal ++ al) s)
  else .ret (.done, sal ++ al, s)

/-- A round of the loop of `simplexp`. -/
def indexing (wantresult : Bool) (al : List Manip) (s : S) : Parse S (ExprAnswer × List Manip × S) :=
  match P.token s with
  | .char '[' => do
    let t ← ofOption (P.lex s)
    let (_, ind, t) ← ask (.listof true true [] t)
    let t ← ofOption (P.expect ']' t)
    let vals ← ofOption (doIndex al ind)
    ask (.indexing wantresult vals t)
  | .char '.' => do
    let t ← ofOption (P.lex s)
    match P.token t with
    | .operator _ => .ret (.done, al, s)
    | _ =>
      let (ind, t) ← ofOption (P.field s)
      let vals ← ofOption (doIndex al ind)
      ask (.indexing wantresult vals t)
  | .char ':' => do
    let t ← ofOption (P.lex s)
    match P.token t with
    | .operator _ => .ret (.done, al, s)
    | _ =>
      let (ind, t) ← ofOption (P.field s)
      let vals ← ofOption (doIndex al ind)
      match al, vals with
      | [self], [fn] =>
        let t ← ofOption (P.expect '(' t)
        let (res, t) ← ofOption (P.callMember wantresult fn self t)
        ask (.indexing wantresult res t)
      | _, _ => .fail
  | .char '(' => do
    let t ← ofOption (P.lex s)
    match al with
    | [fn] =>
      let (res, t) ← ofOption (P.callIndirect wantresult fn t)
      ask (.indexing wantresult res t)
    | _ => .fail
  | _ => .ret (.done, al, s)

/-- The functions. -/
def code : ExprCall S → Parse S (ExprAnswer × List Manip × S)
  | .expression2 limit wantresult s => P.expression2 limit wantresult s
  | .operations limit left s => P.operations limit left s
  | .listof first wantresult sal s => P.listof first wantresult sal s
  | .indexing wantresult al s => P.indexing wantresult al s

/-- `expression`, which is where a chain of operators is read. -/
def expression (wantresult : Bool) (s : S) : Parse S (ExprAnswer × List Manip × S) :=
  ask (.expression2 (-1) wantresult s)

end ExprParser

end Eel
