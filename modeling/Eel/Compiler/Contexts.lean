-- SUMMARY: The state of the compiler between texts: contexts, jump buffers and symbols, and how an error unwinds them.
import Mathlib.Data.List.Basic

/-!
# Contexts

A context is pushed for whatever has variables, functions or jumps of its own. An error
pops the contexts that were pushed since the last `eel_try`, and jumps to its handler.
-/

namespace Eel

/-- `EEL_symtypes`. -/
inductive SymType where
  | undefined
  | keyword
  | «variable»
  | upvalue
  | body
  | «namespace»
  | constant
  | «class»
  | module
  | function
  | operator
  deriving DecidableEq

/-- A symbol, with those it is below, the closest first. -/
structure Symbol where
  id : Nat
  parents : List Nat
  type : SymType
  name : Option String
  deriving DecidableEq

/-- `EEL_ctxtypes`. -/
inductive ContextType where
  | block
  | body
  | module
  | function
  deriving DecidableEq

structure Context where
  type : ContextType
  symtab : Symbol
  deriving DecidableEq

/-- The part of `EEL_state` that compiling works on. A jump buffer is the number of contexts
that were pushed since it was set up. -/
structure Compiler (L : Type) where
  contexts : List Context
  jumpbufs : List Nat
  symbols : List Symbol
  nextSymbol : Nat
  modnames : List String
  includeDepth : Int
  moduleLock : Int
  qualifiers : Nat
  lexer : L

namespace Compiler

variable {L : Type} (es : Compiler L)

/-! ## Symbols -/

/-- `root_symtab`. -/
def root : Symbol := ⟨0, [], .body, some "root_namespace"⟩

/-- `eel_s_add`. -/
def sAdd (parent : Symbol) (type : SymType) (name : Option String) : Symbol × Compiler L :=
  let s : Symbol := ⟨es.nextSymbol, parent.id :: parent.parents, type, name⟩
  (s, { es with symbols := es.symbols ++ [s], nextSymbol := es.nextSymbol + 1 })

/-- `eel_s_free`. -/
def sFree (id : Nat) : Compiler L :=
  { es with symbols := es.symbols.filter fun s => s.id ≠ id ∧ id ∉ s.parents }

/-- `eel_s_rename`. -/
def sRename (id : Nat) (name : String) : Compiler L :=
  { es with symbols := es.symbols.map fun s => if s.id = id then { s with name := some name } else s }

/-- `es->context->symtab`. -/
def symtab : Symbol :=
  match es.contexts with
  | c :: _ => c.symtab
  | [] => root

/-! ## Contexts -/

/-- The number of contexts since `eel_try` changes, if there was one. -/
def count (f : Nat → Nat) : Compiler L :=
  match es.jumpbufs with
  | n :: jumpbufs => { es with jumpbufs := f n :: jumpbufs }
  | [] => es

def link (type : ContextType) (symtab : Symbol) : Compiler L :=
  { es with contexts := ⟨type, symtab⟩ :: es.contexts }

/-- `eel_context_push`. A block has no symbols of its own, and a module is below the root. -/
def contextPush (type : ContextType) (name : Option String) : Compiler L :=
  let es := es.count (· + 1)
  match type with
  | .block => es.link .block es.symtab
  | .body =>
    let (s, es) := es.sAdd es.symtab .body name
    es.link .body s
  | .function =>
    let (s, es) := es.sAdd es.symtab .function name
    es.link .function s
  | .module =>
    let (s, es) := es.sAdd root .module name
    { es.link .module s with moduleLock := es.moduleLock + 1 }

/-- `eel_context_pop`. The last context is never popped. -/
def contextPop : Compiler L :=
  match es.contexts with
  | c :: c' :: contexts =>
    let lock := if c.type = ContextType.module then es.moduleLock - 1 else es.moduleLock
    { es with contexts := c' :: contexts, moduleLock := lock }.count (· - 1)
  | _ => es

/-! ## Exceptions -/

/-- `eel__try`. -/
def eelTry : Compiler L := { es with jumpbufs := 0 :: es.jumpbufs }

/-- `eel_done`. -/
def eelDone : Compiler L := { es with jumpbufs := es.jumpbufs.tail }

def popContexts : Nat → Compiler L → Compiler L
  | 0, es => es
  | n + 1, es => popContexts n es.contextPop

/-- `eel__cthrow`, as the handler finds the state. -/
def cthrow : Compiler L := (popContexts (es.jumpbufs.headD 0) es).eelDone

/-! ## Lemmas -/

variable {es} {c c' : Context} {rest : List Context} {n : Nat} {ns : List Nat}

theorem contextPop_cons (hc : es.contexts = c :: c' :: rest) (hn : es.jumpbufs = n :: ns) :
    es.contextPop =
      { es with
          contexts := c' :: rest
          jumpbufs := (n - 1) :: ns
          moduleLock := if c.type = ContextType.module then es.moduleLock - 1 else es.moduleLock } := by
  unfold contextPop
  rw [hc]
  dsimp only [count]
  rw [hn]

/-- The modules among contexts. -/
def modules (contexts : List Context) : Nat := contexts.countP (·.type = .module)

/-- What an error does: the contexts since `eel_try` are gone, and so are their locks. -/
theorem cthrow_eq (hn : es.jumpbufs = n :: ns) (hlt : n < es.contexts.length) :
    es.cthrow =
      { es with
          contexts := es.contexts.drop n
          jumpbufs := ns
          moduleLock := es.moduleLock - modules (es.contexts.take n) } := by
  have hpop : ∀ (n : Nat) (es : Compiler L) (m : Nat), es.jumpbufs = m :: ns → n < es.contexts.length →
      popContexts n es =
        { es with
            contexts := es.contexts.drop n
            jumpbufs := (m - n) :: ns
            moduleLock := es.moduleLock - modules (es.contexts.take n) } := by
    intro n
    induction n with
    | zero =>
      intro es m hm _
      have hlock : es.moduleLock - ((modules (es.contexts.take 0) : Nat) : Int) = es.moduleLock := by
        simp [modules]
      rw [hlock, Nat.sub_zero, ← hm]
      rfl
    | succ n ih =>
      intro es m hm hlt
      obtain ⟨c, c', rest, hc⟩ : ∃ c c' rest, es.contexts = c :: c' :: rest := by
        match hcs : es.contexts with
        | c :: c' :: rest => exact ⟨c, c', rest, rfl⟩
        | [_] | [] =>
          rw [hcs] at hlt
          simp at hlt
      rw [hc] at hlt
      show popContexts n es.contextPop = _
      rw [contextPop_cons hc hm, ih _ (m - 1) rfl (Nat.lt_of_succ_lt_succ hlt)]
      dsimp only
      have hlock : (if c.type = ContextType.module then es.moduleLock - 1 else es.moduleLock) -
          ((modules ((c' :: rest).take n) : Nat) : Int) =
            es.moduleLock - ((modules ((c :: c' :: rest).take (n + 1)) : Nat) : Int) := by
        unfold modules
        rw [List.take_succ_cons, List.countP_cons]
        by_cases hmodule : c.type = ContextType.module
        · simp only [hmodule, if_pos, decide_true]
          omega
        · simp [hmodule]
      rw [hlock, hc, List.drop_succ_cons, Nat.sub_sub, Nat.add_comm 1 n]
  unfold cthrow
  rw [hn]
  dsimp only [List.headD]
  rw [hpop n es n hn hlt]
  rfl

end Compiler

end Eel
