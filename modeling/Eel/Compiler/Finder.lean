-- SUMMARY: Searching the symbol tree: what repeated calls of eel_finder_go return, upward and downward.
import Eel.Compiler.Contexts
import Eel.Core.Value
import Mathlib.Data.List.Perm.Subperm

/-!
# The symbol finder

A finder walks the symbol tree in memory, along the pointers of the symbols. All it remembers
between two calls is a table and a symbol.
-/

namespace Eel

abbrev SymId := Nat

/-- `EEL_symbol`: what a finder reads of it. -/
structure SymbolNode where
  name : Option ObjId
  type : SymType
  parent : Option SymId
  next : Option SymId
  symbols : Option SymId

abbrev SymbolHeap := SymId → Option SymbolNode

/-- `EEL_finder`, but for the index, which nothing reads. -/
structure Finder where
  start : Option SymId
  symtab : Option SymId
  symbol : Option SymId
  name : Option ObjId
  types : BitVec 32
  flags : BitVec 32

def estfName : BitVec 32 := 0x00000001
def estfTypes : BitVec 32 := 0x00000002
def estfUp : BitVec 32 := 0x00000010
def estfDown : BitVec 32 := 0x00000020

/-- The number of a symbol type. -/
def SymType.toNat : SymType → Nat
  | .undefined => 0
  | .keyword => 1
  | .variable => 2
  | .upvalue => 3
  | .body => 4
  | .namespace => 5
  | .constant => 6
  | .class => 7
  | .module => 8
  | .function => 9
  | .operator => 10

/-- `eel_finder_init`. -/
def eelFinderInit (st : Option SymId) (flags : BitVec 32) : Finder := ⟨st, st, none, none, -1, flags⟩

namespace Finder

/-- What a round of the loop of `eel_finder_go` comes to. -/
inductive Round where
  | complete (f : Finder)
  | on (f : Finder) (hit : Option SymId)

/-- `f` with another table and symbol. -/
def put (f : Finder) (symtab symbol : Option SymId) : Finder := { f with symtab, symbol }

/-- `(1 << type) & f->types`. -/
def hasType (f : Finder) (type : SymType) : Bool := (1#32 <<< type.toNat) &&& f.types ≠ 0

/-- The check for a match. -/
def test (f : Finder) (n : SymbolNode) : Bool :=
  if f.flags &&& estfName ≠ 0 ∧ f.name ≠ none ∧ (n.name = none ∨ n.name ≠ f.name) then false
  else if f.flags &&& estfTypes ≠ 0 then f.hasType n.type
  else true

/-- The check for downward recursion. -/
def descends (f : Finder) (type : SymType) : Bool :=
  f.flags &&& estfDown ≠ 0 ∧ (f.flags &&& estfTypes = 0 ∨ f.hasType type)

/-- The symbol to look at, the next or the first. -/
def cursor (H : SymbolHeap) (f : Finder) : Option (Option SymId) :=
  match f.symbol with
  | some s => (H s).map SymbolNode.next
  | none => (f.symtab.bind H).map SymbolNode.symbols

/-- What is done at the end of a table. -/
def leave (H : SymbolHeap) (f : Finder) : Option Round :=
  if f.flags &&& estfUp ≠ 0 then
    (f.symtab.bind H).map fun n =>
      match n.parent with
      | none => .complete (f.put f.symtab none)
      | some p => .on (f.put (some p) none) none
  else if f.flags &&& estfDown ≠ 0 then
    if f.symtab = f.start then some (.complete (f.put f.symtab none))
    else (f.symtab.bind H).map fun n => .on (f.put n.parent f.symtab) none
  else some (.complete (f.put f.symtab none))

/-- What is done with a symbol. -/
def visit (H : SymbolHeap) (f : Finder) (s : SymId) : Option Round :=
  (H s).map fun n =>
    let hit := if f.test n then some s else none
    if n.symbols ≠ none ∧ f.descends n.type then .on (f.put (some s) none) hit
    else .on (f.put f.symtab (some s)) hit

/-- A round of the loop. -/
def round (H : SymbolHeap) (f : Finder) : Option Round :=
  (f.cursor H).bind fun
    | none => f.leave H
    | some s => f.visit H s

/-- The loop of `eel_finder_go`, of so many rounds at most. -/
def loop (H : SymbolHeap) : (rounds : Nat) → Finder → Option (Option SymId × Finder)
  | 0, _ => none
  | rounds + 1, f =>
    (f.round H).bind fun
      | .complete f => some (none, f)
      | .on f (some s) => some (some s, f)
      | .on f none => loop H rounds f

/-- `eel_finder_go`. -/
def eelFinderGo (H : SymbolHeap) (rounds : Nat) (f : Finder) : Option (Option SymId × Finder) :=
  if f.symtab = none then some (none, f) else loop H rounds f

/-- What a call returns, however many rounds it may take. -/
def Returns (H : SymbolHeap) (f : Finder) (result : Option SymId) (f' : Finder) : Prop :=
  ∃ n, ∀ rounds, n ≤ rounds → f.eelFinderGo H rounds = some (result, f')

/-- What calls return one after the other, up to the first `NULL`. -/
inductive Yields (H : SymbolHeap) : Finder → List SymId → Prop
  | done {f f' : Finder} (h : Returns H f none f') : Yields H f []
  | hit {f f' : Finder} {s : SymId} {l : List SymId} (h : Returns H f (some s) f') (hrest : Yields H f' l) :
      Yields H f (s :: l)

end Finder

/-! ## Symbol trees -/

/-- Symbols of a table, each with those below it, and the next ones. -/
inductive SymbolList where
  | nil
  | cons (s : SymId) (name : Option ObjId) (type : SymType) (symbols next : SymbolList)

/-- A symbol with those below it. -/
structure SymbolEntry where
  id : SymId
  name : Option ObjId
  type : SymType
  symbols : SymbolList

namespace SymbolList

def toList : SymbolList → List SymbolEntry
  | nil => []
  | cons s name type symbols next => ⟨s, name, type, symbols⟩ :: next.toList

def first? : SymbolList → Option SymId
  | nil => none
  | cons s .. => some s

/-- All symbols, at any depth. -/
def ids : SymbolList → List SymId
  | nil => []
  | cons s _ _ symbols next => s :: (symbols.ids ++ next.ids)

end SymbolList

namespace SymbolHeap

/-- The symbols of a table are in memory. -/
def Holds (H : SymbolHeap) : (parent : SymId) → SymbolList → Prop
  | _, .nil => True
  | parent, .cons s name type symbols next =>
    H s = some ⟨name, type, some parent, next.first?, symbols.first?⟩ ∧ Holds H s symbols ∧ Holds H parent next

/-- A symbol tree is in memory. -/
structure IsTree (H : SymbolHeap) (root : SymbolEntry) : Prop where
  node : ∃ n, H root.id = some n ∧ n.parent = none ∧ n.symbols = root.symbols.first?
  symbols : H.Holds root.id root.symbols
  nodup : (root.id :: root.symbols.ids).Nodup

end SymbolHeap

/-- A table of the tree, and those that enclose it, innermost first. -/
inductive Enclosing (root : SymbolEntry) : SymbolEntry → List SymbolEntry → Prop
  | root : Enclosing root root []
  | sub {t s : SymbolEntry} {ts : List SymbolEntry} (h : Enclosing root t ts) (hs : s ∈ t.symbols.toList) :
      Enclosing root s (t :: ts)

namespace Finder

/-- The symbols that a search is for. -/
def Accepts (f : Finder) (s : SymbolEntry) : Prop :=
  (f.flags &&& estfName ≠ 0 → f.name ≠ none → s.name = f.name) ∧ (f.flags &&& estfTypes ≠ 0 → f.hasType s.type)

instance (f : Finder) (s : SymbolEntry) : Decidable (f.Accepts s) := inferInstanceAs (Decidable (_ ∧ _))

/-- The tables that a search downward enters: the start table, and symbols of the types that are accepted. -/
inductive Entered (f : Finder) (start : SymbolEntry) : SymbolEntry → Prop
  | start : Entered f start start
  | sub {t s : SymbolEntry} (h : Entered f start t) (hs : s ∈ t.symbols.toList)
      (htype : f.flags &&& estfTypes ≠ 0 → f.hasType s.type) : Entered f start s

/-- What a search finds in a table, and in those below it that it enters. -/
def found (f : Finder) : SymbolList → List SymId
  | .nil => []
  | .cons s name type symbols next =>
    (if f.Accepts ⟨s, name, type, symbols⟩ then [s] else []) ++ (if f.descends type then f.found symbols else []) ++
      f.found next

end Finder

end Eel
