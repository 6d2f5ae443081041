-- SUMMARY: Compiling a text from start to end or to an error, and what a text that fails leaves behind.
import Eel.Compiler.Contexts
import Mathlib.Data.List.Count

/-!
# Compiling and failing

The parser is taken as what it does to the state: any actions in any order, where contexts
are pushed and popped in pairs, and an error may come anywhere. Importing compiles another
text in the midst of one.
-/

namespace Eel

/-- What the parser pushes contexts for. -/
inductive Scope where
  | block
  | body
  | function

def Scope.type : Scope → ContextType
  | block => .block
  | body => .body
  | function => .function

/-- How a text gets to the compiler. -/
inductive Loader where
  /-- `__compile`, of the built-in library. -/
  | builtin
  /-- `eel_load_buffer`. -/
  | buffer

/-- What the parser does to the state of the compiler. -/
inductive Act (L : Type) where
  /-- Anything that is done to the lexer. -/
  | lex (f : L → L)
  | qualify (qualifiers : Nat)
  /-- A symbol below that of the context. -/
  | define (type : SymType) (name : Option String)
  | rename (name : String)
  /-- A symbol of a C module, below the root. -/
  | register (type : SymType) (name : String)
  /-- The function that is defined was declared before. -/
  | redeclare (decl : Nat)
  | scope (type : Scope) (name : Option String) (acts : List (Act L))
  /-- A module is imported. With `warned` there were warnings, and they are errors. -/
  | compile (loader : Loader) (filename : Option String) (warned : Bool) (start body : List (Act L))
  | error

/-- What comes of `eel_compile`. -/
inductive Compiled where
  | done
  | warnings
  | failed
  deriving DecidableEq

namespace Compiler

variable {L : Type}

/-! ## The compiler -/

/-- The module that is compiled. -/
def currentModule (es : Compiler L) : Option Symbol := (es.contexts.find? (·.type = .module)).map Context.symtab

/-- The symbol of a function that was declared in the same module takes the place of the new one. -/
def redeclare (es : Compiler L) (decl : Nat) : Compiler L :=
  match es.contexts with
  | c :: contexts =>
    let declared := es.symbols.find? fun s => s.id = decl ∧ es.currentModule.any (·.id ∈ s.parents)
    match c.type, declared with
    | .function, some s => { es.sFree c.symtab.id with contexts := ⟨.function, s⟩ :: contexts }
    | _, _ => es
  | [] => es

/-- `compile2`, with what the parser does for the module declaration and for all that follows. -/
def compile2 (invalidate : L → L) (start body : Compiler L → Except (Compiler L) (Compiler L)) (es : Compiler L) :
    Except (Compiler L) (Compiler L) := do
  let es := { es with lexer := invalidate es.lexer }
  let es ← start (es.contextPush .module none)
  let es ← body (es.contextPush .function none)
  let es := es.contextPop
  let mst := es.symtab
  let es := es.contextPop
  let es := es.sFree mst.id
  return { es with lexer := invalidate es.lexer }

/-- `eel_compile`, up to where it throws. -/
def eelCompile (invalidate : L → L) (filename : Option String) (warned : Bool)
    (start body : Compiler L → Except (Compiler L) (Compiler L)) (es : Compiler L) : Compiled × Compiler L :=
  let circular := filename.any (· ∈ es.modnames)
  if circular then (.failed, es)
  else
    let depth := es.includeDepth
    let es := { es with modnames := filename.toList ++ es.modnames, includeDepth := 0 }
    let leave (es : Compiler L) :=
      { es with modnames := filename.elim es.modnames es.modnames.erase, includeDepth := depth }
    match compile2 invalidate start body es.eelTry with
    | .ok es => (if warned then .warnings else .done, leave es.eelDone)
    | .error es => (.failed, leave es)

/-- `bi__compile` and `eel_load_buffer`, without the call of the module. Both return what `eel_compile` throws. -/
def load (invalidate : L → L) (loader : Loader) (filename : Option String) (warned : Bool)
    (start body : Compiler L → Except (Compiler L) (Compiler L)) (es : Compiler L) : Compiled × Compiler L :=
  match eelCompile invalidate filename warned start body es.eelTry with
  | (.done, es) => (.done, es.eelDone)
  | (result, es) =>
    let es := es.cthrow
    match loader with
    | .builtin => (result, es)
    | .buffer => (result, { es with lexer := invalidate es.lexer })

mutual

/-- What an action does, or the state that the handler finds after an error. -/
def act (invalidate : L → L) : Act L → Compiler L → Except (Compiler L) (Compiler L)
  | .lex f, es => .ok { es with lexer := f es.lexer }
  | .qualify qualifiers, es => .ok { es with qualifiers }
  | .define type name, es => .ok (es.sAdd es.symtab type name).2
  | .rename name, es => .ok (es.sRename es.symtab.id name)
  | .register type name, es => .ok (es.sAdd root type (some name)).2
  | .redeclare decl, es => .ok (es.redeclare decl)
  | .scope type name body, es => do
    let es ← acts invalidate body (es.contextPush type.type name)
    return es.contextPop
  | .compile loader filename warned start body, es =>
    .ok (load invalidate loader filename warned (acts invalidate start) (acts invalidate body) es).2
  | .error, es => .error es.cthrow

def acts (invalidate : L → L) : List (Act L) → Compiler L → Except (Compiler L) (Compiler L)
  | [], es => .ok es
  | a :: as, es => do acts invalidate as (← act invalidate a es)

end

/-! ## Symbols -/

variable {es es' es'' : Compiler L} {k k' mid : Nat}

def ids (es : Compiler L) : List Nat := es.symbols.map Symbol.id

/-- A symbol came after those it is below. -/
def Formed (next : Nat) (s : Symbol) : Prop := s.id < next ∧ ∀ i ∈ s.parents, i < s.id

/-- All that refers to symbols does so to ones that there were. -/
structure Ok (es : Compiler L) : Prop where
  symbols : ∀ s ∈ es.symbols, Formed es.nextSymbol s
  contexts : ∀ c ∈ es.contexts, Formed es.nextSymbol c.symtab
  next_pos : 0 < es.nextSymbol

/-- Symbols before `k` stay. -/
structure Grows (k : Nat) (es es' : Compiler L) : Prop where
  next : es.nextSymbol ≤ es'.nextSymbol
  ids : ∀ i < k, i ∈ es.ids → i ∈ es'.ids

theorem Grows.refl : Grows k es es := ⟨Nat.le_refl _, fun _ _ h => h⟩

theorem Grows.trans (h : Grows k es es') (h' : Grows k es' es'') : Grows k es es'' :=
  ⟨Nat.le_trans h.next h'.next, fun i hi hmem => h'.ids i hi (h.ids i hi hmem)⟩

theorem Grows.mono (h : Grows k es es') (hk : k' ≤ k) : Grows k' es es' :=
  ⟨h.next, fun i hi => h.ids i (Nat.lt_of_lt_of_le hi hk)⟩

theorem Formed.mono {next next' : Nat} {s : Symbol} (h : Formed next s) (hnext : next ≤ next') : Formed next' s :=
  ⟨Nat.lt_of_lt_of_le h.1 hnext, h.2⟩

theorem Ok.symtab (h : es.Ok) : Formed es.nextSymbol es.symtab := by
  unfold Compiler.symtab
  split
  · rename_i c _ hc
    exact h.contexts c (by rw [hc]; exact List.mem_cons_self)
  · exact ⟨h.next_pos, fun i hi => absurd hi List.not_mem_nil⟩

theorem Ok.root (h : es.Ok) : Formed es.nextSymbol Compiler.root :=
  ⟨h.next_pos, fun i hi => absurd hi List.not_mem_nil⟩

/-- The symbol that is added. -/
theorem Ok.sAdd_formed {parent : Symbol} {type : SymType} {name : Option String}
    (hparent : Formed es.nextSymbol parent) : Formed (es.sAdd parent type name).2.nextSymbol (es.sAdd parent type name).1 := by
  refine ⟨Nat.lt_succ_self _, fun i hi => ?_⟩
  rcases List.mem_cons.mp hi with rfl | hi
  · exact hparent.1
  · exact Nat.lt_trans (hparent.2 i hi) hparent.1

theorem Ok.sAdd {parent : Symbol} {type : SymType} {name : Option String} (h : es.Ok)
    (hparent : Formed es.nextSymbol parent) : (es.sAdd parent type name).2.Ok where
  symbols s hs := by
    rcases List.mem_append.mp hs with hs | hs
    · exact (h.symbols s hs).mono (Nat.le_succ _)
    · rw [List.mem_singleton.mp hs]
      exact sAdd_formed hparent
  contexts c hc := (h.contexts c hc).mono (Nat.le_succ _)
  next_pos := Nat.succ_pos _

theorem grows_sAdd {parent : Symbol} {type : SymType} {name : Option String} :
    Grows k es (es.sAdd parent type name).2 where
  next := Nat.le_succ _
  ids i _ hi := by
    show i ∈ (es.symbols ++ [_]).map Symbol.id
    rw [List.map_append]
    exact List.mem_append_left _ hi

/-- Freeing a symbol leaves those that were there before it. -/
theorem Ok.grows_sFree (h : es.Ok) {id : Nat} (hid : k ≤ id) : Grows k es (es.sFree id) where
  next := Nat.le_refl _
  ids i hi hmem := by
    obtain ⟨s, hs, rfl⟩ := List.mem_map.mp hmem
    have hne : s.id ≠ id := by omega
    have hnot : id ∉ s.parents := fun hparent => by
      have := (h.symbols s hs).2 id hparent
      omega
    exact List.mem_map_of_mem (List.mem_filter.mpr ⟨hs, decide_eq_true ⟨hne, hnot⟩⟩)

theorem Ok.sFree (h : es.Ok) {id : Nat} : (es.sFree id).Ok :=
  ⟨fun s hs => h.symbols s (List.mem_of_mem_filter hs), h.contexts, h.next_pos⟩

/-- Renaming a symbol changes its name. -/
theorem sRename_ids {id : Nat} {name : String} : (es.sRename id name).ids = es.ids := by
  show (es.symbols.map _).map Symbol.id = _
  rw [List.map_map]
  refine List.map_congr_left fun s _ => ?_
  show (if s.id = id then _ else s : Symbol).id = s.id
  split <;> rfl

theorem Ok.sRename (h : es.Ok) {id : Nat} {name : String} : (es.sRename id name).Ok where
  symbols s hs := by
    obtain ⟨s', hs', rfl⟩ := List.mem_map.mp hs
    split
    · exact h.symbols s' hs'
    · exact h.symbols s' hs'
  contexts := h.contexts
  next_pos := h.next_pos

end Compiler

end Eel
