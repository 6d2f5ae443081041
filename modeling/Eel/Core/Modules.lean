-- SUMMARY: Modules, the references to their functions, and module collection, which compares sums of reference counts.
import Eel.Core.Value
import Eel.Lib.Machine
import Mathlib.Logic.Function.Basic

/-!
# Modules

A module is the owner of its functions. When nothing refers to it any more, it is kept
until the reference counts of its functions add up to what they were when it was compiled.
-/

namespace Eel

/-- Where a module keeps references to its functions. -/
inductive Part where
  /-- The static variables. -/
  | variables
  | exports
  /-- The list of its functions. -/
  | objects
  deriving DecidableEq

/-- What may hold a reference. -/
inductive Holder where
  /-- Registers, arguments, limbo lists and the host application. -/
  | host
  /-- A container, or the constants of a function. -/
  | object (o : ObjId)
  | part (m : ObjId) (p : Part)
  deriving DecidableEq

/-- The holder is the module itself. -/
def Holder.InModule (m : ObjId) : Holder → Prop
  | .part m' _ => m' = m
  | _ => False

instance {m : ObjId} : DecidablePred (Holder.InModule m) := fun h =>
  match h with
  | .part m' _ => inferInstanceAs (Decidable (m' = m))
  | .host | .object _ => inferInstanceAs (Decidable False)

/-- A strong reference. Functions do not own the functions of their module that are among
their constants, and those references are not here. -/
structure Ref where
  holder : Holder
  target : ObjId
  deriving DecidableEq

/-- A module was found to be unused, with these references around. -/
structure Collection where
  «module» : ObjId
  objects : List ObjId
  refs : List Ref

/-- Objects and the references between them. -/
structure ObjGraph where
  refs : List Ref
  refcount : ObjId → Int
  /-- Whether the object is a module: `EEL_CMODULE`. -/
  isModule : ObjId → Bool
  /-- The functions of a module. -/
  objects : ObjId → List ObjId
  refsum : ObjId → Int
  /-- Modules that nothing refers to, the last one first. -/
  deadmods : List ObjId
  moduleLock : Nat
  freed : ObjId → Bool
  next : ObjId
  /-- The modules collected so far. The source keeps no such record, and nothing reads it. -/
  log : List Collection

namespace ObjGraph

variable (s : ObjGraph)

/-- `eel_o_own`, for a holder. -/
def own (h : Holder) (o : ObjId) : ObjGraph :=
  { s with
    refs := ⟨h, o⟩ :: s.refs
    refcount := Function.update s.refcount o (s.refcount o + 1) }

/-- A new object, held by the host. -/
def alloc (isModule : Bool) : ObjGraph :=
  { s with isModule := Function.update s.isModule s.next isModule, next := s.next + 1 }.own .host s.next

/-- `eel_module_countref`. -/
def moduleCountref (m : ObjId) : Int := (s.objects m).foldl (fun rc o => rc + s.refcount o) 0

/-! ## Disowning -/

/-- What `eel_o__dispose` does to an object without references. -/
abbrev Dispose := ObjGraph → ObjId → ObjGraph

variable (d : Dispose)

/-- A reference goes away, and the object is disowned. -/
def disown (r : Ref) : ObjGraph :=
  let s :=
    { s with
      refs := s.refs.erase r
      refcount := Function.update s.refcount r.target (s.refcount r.target - 1) }
  if s.refcount r.target ≠ 0 then s else d s r.target

/-- All that a holder has is disowned, at most `n` references. -/
def disownAll (h : Holder) : Nat → ObjGraph → ObjGraph
  | 0, s => s
  | n + 1, s =>
    match s.refs.find? (·.holder = h) with
    | none => s
    | some r => disownAll h n (s.disown d r)

/-- What `m_real_destruct` releases. -/
def disownParts (m : ObjId) : ObjGraph :=
  let s := disownAll d (.part m .variables) s.refs.length s
  let s := disownAll d (.part m .exports) s.refs.length s
  disownAll d (.part m .objects) s.refs.length s

/-- `m_real_destruct`, with the unlinking and freeing that follow. -/
def realDestruct (m : ObjId) : ObjGraph :=
  if s.moduleCountref m ≠ s.refsum m then s
  else
    let s := { s with log := ⟨m, s.objects m, s.refs⟩ :: s.log }.disownParts d m
    { s with
      deadmods := s.deadmods.erase m
      freed := Function.update s.freed m true }

/-- What follows a module on the list of dead ones: `lnext`. -/
def lnext (m : ObjId) : List ObjId → Option ObjId
  | [] => none
  | m' :: ms => if m' = m then ms.head? else lnext m ms

/-- The loop of `eel_clean_modules`, for at most `n` turns. -/
def cleanFrom : Nat → Option ObjId → ObjGraph → ObjGraph
  | 0, _, s | _ + 1, none, s => s
  | n + 1, some mo, s => cleanFrom n (lnext mo s.deadmods) (s.realDestruct d mo)

/-- `eel_clean_modules`. -/
def cleanModules (n : Nat) : ObjGraph :=
  if s.moduleLock ≠ 0 then s
  else
    let s := cleanFrom d n s.deadmods.head? { s with moduleLock := s.moduleLock + 1 }
    { s with moduleLock := s.moduleLock - 1 }

/-- `eel_o__dispose`. The destructor of a module only puts it on the list of dead ones, and
collects; other destructors disown what the object holds. At most `n` destructors nest. -/
def dispose : Nat → Dispose
  | 0, s, _ => s
  | n + 1, s, o =>
    let s := { s with deadmods := s.deadmods.erase o }
    if s.isModule o then
      { s with deadmods := o :: s.deadmods }.cleanModules (dispose n) n
    else
      let s := disownAll (dispose n) (.object o) s.refs.length s
      { s with freed := Function.update s.freed o true }

/-! ## Compiling -/

/-- `declare_func`, and the entry that `init_exports` makes for an exported function. The
references that the compiler has meanwhile are gone when it is done. -/
def declareFunc (m : ObjId) (exported : Bool) : ObjGraph :=
  let f := s.next
  let s :=
    { s with
      objects := Function.update s.objects m (s.objects m ++ [f])
      next := f + 1 }.own (.part m .objects) f
  if exported then s.own (.part m .exports) f else s

/-- `compile2`, of a module with these functions. -/
def compile (m : ObjId) (exported : List Bool) : ObjGraph :=
  let s := exported.foldl (fun s e => s.declareFunc m e) s
  { s with refsum := Function.update s.refsum m (s.moduleCountref m) }

/-! ## Runs -/

end ObjGraph

/-- What may happen to references. -/
inductive RefOp where
  | own (h : Holder) (o : ObjId)
  | disown (r : Ref)
  /-- A new container. -/
  | alloc
  /-- `m_construct`. -/
  | construct
  | compile (m : ObjId) (exported : List Bool)
  /-- `eel_get_loaded_module`, which finds the module through a weak reference. -/
  | getLoadedModule (m : ObjId)
  | lockModules
  | unlockModules
  /-- `eel_clean_modules`, called by an application. -/
  | cleanModules

namespace ObjGraph

/-- Nothing is there yet. -/
def start : ObjGraph where
  refs := []
  refcount _ := 0
  isModule _ := false
  objects _ := []
  refsum _ := 0
  deadmods := []
  moduleLock := 0
  freed _ := false
  next := 0
  log := []

variable (n : Nat) (s : ObjGraph)

/-- What an operation does, with `n` for the depth of destructors and the turns of loops. -/
def step : RefOp → Unit × ObjGraph
  | .own h o => ((), s.own h o)
  | .disown r => ((), s.disown (dispose n) r)
  | .alloc => ((), s.alloc false)
  | .construct => ((), (s.cleanModules (dispose n) n).alloc true)
  | .compile m exported => ((), s.compile m exported)
  | .getLoadedModule m =>
    let s := if s.refcount m = 0 then { s with deadmods := s.deadmods.erase m } else s
    ((), s.own .host m)
  | .lockModules => ((), { s with moduleLock := s.moduleLock + 1 })
  | .unlockModules =>
    let s := { s with moduleLock := s.moduleLock - 1 }
    ((), s.cleanModules (dispose n) n)
  | .cleanModules => ((), s.cleanModules (dispose n) n)

/-- References are copied from others, except that the functions of a module lead to it. They
are dropped by what holds them. Compiling fills in a new module, which is held by then. -/
def Possible : RefOp → Prop
  | .own _ o => s.refcount o ≠ 0 ∨ o ∈ s.deadmods
  | .disown r => r ∈ s.refs
  | .compile m _ => s.isModule m ∧ s.refcount m ≠ 0 ∧ s.objects m = []
  | .getLoadedModule m => s.isModule m ∧ s.freed m = false
  | .unlockModules => s.moduleLock ≠ 0
  | _ => True

instance {op : RefOp} : Decidable (s.Possible op) :=
  match op with
  | .own _ o => inferInstanceAs (Decidable (s.refcount o ≠ 0 ∨ o ∈ s.deadmods))
  | .disown r => inferInstanceAs (Decidable (r ∈ s.refs))
  | .compile m _ => inferInstanceAs (Decidable (s.isModule m ∧ s.refcount m ≠ 0 ∧ s.objects m = []))
  | .getLoadedModule m => inferInstanceAs (Decidable (s.isModule m ∧ s.freed m = false))
  | .unlockModules => inferInstanceAs (Decidable (s.moduleLock ≠ 0))
  | .alloc | .construct | .lockModules | .cleanModules => inferInstanceAs (Decidable True)

/-- The references from a module to its own functions. -/
def inside (m : ObjId) : Nat := s.refs.countP fun r => r.holder.InModule m ∧ r.target ∈ s.objects m

/-- A module keeps as many references to its own functions as it had when it was compiled, and
none is taken to a module on the list of dead ones without taking it off the list. -/
def Keeps : RefOp → Prop
  | .own _ o => o ∉ s.deadmods
  | .disown r => ∀ m, r.holder.InModule m → r.target ∈ s.objects m → s.refsum m < s.inside m
  | _ => True

/-- Nothing refers to a freed module or one of its functions. -/
def NoneLeft : Prop :=
  ∀ m, s.isModule m → s.freed m → ∀ r ∈ s.refs, r.target ≠ m ∧ r.target ∉ s.objects m

end ObjGraph

/-- Only the module itself refers to its functions, and nothing to the module. -/
def Collection.Unreferenced (c : Collection) : Prop :=
  ∀ r ∈ c.refs, r.target ≠ c.module ∧ (r.target ∈ c.objects → r.holder.InModule c.module)

end Eel
