-- SUMMARY: Objects with owners: reference counts, limbo lists, and what happens when the last owner of an object is gone.
import Eel.Core.Value
import Mathlib.Logic.Function.Basic

/-!
# The store

The registers, the objects and their reference counts. Memory is assumed to
suffice. An object whose last owner is gone is destroyed at once, as
`EEL_HYPER_AGGRESSIVE_MM` says.
-/

namespace Eel

/-- The object a value owns, when the value has an owner's rights. -/
def Value.strong? : Value → Option ObjId
  | .objref o => some o
  | _ => none

/-- `EEL_object`, with what its class keeps in it. -/
structure Object where
  refcount : Int
  /-- The items of an array or a table, the constants of a function or the static
  variables of a module. -/
  values : List Value
  /-- The object of its class; a class object has none. -/
  cls : Option ObjId
  /-- The frame whose limbo list the object is linked into, if any: `lprev`. -/
  limbo : Option Nat
  /-- Whether the destructor answers `EEL_XREFUSE`, as that of cached strings does. -/
  refuses : Bool
  freed : Bool

namespace Object

/-- The objects the destructor disowns. -/
def strong (ob : Object) : List ObjId := ob.values.filterMap Value.strong?

end Object

/-- The part of the VM that owning and disowning works on. -/
structure Store where
  heap : Nat → Value
  object : ObjId → Object
  /-- The limbo lists, by the base of their callframes. -/
  limbo : Nat → List ObjId
  exception : Value
  /-- Where the next object goes. -/
  next : ObjId

namespace Store

def setHeap (s : Store) (i : Nat) (v : Value) : Store :=
  { s with heap := Function.update s.heap i v }

def modify (s : Store) (o : ObjId) (f : Object → Object) : Store :=
  { s with object := Function.update s.object o (f (s.object o)) }

/-! ## Limbo lists -/

/-- `eel_in_limbo`. -/
def inLimbo (s : Store) (o : ObjId) : Bool := (s.object o).limbo.isSome

/-- `eel_limbo_push`. -/
def limboPush (s : Store) (base : Nat) (o : ObjId) : Store :=
  { s.modify o fun ob => { ob with limbo := some base } with
    limbo := Function.update s.limbo base (o :: s.limbo base) }

/-- `eel_limbo_unlink`. -/
def limboUnlink (s : Store) (o : ObjId) : Store :=
  match (s.object o).limbo with
  | none => s
  | some base =>
    { s.modify o fun ob => { ob with limbo := none } with
      limbo := Function.update s.limbo base ((s.limbo base).erase o) }

/-! ## Owning -/

/-- `eel_o_own`. -/
def ownObject (s : Store) (o : ObjId) : Store :=
  s.modify o fun ob => { ob with refcount := ob.refcount + 1 }

/-- The owner that `eel_v_copy` adds for the value it has written. -/
def own (s : Store) (v : Value) : Store :=
  match v with
  | .objref o => s.ownObject o
  | _ => s

/-- `eel_kill_weakrefs`. -/
def killWeakrefs (s : Store) (o : ObjId) : Store :=
  { s with
    heap := fun i => (s.heap i).kill o
    object := fun o' => { s.object o' with values := (s.object o').values.map (Value.kill o) }
    exception := s.exception.kill o }

/-- The values and the class are taken from an object whose destructor runs. -/
def empty (s : Store) (o : ObjId) : Store :=
  s.modify o fun ob => { ob with values := [], cls := none }

/-- `eel_o__dealloc`. -/
def dealloc (s : Store) (o : ObjId) : Store := s.modify o fun ob => { ob with freed := true }

/-- `eel_o_disown_nz` with `eel_o__dispose`, `eel_o__destruct` and the destructors
of the containers, which disown what they hold. At most `depth` destructors nest. -/
def disownObject : Nat → Store → ObjId → Store
  | 0, s, _ => s
  | depth + 1, s, o =>
    let s := s.modify o fun ob => { ob with refcount := ob.refcount - 1 }
    if (s.object o).refcount ≠ 0 then s
    else
      let s := s.limboUnlink o
      if (s.object o).refuses then s
      else
        let ob := s.object o
        let s := ob.strong.foldl (disownObject depth) (s.empty o)
        let s := ob.cls.toList.foldl (disownObject depth) (s.killWeakrefs o)
        s.dealloc o

/-- Destructors nest at most as deep as there are objects. -/
def depth (s : Store) : Nat := s.next + 1

/-- `eel_v_disown_nz`. Detaching a weak reference leaves nothing to do, as what
held it is about to be overwritten. -/
def disown (s : Store) (v : Value) : Store :=
  match v with
  | .objref o => s.disownObject s.depth o
  | _ => s

/-! ## Copying -/

/-- `eel_v_copy` to register `i`. -/
def copy (s : Store) (i : Nat) (v : Value) : Store := (s.setHeap i v.copy).own v.copy

/-- `eel_v_qcopy` to register `i`, which does not become an owner. -/
def qcopy (s : Store) (i : Nat) (v : Value) : Store :=
  s.setHeap i (match v with
    | .weakref o _ => .objref o
    | v => v)

/-- `eel_v_receive`, in the frame at `base`. -/
def receive (s : Store) (base : Nat) (v : Value) : Store :=
  match v.obj? with
  | none => s
  | some o =>
    if s.inLimbo o then s.modify o fun ob => { ob with refcount := ob.refcount - 1 }
    else s.limboPush base o

/-- `eel_v_grab`, in the frame at `base`. -/
def grab (s : Store) (base : Nat) (v : Value) : Store :=
  match v.obj? with
  | none => s
  | some o => if s.inLimbo o then s else (s.ownObject o).limboPush base o

end Store

end Eel
