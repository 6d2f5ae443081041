-- SUMMARY: The string pool: lookup by hash code, creation of pooled strings, and the cache of strings nobody owns.
import Eel.Core.Value
import Eel.Lib.CString

/-!
# The string pool

Every string object is in the bucket of its hash code. Strings whose last owner
is gone stay there, and are kept on the cache list until they are spilled or
found again. Memory is assumed to suffice.
-/

namespace Eel

/-- `eel_hashmem`. Only the first 32 bytes count, and `char` is signed. -/
def hashMem (dat : List Byte) : Hash :=
  (dat.take 32).foldl (fun hash c => Value.hashMix hash (c.signExtend 32)) Value.hashSeed

/-- `EEL_string`, with the reference count of its object. The bucket links are
the lists of the pool. -/
structure StringObj where
  /-- The contents and the terminator. -/
  buffer : List Byte
  length : Nat
  hash : Hash
  refcount : Nat

/-- The counted contents. -/
def StringObj.bytes (ps : StringObj) : List Byte := ps.buffer.take ps.length

/-- The string pool part of `EEL_vm_private`. -/
structure StringPool where
  /-- The buckets, each from its head. -/
  strings : Nat → List ObjId
  /-- The string objects that have not been freed. -/
  object : ObjId → Option StringObj
  /-- The cache, from the string cached last. -/
  scache : List ObjId
  scacheSize : Int
  scacheMax : Int
  /-- Where `eel_o_alloc` puts the next object. -/
  next : ObjId

namespace StringPool

/-- `PS_TABLESIZE`. -/
def tableSize : Nat := 256

/-- `HASH2BUCKET`. -/
def bucket (hash : Hash) : Nat := hash.toNat % tableSize

/-- `EEL_DEFAULT_STRING_CACHE`. -/
def defaultStringCache : Int := 100

/-- `eel_ps_open`. -/
def «open» : StringPool where
  strings _ := []
  object _ := none
  scache := []
  scacheSize := 0
  scacheMax := defaultStringCache
  next := 0

/-- The test `ps_find` makes on each string of the bucket. -/
def isString (p : StringPool) (s : List Byte) (hash : Hash) (pso : ObjId) : Bool :=
  match p.object pso with
  | none => false
  | some ps =>
    ps.hash == hash && ps.length == s.length && CString.strncmpEq 0 ps.buffer s s.length

/-- `ps_find`. -/
def find (p : StringPool) (s : List Byte) : Option ObjId :=
  let hash := hashMem s
  (p.strings (bucket hash)).find? (p.isString s hash)

/-- Change the string object `pso`. -/
def modify (p : StringPool) (pso : ObjId) (f : StringObj → StringObj) : StringPool :=
  { p with object := fun o => if o = pso then (p.object o).map f else p.object o }

/-- `eel_o_own`. -/
def own (p : StringPool) (pso : ObjId) : StringPool :=
  p.modify pso fun ps => { ps with refcount := ps.refcount + 1 }

def refcount (p : StringPool) (pso : ObjId) : Nat :=
  match p.object pso with
  | none => 0
  | some ps => ps.refcount

/-- `ps_resurrect`. -/
def resurrect (p : StringPool) (pso : ObjId) : StringPool :=
  if p.refcount pso = 0 then
    { p with scache := p.scache.erase pso, scacheSize := p.scacheSize - 1 }.own pso
  else p.own pso

/-- A new string object with this buffer, pushed onto its bucket. -/
def create (p : StringPool) (buffer : List Byte) (len : Nat) (hash : Hash) : StringPool :=
  { p with
    strings := Function.update p.strings (bucket hash) (p.next :: p.strings (bucket hash))
    object := Function.update p.object p.next (some ⟨buffer, len, hash, 1⟩)
    next := p.next + 1 }

/-- `eel_ps_nnew`. The buffer is a copy with a terminator. -/
def nnew (p : StringPool) (s : List Byte) : ObjId × StringPool :=
  match p.find s with
  | some pso => (pso, p.resurrect pso)
  | none => (p.next, p.create (s ++ [0]) s.length (hashMem s))

/-- `eel_ps_nnew_grab`. The buffer is the caller's, who put a terminator there;
the pool frees it when it has the string. -/
def nnewGrab (p : StringPool) (s : List Byte) : ObjId × StringPool :=
  match p.find s with
  | some pso => (pso, p.resurrect pso)
  | none => (p.next, p.create (s ++ [0]) s.length (hashMem s))

/-- `really_destruct` and `eel_o_free`. -/
def reallyDestruct (p : StringPool) (eo : ObjId) : StringPool :=
  match p.object eo with
  | none => p
  | some ps =>
    { p with
      strings := Function.update p.strings (bucket ps.hash)
        ((p.strings (bucket ps.hash)).erase eo)
      object := Function.update p.object eo none }

/-- `ps_cache`. -/
def cache (p : StringPool) (ps : ObjId) : StringPool :=
  let p := { p with scache := ps :: p.scache }
  if p.scacheSize > p.scacheMax then
    match p.scache.getLast? with
    | none => p
    | some last => { p with scache := p.scache.erase last }.reallyDestruct last
  else { p with scacheSize := p.scacheSize + 1 }

/-- `eel_o_disown_nz`. The string class refuses to be destructed and caches the
object instead. -/
def disown (p : StringPool) (pso : ObjId) : StringPool :=
  let p := p.modify pso fun ps => { ps with refcount := ps.refcount - 1 }
  if p.refcount pso = 0 then p.cache pso else p

/-! ## Runs -/

inductive Op where
  | nnew (s : List Byte)
  | nnewGrab (s : List Byte)
  | own (pso : ObjId)
  | disown (pso : ObjId)

/-- One operation, and the string it returns. Only who owns a string passes
ownership on or gives it up. -/
def step (p : StringPool) (op : Op) : Option ObjId × StringPool :=
  match op with
  | .nnew s => (some (p.nnew s).1, (p.nnew s).2)
  | .nnewGrab s => (some (p.nnewGrab s).1, (p.nnewGrab s).2)
  | .own pso => (none, if p.refcount pso = 0 then p else p.own pso)
  | .disown pso => (none, if p.refcount pso = 0 then p else p.disown pso)

end StringPool

end Eel
