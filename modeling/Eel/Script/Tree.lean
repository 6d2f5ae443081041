-- SUMMARY: Values with the values that they refer to, and when two of them are of the same structure.
import Eel.Core.Operate
import Mathlib.Algebra.Group.Nat.Defs
import Mathlib.Data.List.Basic

/-!
# Trees of values

A script that walks through a value sees a tree, whichever objects the value is made of.
The items of a table are in the order of their indexes.
-/

namespace Eel

def Xno.eof : Xno := 58

/-- What is thrown. -/
inductive Thrown where
  | xno (x : Xno)
  | text (message : String)
  deriving DecidableEq

inductive Tree where
  | nil
  | integer (v : BitVec 32)
  | real (bits : BitVec 64)
  | boolean (v : Bool)
  | string (bytes : List Byte)
  | dstring (bytes : List Byte)
  | vectorD (items : List (BitVec 64))
  | vectorU32 (items : List (BitVec 32))
  | vectorS32 (items : List (BitVec 32))
  | table (items : List (Tree × Tree))
  | array (items : List Tree)
  /-- A value of any other class. -/
  | other (typename : String)

namespace Tree

/-- Keys that are compared by what they are. -/
def PlainKey : Tree → Prop
  | integer _ | boolean _ | string _ => True
  | _ => False

/-- What tables read of their keys. -/
structure Keys where
  hash : Tree → Hash
  same : Tree → Tree → Bool
  /-- Integers, booleans and pooled strings are equal if they are the same. -/
  same_iff : ∀ {k k'}, PlainKey k → PlainKey k' → (same k k' = true ↔ k = k')

/-- `t__setindex`, of the items of a table. A new item goes before all that do not have a smaller hash code. -/
def setindex (K : Keys) (items : List (Tree × Tree)) (key value : Tree) : List (Tree × Tree) :=
  match items.findIdx? (fun item => K.hash item.1 == K.hash key && K.same key item.1) with
  | some i => items.set i ((items.getD i (key, value)).1, value)
  | none =>
    let i := items.findIdx (fun item => K.hash key ≤ K.hash item.1)
    items.insertIdx i (key, value)

/-! ## The same structure -/

mutual

/-- Of the same classes and with the same contents. The order of the items of a table, which comes of the
hash codes of its keys, does not matter. -/
inductive Same : Tree → Tree → Prop
  | nil : Same nil nil
  | integer {v} : Same (integer v) (integer v)
  | real {bits} : Same (real bits) (real bits)
  | boolean {v} : Same (boolean v) (boolean v)
  | string {bytes} : Same (string bytes) (string bytes)
  | dstring {bytes} : Same (dstring bytes) (dstring bytes)
  | vectorD {items} : Same (vectorD items) (vectorD items)
  | vectorU32 {items} : Same (vectorU32 items) (vectorU32 items)
  | vectorS32 {items} : Same (vectorS32 items) (vectorS32 items)
  | table {items items' order} : SameItems items order → order.Perm items' → Same (table items) (table items')
  | array {items items'} : SameList items items' → Same (array items) (array items')

inductive SameList : List Tree → List Tree → Prop
  | nil : SameList [] []
  | cons {v v' vs vs'} : Same v v' → SameList vs vs' → SameList (v :: vs) (v' :: vs')

/-- Items with the same keys, in the same order. -/
inductive SameItems : List (Tree × Tree) → List (Tree × Tree) → Prop
  | nil : SameItems [] []
  | cons {k v v' items items'} : Same v v' → SameItems items items' →
      SameItems ((k, v) :: items) ((k, v') :: items')

end

/-! ## Trees that can be there -/

mutual

/-- A length is an `int`, and the keys of a table are different and of the kinds that are told apart by
what they are. -/
def Ok : Tree → Prop
  | string bytes | dstring bytes => bytes.length < 2 ^ 31
  | vectorD items => items.length < 2 ^ 31
  | vectorU32 items | vectorS32 items => items.length < 2 ^ 31
  | table items => items.length < 2 ^ 31 ∧ (items.map Prod.fst).Nodup ∧ OkItems items
  | array items => items.length < 2 ^ 31 ∧ OkList items
  | other _ => False
  | nil | integer _ | real _ | boolean _ => True

def OkList : List Tree → Prop
  | [] => True
  | v :: vs => v.Ok ∧ OkList vs

def OkItems : List (Tree × Tree) → Prop
  | [] => True
  | (k, v) :: items => k.PlainKey ∧ k.Ok ∧ v.Ok ∧ OkItems items

end

/-- A plain key is read as it is. -/
theorem Same.eq {k k' : Tree} (h : Same k k') (hk : k.PlainKey) : k' = k := by
  cases h with
  | integer => rfl
  | boolean => rfl
  | string => rfl
  | nil => exact hk.elim
  | real => exact hk.elim
  | dstring => exact hk.elim
  | vectorD => exact hk.elim
  | vectorU32 => exact hk.elim
  | vectorS32 => exact hk.elim
  | table => exact hk.elim
  | array => exact hk.elim

/-- An item with a new key goes somewhere between the others. -/
theorem setindex_perm {K : Keys} {items : List (Tree × Tree)} {key value : Tree}
    (hnew : ∀ item ∈ items, K.same key item.1 = false) : (setindex K items key value).Perm ((key, value) :: items) := by
  have hnone : items.findIdx? (fun item => K.hash item.1 == K.hash key && K.same key item.1) = none := by
    apply List.findIdx?_eq_none_iff.mpr
    intro item hitem
    rw [hnew item hitem, Bool.and_false]
  unfold setindex
  rw [hnone]
  exact List.perm_insertIdx _ _ List.findIdx_le_length

end Tree

end Eel
