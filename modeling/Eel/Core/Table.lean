-- SUMMARY: The table class: growth, search, insertion and deletion of items, and the operations that use them.
import Eel.Core.Value
import Eel.Lib.Search

/-!
# Tables

A table keeps its items in one block, sorted by the hash codes of their keys.
Memory is assumed to suffice, so `t_setsize` never fails, and the block keeps its
contents when it moves.
-/

namespace Eel

/-! ## Growth -/

/-- `EEL_TABLE_SIZEBASE`. -/
def tableSizeBase : Nat := 4

/-- `while(n < requested) n = (n * 3 >> 1) + base;` -/
def growTo (base : Nat) (hbase : 0 < base) (requested n : Nat) : Nat :=
  if n < requested then growTo base hbase requested (((n * 3) >>> 1) + base) else n
termination_by requested - n
decreasing_by rw [Nat.shiftRight_eq_div_pow]; omega

/-- `eel_calcresize`. -/
def calcResize (base : Nat) (hbase : 0 < base) (current requested : Nat) : Nat :=
  if requested > current then
    growTo base hbase requested (if current ≠ 0 then current else base)
  else
    let n := current / 2
    if requested > n then current
    else if n < base then base
    else n

theorem growTo_ge (base : Nat) (hbase : 0 < base) (requested n : Nat) :
    requested ≤ growTo base hbase requested n := by
  fun_induction growTo base hbase requested n with
  | case1 n _ ih => exact ih
  | case2 n h => exact Nat.not_lt.mp h

/-- A resized block holds what was asked for. -/
theorem calcResize_ge (base : Nat) (hbase : 0 < base) (current requested : Nat) :
    requested ≤ calcResize base hbase current requested := by
  unfold calcResize
  split
  · exact growTo_ge ..
  · dsimp only
    split
    · omega
    · split <;> omega

/-! ## Items -/

/-- `EEL_tableitem`. -/
structure TableItem where
  hash : Hash
  key : Value
  value : Value

/-- `EEL_table`. Cells from `length` on are allocated, not in use. -/
structure Table where
  items : Nat → TableItem
  asize : Nat
  length : Nat

namespace Table

/-- The `t_construct` of no arguments. -/
def empty : Table := ⟨fun _ => ⟨0, .nil, .nil⟩, 0, 0⟩

/-- `t_setsize`. -/
def setSize (t : Table) (newLength : Nat) : Table :=
  { t with
    asize := calcResize tableSizeBase (by decide) t.asize newLength
    length := newLength }

/-- `insert_item`. -/
def insertItem (t : Table) (pos : Nat) (key value : Value) (h : Hash) : Table :=
  let t := t.setSize (t.length + 1)
  let ti := Cells.moveUp t.items pos (t.length - 1)
  { t with items := Function.update ti pos ⟨h, key.copy, value.copy⟩ }

/-- The hash codes of the items, which they are sorted by. -/
def hashAt (t : Table) (i : Nat) : Nat := (t.items i).hash.toNat

/-- `t__binary_find`. -/
def binaryFind (t : Table) (h : Hash) : Int :=
  Search.binaryFind t.hashAt h.toNat 0 (t.length - 1)

/-- Whether an item with key `k` is the one looked up with `key`. Strings are
compared by identity alone, other objects by their class. -/
def sameKey (O : Objects) (key k : Value) : Bool :=
  match key with
  | .nil => k == .nil
  | .real v => match k with
    | .real w => Value.realEq w v
    | _ => false
  | .integer v => match k with
    | .integer w => w == v
    | _ => false
  | .boolean v => match k with
    | .boolean w => w == v
    | _ => false
  | .classid v => match k with
    | .classid w => w == v
    | _ => false
  | .objref o | .weakref o _ => match k.obj? with
    | none => false
    | some o' =>
      if O.isString o then o' == o
      else o' == o || O.compare o' key == some 0

/-- `t__find`. A negative answer is the complement of the insert position. -/
def find (O : Objects) (t : Table) (key : Value) (h : Hash) : Int :=
  let first :=
    if t.length < 10 then Search.linearFind t.hashAt h.toNat 0 t.length
    else match t.binaryFind h with
      | .ofNat first => Search.backUp t.hashAt h.toNat first
      | .negSucc pos => .negSucc pos
  match first with
  | .negSucc pos => .negSucc pos
  | .ofNat first =>
    match Search.groupFind (fun i => sameKey O key (t.items i).key) t.hashAt h.toNat
        first (t.length - first) with
    | some i => i
    | none => ~~~(first : Int)

/-! ## Operations -/

/-- `t__setindex`. -/
def setIndex (O : Objects) (t : Table) (op1 op2 : Value) : Table :=
  let h := op1.hash O
  match t.find O op1 h with
  | .ofNat pos =>
    { t with items := Function.update t.items pos { t.items pos with value := op2.copy } }
  | .negSucc pos => t.insertItem pos op1 op2 h

/-- `t_getindex`. -/
def getIndex (O : Objects) (t : Table) (op1 : Value) : Except Xno Value :=
  match t.find O op1 (op1.hash O) with
  | .ofNat pos => .ok (t.items pos).value.copy
  | .negSucc _ => .error .wrongIndex

/-- `t_in`. -/
def «in» (O : Objects) (t : Table) (op1 : Value) : Value :=
  match t.find O op1 (op1.hash O) with
  | .ofNat pos => .integer (BitVec.ofNat 32 pos)
  | .negSucc _ => .boolean 0

/-- `t_insert`. -/
def insert (O : Objects) (t : Table) (op1 op2 : Value) : Except Xno Table :=
  let h := op1.hash O
  match t.find O op1 h with
  | .ofNat _ => .error .wrongIndex
  | .negSucc pos => .ok (t.insertItem pos op1 op2 h)

/-- `t_delete`. Without `op1` all items go; `op2` would make a range. -/
def delete (O : Objects) (t : Table) (op1 op2 : Option Value) : Except Xno Table :=
  match op2, op1 with
  | some _, _ => .error .wrongIndex
  | none, none => .ok (t.setSize 0)
  | none, some op1 =>
    match t.find O op1 (op1.hash O) with
    | .negSucc _ => .error .wrongIndex
    | .ofNat pos =>
      .ok ({ t with items := Cells.moveDown t.items pos (t.length - 1 - pos) }.setSize
        (t.length - 1))

/-- `t__clone`. The clone's block is exactly as long as its contents. -/
def clone (t : Table) : Table where
  items i := { t.items i with key := (t.items i).key.clone, value := (t.items i).value.clone }
  asize := t.length
  length := t.length

/-- `eel_kill_weakrefs` on an object that values of the table refer to. -/
def killWeakrefs (o : ObjId) (t : Table) : Table :=
  { t with items := fun i =>
      { t.items i with key := (t.items i).key.kill o, value := (t.items i).value.kill o } }

end Table

end Eel
