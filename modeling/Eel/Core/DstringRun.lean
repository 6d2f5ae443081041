-- SUMMARY: Sequences of operations on dynamic strings: a heap of them, the plain sequences of bytes they stand for, and the runs in which they do.
import Eel.Core.DstringOps
import Eel.Lib.Machine

/-!
# Runs of dynamic strings

Operations take strings, dynamic strings and numbers as operands. Next to the heap there are
the same operations of plain sequences of bytes, in which nothing is shared.
-/

namespace Eel

/-! ## The heap -/

inductive DsObj where
  | string (buffer : List Byte)
  | dstring (ds : Buffer Byte)

structure DsHeap where
  object : ObjId → Option DsObj
  /-- Where the next object is put. -/
  next : ObjId

inductive DsOp where
  /-- A string that is there to be an operand. -/
  | string (buffer : List Byte)
  | construct (initv : List Value)
  | setindex (eo : ObjId) (op1 : BitVec 32) (op2 : Value)
  /-- `eel_ds_write`. -/
  | write (eo : ObjId) (pos : Nat) (s : List Byte)
  | insert (eo : ObjId) (op1 : BitVec 32) (op2 : Value)
  | delete (eo : ObjId) (op1 op2 : Option (BitVec 32))
  | copy (eo : ObjId) (op1 op2 : BitVec 32)
  | add (eo : ObjId) (op1 : Value)
  | ipadd (eo : ObjId) (op1 : Value)

namespace DsHeap

def empty : DsHeap := ⟨fun _ => none, 0⟩

/-- The characters of an object. -/
def text (h : DsHeap) (o : ObjId) : Option Text :=
  match h.object o with
  | some (.string buffer) => some (.string buffer)
  | some (.dstring ds) => (ds.cells.read 0 ds.length.toNat).map .dstring
  | none => none

def add (h : DsHeap) (obj : DsObj) : DsHeap := ⟨Function.update h.object h.next (some obj), h.next + 1⟩

/-- An operation that changes a dynamic string. -/
def edit (h : DsHeap) (eo : ObjId) (f : Buffer Byte → Option (Xno × Buffer Byte)) : Option (Xno × DsHeap) :=
  match h.object eo with
  | some (.dstring ds) =>
    (f ds).map fun r => (r.1, { h with object := Function.update h.object eo (some (.dstring r.2)) })
  | _ => some (Xno.wrongType, h)

/-- An operation that makes a new one. -/
def make (h : DsHeap) (eo : ObjId) (f : Buffer Byte → Option (Except Xno (Buffer Byte))) : Option (Xno × DsHeap) :=
  match h.object eo with
  | some (.dstring ds) =>
    (f ds).map fun
      | .ok new => (Xno.ok, h.add (.dstring new))
      | .error x => (x, h)
  | _ => some (Xno.wrongType, h)

variable (X : Indexing)

/-- One operation, with blocks that move when they get some sizes. -/
def perform (h : DsHeap) (moves : Nat → Bool) : DsOp → Option (Xno × DsHeap)
  | .string buffer => some (Xno.ok, h.add (.string buffer))
  | .construct initv =>
    (Buffer.dsConstruct X initv).map fun
      | .ok new => (Xno.ok, h.add (.dstring new))
      | .error x => (x, h)
  | .setindex eo op1 op2 => h.edit eo fun ds => ds.dsSetindex (.enough moves) X (.integer op1) op2
  | .write eo pos s => h.edit eo fun ds => ds.dsWrite (.enough moves) pos s
  | .insert eo op1 op2 => h.edit eo fun ds => ds.dsInsert (.enough moves) X h.text eo (.integer op1) op2
  | .delete eo op1 op2 => h.edit eo fun ds => ds.dsDelete (.enough moves) X (op1.map .integer) (op2.map .integer)
  | .copy eo op1 op2 => h.make eo fun ds => ds.dsCopy X.floor (.integer op1) (.integer op2)
  | .add eo op1 => h.make eo fun ds => (ds.dsAdd (Piece.ofValue X h.text eo op1)).map .ok
  | .ipadd eo op1 => h.edit eo fun ds => ds.dsIpadd (.enough moves) X h.text eo op1

/-- Whether the operation succeeds, if it comes to an end. -/
def step (h : DsHeap) (act : (Nat → Bool) × DsOp) : Option Bool × DsHeap :=
  match h.perform X act.1 act.2 with
  | some (x, h') => (some (x == Xno.ok), h')
  | none => (none, h)

end DsHeap

/-! ## Plain sequences -/

structure Plain where
  text : ObjId → Option Text
  next : ObjId

namespace Plain

def empty : Plain := ⟨fun _ => none, 0⟩

def add (s : Plain) (t : Text) : Plain := ⟨Function.update s.text s.next (some t), s.next + 1⟩

def edit (s : Plain) (eo : ObjId) (f : List Byte → Option (List Byte)) : Bool × Plain :=
  match s.text eo with
  | some (.dstring items) =>
    match f items with
    | some items' => (true, { s with text := Function.update s.text eo (some (.dstring items')) })
    | none => (false, s)
  | _ => (false, s)

def make (s : Plain) (eo : ObjId) (f : List Byte → Option (List Byte)) : Bool × Plain :=
  match s.text eo with
  | some (.dstring items) =>
    match f items with
    | some items' => (true, s.add (.dstring items'))
    | none => (false, s)
  | _ => (false, s)

variable (X : Indexing)

/-- The bytes that an operand stands for. -/
def bytes (s : Plain) (v : Value) : List Byte :=
  match v.obj?.bind s.text with
  | some t => t.buffer
  | none => [v.byte X]

/-- At an index that is not negative. -/
def atIndex (i : BitVec 32) (new : Nat → List Byte) : Option (List Byte) :=
  if i.toInt < 0 then none else some (new i.toInt.toNat)

def perform (s : Plain) : DsOp → Bool × Plain
  | .string buffer => (true, s.add (.string buffer))
  | .construct initv =>
    match constructChars X initv with
    | .ok items => (true, s.add (.dstring items))
    | .error _ => (false, s)
  | .setindex eo op1 op2 => s.edit eo fun items => atIndex op1 fun i => storeItem 0 items i (op2.byte X)
  | .write eo pos str => s.edit eo fun items => some (overwrite items pos str)
  | .insert eo op1 op2 => s.edit eo fun items => atIndex op1 fun i => insertItems 0 items i (s.bytes X op2)
  | .delete eo op1 op2 => s.edit eo fun items => deleted items op1 op2
  | .copy eo op1 op2 =>
    s.make eo fun items =>
      if 0 ≤ op1.toInt ∧ 0 ≤ op2.toInt ∧ op1.toInt + op2.toInt ≤ items.length then
        some (rangeOf items op1.toInt op2.toInt)
      else none
  | .add eo op1 => s.make eo fun items => some (items ++ s.bytes X op1)
  | .ipadd eo op1 => s.edit eo fun items => some (items ++ s.bytes X op1)

def step (s : Plain) (act : (Nat → Bool) × DsOp) : Option Bool × Plain :=
  ((some (s.perform X act.2).1), (s.perform X act.2).2)

end Plain

/-- An object of the heap and what it stands for. -/
inductive Represents : Option DsObj → Option Text → Prop where
  | none : Represents none none
  | string (buffer : List Byte) : Represents (some (.string buffer)) (some (.string buffer))
  | dstring {ds : Buffer Byte} {items : List Byte} (h : ds.IsDstring items) :
    Represents (some (.dstring ds)) (some (.dstring items))

/-- The heap stands for plain sequences. -/
structure DsHeap.StandsFor (h : DsHeap) (s : Plain) : Prop where
  object : ∀ o, Represents (h.object o) (s.text o)
  next : h.next = s.next

/-! ## The operations that are right -/

/-- A range that ends behind the last character, where the terminator is. -/
def TakesTerminator (length : Int) (op1 op2 : Option (BitVec 32)) : Prop :=
  ∃ start, op1 = some start ∧ 0 ≤ start.toInt ∧ 0 < (op2.map BitVec.toInt).getD 1 ∧
    start.toInt + (op2.map BitVec.toInt).getD 1 = length + 1

/-- The sizes of an operation do not overflow, it does not insert or delete behind the last character,
and what it takes from the string itself is still there, and in one place. -/
def DsHeap.Fine (X : Indexing) (h : DsHeap) (act : (Nat → Bool) × DsOp) : Prop :=
  match act.2 with
  | .string _ => True
  | .construct initv => initv.length + 1 < 2 ^ 31
  | .setindex eo op1 _ =>
    ∀ ds, h.object eo = some (.dstring ds) → op1.toInt < ds.length ∨ Grows ds (op1.toInt + 2)
  | .write eo pos s =>
    ∀ ds, h.object eo = some (.dstring ds) →
      (pos : Int) + s.length < 2 ^ 31 ∧ (pos + s.length < ds.length ∨ Grows ds (pos + s.length + 1))
  | .insert eo op1 op2 =>
    ∀ ds, h.object eo = some (.dstring ds) → 0 ≤ op1.toInt →
      let p := Piece.ofValue X h.text eo op2
      let size := ds.length + p.s2len ds.length + op1.toInt + 1
      op1.toInt ≤ ds.length ∧ Grows ds size ∧
        (p = .self → ds.length = 0 ∨ op1.toInt = ds.length ∧ Stays act.1 ds size)
  | .delete eo op1 op2 => ∀ ds, h.object eo = some (.dstring ds) → ¬ TakesTerminator ds.length op1 op2
  | .copy eo op1 op2 =>
    ∀ ds, h.object eo = some (.dstring ds) → ¬ EndOverflows ds.length.toNat op1.toInt op2.toInt
  | .add eo op1 =>
    ∀ ds, h.object eo = some (.dstring ds) →
      ds.length + (Piece.ofValue X h.text eo op1).s2len ds.length + 1 < 2 ^ 31
  | .ipadd eo op1 =>
    ∀ ds, h.object eo = some (.dstring ds) →
      let p := Piece.ofValue X h.text eo op1
      let size := ds.length + p.s2len ds.length + 1
      Grows ds size ∧ (p = .self → ds.length = 0 ∨ Stays act.1 ds size)

variable {X : Indexing} {h : DsHeap} {s : Plain} {moves : Nat → Bool} {eo : ObjId} {op1 op2 : Option (BitVec 32)}

/-! ## Deletion -/

/-- The last index of a range, in a string whose length has a successor. -/
theorem getDeleteRange_integer (X : Indexing) (op2 : Option (BitVec 32)) (start : BitVec 32) {length : Int} (h0 : 0 ≤ length) (hlen : length < 2 ^ 31 - 1) :
    let n := (op2.map BitVec.toInt).getD 1
    let range := getDeleteRange X (some (.integer start)) (op2.map .integer) length
    if 0 ≤ start.toInt ∧ 0 < n ∧ start.toInt + n ≤ length + 1 then range = .ok (start.toInt, start.toInt + n - 1)
    else ∃ x, range = .error x := by
  intro n range
  obtain ⟨last, hlast, hle⟩ : ∃ last : BitVec 32, lastIndex X start (op2.map .integer) = .ok last ∧
      ∃ q : Int, last.toInt = start.toInt + n - 1 - 2 ^ 32 * q := by
    cases op2 with
    | none =>
      refine ⟨start, rfl, 0, ?_⟩
      have hn : n = 1 := rfl
      omega
    | some v =>
      refine ⟨start + v - 1, rfl, ?_⟩
      have hn : n = v.toInt := rfl
      have hsub : (start + v - 1).toInt = (start.toInt + v.toInt - 1).bmod (2 ^ 32) := by
        rw [BitVec.toInt_sub, BitVec.toInt_add, Int.bmod_sub_bmod]
        rfl
      exact ⟨_, hsub.trans (Int.bmod_eq_self_sub_mul_bdiv _ _)⟩
  obtain ⟨q, hq⟩ := hle
  have hrange : range = checkRange length start.toInt last.toInt := by
    show getDeleteRange X (some (.integer start)) (op2.map .integer) length = _
    unfold getDeleteRange
    dsimp only [Value.index]
    rw [hlast]
  have hn : -2 ^ 31 ≤ n ∧ n < 2 ^ 31 := by
    cases op2 with
    | none => exact ⟨by decide, by decide⟩
    | some v => exact ⟨BitVec.le_toInt v, BitVec.toInt_lt⟩
  have hs1 := BitVec.le_toInt start
  have hs2 := BitVec.toInt_lt (x := start)
  have hl1 := BitVec.le_toInt last
  have hl2 := BitVec.toInt_lt (x := last)
  rw [hrange]
  split
  · have heq : last.toInt = start.toInt + n - 1 := by
      omega
    unfold checkRange
    rw [if_neg (by omega), if_neg (by omega), if_neg (by omega), heq]
  · unfold checkRange
    split
    · exact ⟨_, rfl⟩
    · split
      · exact ⟨_, rfl⟩
      · split
        · exact ⟨_, rfl⟩
        · omega

/-- What is made is what is to be made. -/
def Makes (result : Option (Except Xno (Buffer Byte))) (new : Option (List Byte)) : Prop :=
  (∃ ds items, result = some (.ok ds) ∧ new = some items ∧ ds.IsDstring items) ∨
    ∃ x, result = some (.error x) ∧ x ≠ Xno.ok ∧ new = none

namespace Buffer.IsDstring

variable {b : Buffer Byte} {items : List Byte}

theorem length_lt (hb : b.IsDstring items) : items.length < 2 ^ 31 - 1 := by
  have hle := hb.keeps.length_le
  have hlt := hb.keeps.maxlength_lt
  rw [List.length_append, List.length_singleton] at hle
  omega

/-- `ds_delete`, of a range that does not take the terminator. -/
theorem dsDelete (hb : b.IsDstring items) (h : ¬ TakesTerminator b.length op1 op2) :
    Does items (b.dsDelete (.enough moves) X (op1.map .integer) (op2.map .integer)) (deleted items op1 op2) := by
  have hlt := hb.length_lt
  have hlen := hb.length_eq
  have hiff : DeletesRange IsDstring (fun _ _ => id) items b
      (b.dsDelete (.enough moves) X (op1.map .integer) (op2.map .integer))
      (getDeleteRange X (op1.map .integer) (op2.map .integer) b.length) ↔ _ := hb.delete_iff
  cases op1 with
  | none =>
    have hrange : getDeleteRange X none (op2.map .integer) b.length = .ok (0, b.length - 1) := rfl
    have hends : ¬ EndsBehind items.length (.ok (0, b.length - 1)) := by
      rintro ⟨i0, heq⟩
      have := (Prod.mk.inj (Except.ok.inj heq)).2
      omega
    rw [Option.map_none, hrange] at hiff
    obtain ⟨-, b', hresult, hb', -⟩ := hiff.mpr hends
    have hnil : (items.take (0 : Int).toNat ++ items.drop (b.length - 1 + 1).toNat).map id = [] := by
      rw [List.map_id, List.drop_of_length_le (by omega)]
      rfl
    rw [hnil] at hb'
    exact .of_ok hresult hb'
  | some start =>
    obtain ⟨n, hn⟩ : ∃ n, (op2.map BitVec.toInt).getD 1 = n := ⟨_, rfl⟩
    have hspec := getDeleteRange_integer X op2 start (show 0 ≤ b.length by omega) (by omega)
    have hdeleted : deleted items (some start) op2 = deleteItems items start.toInt n := by
      rw [← hn]
      cases op2 <;> rfl
    rw [hn] at hspec
    dsimp only at hspec
    rw [hdeleted]
    unfold deleteItems
    by_cases hin : 0 ≤ start.toInt ∧ 0 < n ∧ start.toInt + n ≤ items.length
    · rw [if_pos ⟨hin.1, hin.2.1, by omega⟩] at hspec
      have hends : ¬ EndsBehind items.length (.ok (start.toInt, start.toInt + n - 1)) := by
        rintro ⟨i0, heq⟩
        have := (Prod.mk.inj (Except.ok.inj heq)).2
        omega
      rw [Option.map_some, hspec] at hiff
      obtain ⟨-, b', hresult, hb', -⟩ := hiff.mpr hends
      rw [List.map_id, Int.sub_add_cancel] at hb'
      rw [if_pos hin]
      exact .of_ok hresult hb'
    · have hout : ¬ (0 ≤ start.toInt ∧ 0 < n ∧ start.toInt + n ≤ b.length + 1) := fun hin' =>
        h ⟨start, rfl, hin'.1, hn ▸ hin'.2.1, by rw [hn]; omega⟩
      rw [if_neg hout] at hspec
      obtain ⟨x, hx⟩ := hspec
      rw [if_neg hin]
      refine .of_error hb ?_ (getDeleteRange_error hx)
      unfold Buffer.dsDelete
      rw [Option.map_some, hx]

/-- `ds_copy`, of a range whose end is an `int`. -/
theorem dsCopy {v1 v2 : BitVec 32} (hb : b.IsDstring items) (h : ¬ EndOverflows b.length.toNat v1.toInt v2.toInt) :
    Makes (b.dsCopy X.floor (.integer v1) (.integer v2))
      (if 0 ≤ v1.toInt ∧ 0 ≤ v2.toInt ∧ v1.toInt + v2.toInt ≤ items.length then
        some (rangeOf items v1.toInt v2.toInt) else none) := by
  rw [hb.length_eq, Int.toNat_natCast] at h
  have hcopies : CopiesRange items.length v1.toInt v2.toInt (b.dsCopy X.floor (.integer v1) (.integer v2)) _ :=
    hb.dsCopy_iff.mpr h
  unfold CopiesRange at hcopies
  split at hcopies
  · rename_i hin
    obtain ⟨new, hnew, hds⟩ := hcopies
    rw [if_pos hin]
    exact .inl ⟨new, _, hnew, rfl, hds⟩
  · rename_i hout
    obtain ⟨x, hx, hresult⟩ := hcopies
    rw [if_neg hout]
    exact .inr ⟨x, hresult, hx, rfl⟩

/-- `ds_setindex`. -/
theorem dsSetindex {i : BitVec 32} {op2 : Value} (hb : b.IsDstring items)
    (h : i.toInt < b.length ∨ Grows b (i.toInt + 2)) :
    Does items (b.dsSetindex (.enough moves) X (.integer i) op2)
      (Plain.atIndex i fun k => storeItem 0 items k (op2.byte X)) := by
  have hlen := hb.length_eq
  unfold Buffer.dsSetindex Plain.atIndex
  dsimp only [Value.index]
  split
  · exact .of_error hb rfl (by decide)
  · obtain ⟨k, hk⟩ : ∃ k : Nat, i.toInt = k := Int.eq_ofNat_of_zero_le (by omega)
    rw [hk] at h ⊢
    exact hb.dsSetIndex (h.imp_left fun hlt => by omega)

/-- `ds_insert`. -/
theorem dsInsert {i : BitVec 32} {op2 : Value} {text : ObjId → Option Text} (hb : b.IsDstring items)
    (h : 0 ≤ i.toInt →
      let p := Piece.ofValue X text eo op2
      let size := b.length + p.s2len b.length + i.toInt + 1
      i.toInt ≤ b.length ∧ Grows b size ∧ (p = .self → b.length = 0 ∨ i.toInt = b.length ∧ Stays moves b size)) :
    Does items (b.dsInsert (.enough moves) X text eo (.integer i) op2)
      (Plain.atIndex i fun k => insertItems 0 items k ((Piece.ofValue X text eo op2).of items)) := by
  have hlen := hb.length_eq
  unfold Buffer.dsInsert Plain.atIndex
  dsimp only [Value.index]
  split
  · exact .of_error hb rfl (by decide)
  · obtain ⟨k, hk⟩ : ∃ k : Nat, i.toInt = k := Int.eq_ofNat_of_zero_le (by omega)
    obtain ⟨hle, hgrows, hself⟩ := h (by omega)
    rw [hb.s2len_eq, hk, hlen] at hgrows hself
    rw [hk]
    refine hb.dsInsertAt (by omega) hgrows fun heq => (hself heq).imp ?_ fun hend => ⟨by omega, hend.2⟩
    intro hzero
    exact List.eq_nil_of_length_eq_zero (by omega)

end Buffer.IsDstring

/-! ## One operation -/

namespace DsHeap

/-- The operation comes to an end, with what the other one says. -/
def Follows (result : Option (Xno × DsHeap)) (r : Bool × Plain) : Prop :=
  ∃ x h', result = some (x, h') ∧ (x == Xno.ok) = r.1 ∧ h'.StandsFor r.2

theorem StandsFor.text (hs : h.StandsFor s) : h.text = s.text := by
  funext o
  unfold DsHeap.text
  have hrep := hs.object o
  generalize h.object o = obj at hrep ⊢
  generalize s.text o = t at hrep ⊢
  cases hrep with
  | none => rfl
  | string buffer => rfl
  | @dstring ds items hds =>
    have hread : ds.cells.read 0 ds.length.toNat = some items := by
      rw [hds.length_eq, Int.toNat_natCast]
      exact Block.read_all hds.stored
    dsimp only
    rw [hread]
    rfl

/-- What an operand is to a string is what it stands for. -/
theorem StandsFor.piece (hs : h.StandsFor s) {items : List Byte} (heo : s.text eo = some (.dstring items)) (op : Value) :
    (Piece.ofValue X h.text eo op).of items = s.bytes X op := by
  rw [hs.text]
  unfold Piece.ofValue Plain.bytes
  cases hobj : op.obj? with
  | none => rfl
  | some o =>
    rw [Option.bind_some, Option.bind_some]
    cases ht : s.text o with
    | none => rfl
    | some t =>
      cases t with
      | string buffer => rfl
      | dstring buffer =>
        rw [Option.map_some]
        dsimp only
        split
        · rename_i heq
          rw [heq, heo] at ht
          obtain rfl := Text.dstring.inj (Option.some.inj ht)
          rfl
        · rfl

theorem StandsFor.update (hs : h.StandsFor s) (o : ObjId) {obj : DsObj} {t : Text} (hrep : Represents (some obj) (some t)) :
    ∀ o', Represents (Function.update h.object o (some obj) o') (Function.update s.text o (some t) o') := by
  intro o'
  by_cases heq : o' = o
  · subst heq
    rw [Function.update_self, Function.update_self]
    exact hrep
  · rw [Function.update_of_ne heq, Function.update_of_ne heq]
    exact hs.object o'

theorem StandsFor.add (hs : h.StandsFor s) {obj : DsObj} {t : Text} (hrep : Represents (some obj) (some t)) :
    (h.add obj).StandsFor (s.add t) := by
  refine ⟨?_, congrArg (· + 1) hs.next⟩
  unfold DsHeap.add Plain.add
  rw [← hs.next]
  exact hs.update h.next hrep

theorem StandsFor.edit {f : Buffer Byte → Option (Xno × Buffer Byte)} {g : List Byte → Option (List Byte)}
    (hs : h.StandsFor s)
    (hfg : ∀ ds items, h.object eo = some (.dstring ds) → s.text eo = some (.dstring items) → ds.IsDstring items →
      Does items (f ds) (g items)) : Follows (h.edit eo f) (s.edit eo g) := by
  unfold DsHeap.edit Plain.edit
  have hother : (Xno.wrongType == Xno.ok) = false := beq_false_of_ne (by decide)
  have hrep := hs.object eo
  generalize hobj : h.object eo = obj at hrep hfg ⊢
  generalize htext : s.text eo = t at hrep hfg ⊢
  cases hrep with
  | none => exact ⟨_, _, rfl, hother, hs⟩
  | string buffer => exact ⟨_, _, rfl, hother, hs⟩
  | @dstring ds items hds =>
    obtain ⟨x, b', hresult, hb', hx⟩ := hfg ds items rfl rfl hds
    dsimp only
    rw [hresult, Option.map_some]
    refine ⟨_, _, rfl, ?_⟩
    cases hg : g items with
    | none =>
      rw [hg] at hb' hx
      have hne : x ≠ Xno.ok := fun heq => nomatch hx.mp heq
      refine ⟨beq_false_of_ne hne, fun o => ?_, hs.next⟩
      have hsame : Function.update s.text eo (some (.dstring items)) = s.text := by
        rw [← htext, Function.update_eq_self]
      rw [← hsame]
      exact hs.update eo (.dstring hb') o
    | some items' =>
      rw [hg] at hb' hx
      obtain rfl := hx.mpr rfl
      exact ⟨rfl, hs.update eo (.dstring hb'), hs.next⟩

theorem StandsFor.make {f : Buffer Byte → Option (Except Xno (Buffer Byte))} {g : List Byte → Option (List Byte)}
    (hs : h.StandsFor s)
    (hfg : ∀ ds items, h.object eo = some (.dstring ds) → s.text eo = some (.dstring items) → ds.IsDstring items →
      Makes (f ds) (g items)) : Follows (h.make eo f) (s.make eo g) := by
  unfold DsHeap.make Plain.make
  have hother : (Xno.wrongType == Xno.ok) = false := beq_false_of_ne (by decide)
  have hrep := hs.object eo
  generalize h.object eo = obj at hrep hfg ⊢
  generalize s.text eo = t at hrep hfg ⊢
  cases hrep with
  | none => exact ⟨_, _, rfl, hother, hs⟩
  | string buffer => exact ⟨_, _, rfl, hother, hs⟩
  | @dstring ds items hds =>
    dsimp only
    rcases hfg ds items rfl rfl hds with ⟨new, items', hresult, hg, hnew⟩ | ⟨x, hresult, hx, hg⟩
    · rw [hresult, hg]
      exact ⟨_, _, rfl, rfl, hs.add (.dstring hnew)⟩
    · rw [hresult, hg]
      exact ⟨_, _, rfl, beq_false_of_ne hx, hs⟩

/-- One operation that is right. -/
theorem StandsFor.perform (hs : h.StandsFor s) {op : DsOp} (hfine : h.Fine X (moves, op)) :
    Follows (h.perform X moves op) (s.perform X op) := by
  cases op with
  | string buffer => exact ⟨_, _, rfl, beq_self_eq_true _, hs.add (.string buffer)⟩
  | construct initv =>
    show Follows ((Buffer.dsConstruct X initv).map _) (match constructChars X initv with | .ok _ => _ | .error _ => _)
    rcases dsConstruct_cases (X := X) initv hfine with ⟨items, new, hchars, hnew, hds⟩ | ⟨x, hchars, hnew, hx⟩
    · rw [hnew, hchars]
      exact ⟨_, _, rfl, beq_self_eq_true _, hs.add (.dstring hds)⟩
    · rw [hnew, hchars]
      exact ⟨_, _, rfl, beq_false_of_ne hx, hs⟩
  | setindex eo op1 op2 => exact hs.edit fun ds items hobj _ hds => hds.dsSetindex (hfine ds hobj)
  | write eo pos str =>
    refine hs.edit fun ds items hobj _ hds => ?_
    obtain ⟨hint, hgrows⟩ := hfine ds hobj
    exact hds.dsWrite hint (hgrows.imp_left fun hlt => by have := hds.length_eq; omega)
  | insert eo op1 op2 =>
    refine hs.edit fun ds items hobj htext hds => ?_
    rw [← hs.piece (X := X) htext op2]
    exact hds.dsInsert (hfine ds hobj)
  | delete eo op1 op2 => exact hs.edit fun ds items hobj _ hds => hds.dsDelete (hfine ds hobj)
  | copy eo op1 op2 => exact hs.make fun ds items hobj _ hds => hds.dsCopy (hfine ds hobj)
  | add eo op1 =>
    refine hs.make fun ds items hobj htext hds => ?_
    have hsize := hfine ds hobj
    rw [hds.s2len_eq, hds.length_eq] at hsize
    rw [← hs.piece (X := X) htext op1]
    obtain ⟨new, hnew, hnewds⟩ := hds.dsAdd (p := Piece.ofValue X h.text eo op1) (by omega)
    exact .inl ⟨new, _, congrArg (Option.map Except.ok) hnew, rfl, hnewds⟩
  | ipadd eo op1 =>
    refine hs.edit fun ds items hobj htext hds => ?_
    obtain ⟨hgrows, hself⟩ := hfine ds hobj
    rw [hds.s2len_eq, hds.length_eq] at hgrows hself
    rw [← hs.piece (X := X) htext op1]
    refine hds.dsIpadd rfl hgrows fun heq => (hself heq).imp_left fun hzero => ?_
    exact List.eq_nil_of_length_eq_zero (by omega)

theorem StandsFor.step (hs : h.StandsFor s) {act : (Nat → Bool) × DsOp} (hfine : h.Fine X act) :
    (h.step X act).1 = (s.step X act).1 ∧ (h.step X act).2.StandsFor (s.step X act).2 := by
  obtain ⟨moves, op⟩ := act
  obtain ⟨x, h', hresult, hx, hs'⟩ := hs.perform hfine
  unfold DsHeap.step Plain.step
  rw [hresult]
  exact ⟨congrArg some hx, hs'⟩

end DsHeap

/-! ## Runs -/

/-- The characters of a dynamic string are these, with room for a terminator that is there. -/
structure Terminated (ds : Buffer Byte) (items : List Byte) : Prop where
  length_eq : ds.length = items.length
  chars : ds.cells.read 0 ds.length.toNat = some items
  length_lt : ds.length < ds.maxlength
  terminator : ds.cells.load ds.length = some 0

theorem Buffer.IsDstring.terminated {ds : Buffer Byte} {items : List Byte} (h : ds.IsDstring items) :
    Terminated ds items where
  length_eq := h.length_eq
  chars := by
    rw [h.length_eq, Int.toNat_natCast]
    exact Block.read_all h.stored
  length_lt := by
    have hle := h.keeps.length_le
    have hlen := h.length_eq
    rw [List.length_append, List.length_singleton] at hle
    omega
  terminator := by
    have hlt : items.length < (items ++ [(0 : Byte)]).length := by
      rw [List.length_append]
      exact Nat.lt_succ_self _
    rw [Block.load_item h.keeps.stored hlt h.length_eq, List.getElem_concat_length]
    rfl

/-- The heap has the dynamic strings that the operations make of plain sequences. -/
def MatchesPlain (h : DsHeap) (s : Plain) : Prop :=
  ∀ eo, (∀ ds, h.object eo = some (.dstring ds) → ∃ items, s.text eo = some (.dstring items) ∧ Terminated ds items) ∧
    ∀ items, s.text eo = some (.dstring items) → ∃ ds, h.object eo = some (.dstring ds) ∧ Terminated ds items

theorem DsHeap.StandsFor.matchesPlain (hs : h.StandsFor s) : MatchesPlain h s := by
  intro eo
  have hrep := hs.object eo
  generalize h.object eo = obj at hrep ⊢
  generalize s.text eo = t at hrep ⊢
  cases hrep with
  | none => exact ⟨nofun, nofun⟩
  | string buffer => exact ⟨nofun, nofun⟩
  | @dstring ds items hds =>
    constructor
    · intro ds' heq
      obtain rfl := DsObj.dstring.inj (Option.some.inj heq)
      exact ⟨items, rfl, hds.terminated⟩
    · intro items' heq
      obtain rfl := Text.dstring.inj (Option.some.inj heq)
      exact ⟨ds, rfl, hds.terminated⟩

theorem standsFor_empty : DsHeap.empty.StandsFor Plain.empty := ⟨fun _ => .none, rfl⟩

/-- In every run of operations that are right, each succeeds or fails as it does on plain sequences of
bytes, and every dynamic string has the bytes of its sequence, and a terminator. -/
theorem run_matchesPlain (X : Indexing) (acts : List ((Nat → Bool) × DsOp))
    (h : Machine.Along (DsHeap.step X) (DsHeap.Fine X) DsHeap.empty acts) :
    let r := Machine.run (DsHeap.step X) DsHeap.empty acts
    let plain := Machine.run (Plain.step X) Plain.empty acts
    r.1 = plain.1 ∧ MatchesPlain r.2 plain.2 := by
  intro r plain
  have hstep : ∀ h s act, DsHeap.StandsFor h s → h.Fine X act →
      (h.step X act).1 = (s.step X act).1 ∧ (h.step X act).2.StandsFor (s.step X act).2 :=
    fun _ _ _ hs hfine => hs.step hfine
  have hsim : r.1 = plain.1 ∧ r.2.StandsFor plain.2 := Machine.run_sim_along hstep standsFor_empty h
  exact ⟨hsim.1, hsim.2.matchesPlain⟩

/-- `"AB" + "AB"`, of one string. -/
theorem run_matchesPlain_twice :
    let acts : List ((Nat → Bool) × DsOp) :=
      [(fun _ => true, .construct [.integer 65, .integer 66]), (fun _ => true, .add 0 (.objref 0))]
    Machine.Along (DsHeap.step noIndexing) (DsHeap.Fine noIndexing) DsHeap.empty acts ∧
      let r := Machine.run (DsHeap.step noIndexing) DsHeap.empty acts
      let plain := Machine.run (Plain.step noIndexing) Plain.empty acts
      r.1 = plain.1 ∧ MatchesPlain r.2 plain.2 := by
  intro acts
  have h : Machine.Along (DsHeap.step noIndexing) (DsHeap.Fine noIndexing) DsHeap.empty acts := by
    refine ⟨show 2 + 1 < 2 ^ 31 by decide, fun ds hds => ?_, trivial⟩
    obtain rfl : (⟨2, 3, [some 65, some 66, some 0]⟩ : Buffer Byte) = ds := DsObj.dstring.inj (Option.some.inj hds)
    exact show (2 : Int) + 2 + 1 < 2 ^ 31 by decide
  exact ⟨h, run_matchesPlain noIndexing acts h⟩

/-- The index behind the last character of `"AB"` is deleted, and the string is `"A"` without a terminator. -/
theorem not_matchesPlain_delete :
    let acts : List ((Nat → Bool) × DsOp) :=
      [(fun _ => false, .construct [.integer 65, .integer 66]), (fun _ => false, .delete 0 (some 2) none)]
    let r := Machine.run (DsHeap.step noIndexing) DsHeap.empty acts
    let plain := Machine.run (Plain.step noIndexing) Plain.empty acts
    r.1 = [some true, some true] ∧ r.2.object 0 = some (.dstring ⟨1, 3, [some 65, some 66, some 0]⟩) ∧
      plain.1 = [some true, some false] ∧ plain.2.text 0 = some (.dstring [65, 66]) ∧
        ¬ (r.1 = plain.1 ∧ MatchesPlain r.2 plain.2) := by
  intro acts r plain
  have hout : r.1 = [some true, some true] := rfl
  have hplain : plain.1 = [some true, some false] := rfl
  refine ⟨hout, rfl, hplain, rfl, fun h => ?_⟩
  rw [hout, hplain] at h
  exact absurd h.1 (by decide)

end Eel
