-- SUMMARY: The vector classes: growth, conversion of items, and appending values and the items of other objects.
import Eel.Core.Operate
import Eel.Core.Table
import Mathlib.Data.List.Forall2

/-!
# Vectors

The items of a vector are at the start of a block, which may have room for more. Memory is
assumed to suffice. Strings, dynamic strings, arrays and vectors check indexes in the same
way when they are read.
-/

namespace Eel

/-- `EEL_CVECTOR_U8` and so on. -/
inductive VectorClass where
  | u8 | s8 | u16 | s16 | u32 | s32
  | f | d
  deriving DecidableEq

/-- The bits of an item, of which a class may use the lower ones. -/
abbrev Item := BitVec 64

/-- What conversions make of numbers. -/
structure Conversions where
  /-- `floor`, and then the conversion to an item. -/
  floor : VectorClass → BitVec 64 → BitVec 32
  /-- The item of a `double`. -/
  ofReal : VectorClass → BitVec 64 → Item
  /-- The item of an integer. -/
  ofInt : VectorClass → BitVec 32 → Item
  toReal : VectorClass → Item → BitVec 64
  /-- What is in memory that nobody wrote. -/
  garbage : Item

/-- What appending reads of an object. -/
inductive Contents where
  /-- Items, and the block they are in. -/
  | vector (cls : VectorClass) (length : Nat) (buffer : List Item)
  | string (buffer : List Byte)
  | dstring (buffer : List Byte)
  | array (values : List Value)
  | table (length : Nat)
  | other

namespace VectorClass

/-- The bits of an integer item: eight times `item_size`. -/
def width : VectorClass → Nat
  | u8 | s8 => 8
  | u16 | s16 => 16
  | u32 | s32 | f => 32
  | d => 64

variable (C : Conversions)

/-- The item that `write_index` makes of a value. -/
def convert (cls : VectorClass) : Value → Except Xno Item
  | .nil => .ok 0
  | .boolean v | .integer v | .classid v =>
    match cls with
    | f | d => .ok (C.ofInt cls v)
    | cls => .ok ((v.setWidth cls.width).setWidth 64)
  | .real bits =>
    match cls with
    | f | d => .ok (C.ofReal cls bits)
    | cls => .ok (((C.floor cls bits).setWidth cls.width).setWidth 64)
  | .objref _ | .weakref .. => .error Xno.wrongType

/-- The value that `v_getindex` makes of an item. -/
def value (cls : VectorClass) (item : Item) : Value :=
  match cls with
  | u8 | u16 | u32 => .integer ((item.setWidth cls.width).setWidth 32)
  | s8 | s16 | s32 => .integer ((item.setWidth cls.width).signExtend 32)
  | f | d => .real (C.toReal cls item)

end VectorClass

namespace Contents

variable (C : Conversions)

/-- The items, as values. -/
def values? : Contents → Option (List Value)
  | vector cls length buffer => some ((buffer.take length).map (cls.value C))
  | string buffer | dstring buffer => some (buffer.map fun c => .integer (c.setWidth 32))
  | array values => some values
  | table _ | other => none

/-- `eel_length`, if there is a length. -/
def length? : Contents → Option Nat
  | vector _ length _ => some length
  | string buffer | dstring buffer => some buffer.length
  | array values => some values.length
  | table length => some length
  | other => none

/-- `EEL_MM_GETINDEX`, of an index that is not negative. -/
def getindex (c : Contents) (i : Nat) : Except Xno Value :=
  match c.values? C with
  | some values =>
    match values[i]? with
    | some v => .ok v
    | none => .error Xno.highIndex
  | none => .error Xno.notImplemented

/-- The class and the items of a vector. -/
def items? : Contents → Option (VectorClass × List Item)
  | vector cls length buffer => some (cls, buffer.take length)
  | _ => none

end Contents

/-- `EEL_VECTOR_SIZEBASE`. -/
def vectorSizeBase : Nat := 8

/-- The objects, and the next one that is made. -/
structure Heap where
  object : ObjId → Contents
  next : ObjId

namespace Heap

variable (C : Conversions) (w : Heap)

def set (o : ObjId) (c : Contents) : Heap := { w with object := Function.update w.object o c }

/-- `v_setsize`. -/
def vSetsize (eo : ObjId) (newsize : Nat) : Heap :=
  match w.object eo with
  | .vector cls length buffer =>
    let n := calcResize vectorSizeBase (by decide) buffer.length newsize
    if n = buffer.length then w
    else w.set eo (.vector cls length (buffer.take n ++ List.replicate (n - buffer.length) C.garbage))
  | _ => w

/-- `write_index`. -/
def writeIndex (eo : ObjId) (i : Nat) (v : Value) : Xno × Heap :=
  match w.object eo with
  | .vector cls length buffer =>
    match cls.convert C v with
    | .ok item => (Xno.ok, w.set eo (.vector cls length (buffer.set i item)))
    | .error x => (x, w)
  | _ => (Xno.internal, w)

/-- `vec->length = length`. -/
def setLength (eo : ObjId) (length : Nat) : Heap :=
  match w.object eo with
  | .vector cls _ buffer => w.set eo (.vector cls length buffer)
  | _ => w

/-- The length of a vector. -/
def vLength (eo : ObjId) : Nat := ((w.object eo).length?).getD 0

/-- The loop that appends the items of `o` from `i` on, of which there are `n`. -/
def appendItems (eo o : ObjId) (start i : Nat) : Nat → Heap → Xno × Heap
  | 0, w => (Xno.ok, w)
  | n + 1, w =>
    match (w.object o).getindex C i with
    | .error x => (x, w)
    | .ok v =>
      match w.writeIndex C eo (start + i) v with
      | (x, w) => if x = Xno.ok then appendItems eo o start (i + 1) n w else (x, w)

/-- `v__append`. The object that it is called with for the result plays no part in it. -/
def vAppend (eo : ObjId) (op1 : Value) (_to : ObjId) : Xno × Heap :=
  let start := w.vLength eo
  match op1.obj?.bind fun o => ((w.object o).length?).map fun len => (o, len) with
  | some (o, len) =>
    if len = 0 then (Xno.ok, w)
    else
      let w := w.vSetsize C eo (start + len)
      match w.object o with
      | .table _ => (Xno.wrongType, w)
      | _ =>
        match appendItems C eo o start 0 len w with
        | (x, w) => if x = Xno.ok then (Xno.ok, w.setLength eo (start + len)) else (x, w)
  | none =>
    let w := w.vSetsize C eo (start + 1)
    match w.writeIndex C eo start op1 with
    | (x, w) => if x = Xno.ok then (Xno.ok, w.setLength eo (start + 1)) else (x, w)

/-- `full_clone`. -/
def fullClone (orig : ObjId) : ObjId × Heap :=
  let contents :=
    match w.object orig with
    | .vector cls length buffer => .vector cls length (buffer.take length)
    | c => c
  (w.next, { w.set w.next contents with next := w.next + 1 })

/-- `v_add`. A clone that is not returned is freed. -/
def vAdd (eo : ObjId) (op1 : Value) : Except Xno Value × Heap :=
  let (clone, w) := w.fullClone eo
  match w.vAppend C eo op1 clone with
  | (x, w) => if x = Xno.ok then (.ok (.objref clone), w) else (.error x, w.set clone .other)

/-- `v_ipadd`. -/
def vIpadd (eo : ObjId) (op1 : Value) : Except Xno Value × Heap :=
  match w.vAppend C eo op1 eo with
  | (x, w) => if x = Xno.ok then (.ok (.objref eo), w) else (.error x, w)

/-! ## What appending does -/

variable {C : Conversions} {w : Heap} {eo o : ObjId} {cls : VectorClass} {length start i : Nat} {buffer : List Item}
  {vs : List Value} {items : List Item} {c : Contents}

@[simp] theorem set_object_self : (w.set o c).object o = c := Function.update_self ..

theorem set_object_of_ne (h : o ≠ eo) : (w.set eo c).object o = w.object o := Function.update_of_ne h ..

@[simp] theorem set_set {c' : Contents} : (w.set o c).set o c' = w.set o c' := by
  unfold set
  rw [Function.update_idem]

theorem set_self (h : w.object o = c) : w.set o c = w := by
  unfold set
  rw [← h, Function.update_eq_self]

@[simp] theorem set_next : (w.set o c).next = w.next := rfl

/-- Room behind the items does not matter to what is read. -/
theorem values_set (h : w.object eo = .vector cls length buffer) {buffer' : List Item}
    (hsame : buffer'.take length = buffer.take length) :
    ((w.set eo (.vector cls length buffer')).object o).values? C = (w.object o).values? C := by
  by_cases ho : o = eo
  · subst ho
    rw [set_object_self, h]
    show some ((buffer'.take length).map _) = some ((buffer.take length).map _)
    rw [hsame]
  · rw [set_object_of_ne ho]

/-- There is room for `n` items. -/
theorem vSetsize_eq (h : w.object eo = .vector cls length buffer) (hle : length ≤ buffer.length) {n : Nat}
    (hn : length ≤ n) :
    ∃ buffer', w.vSetsize C eo n = w.set eo (.vector cls length buffer') ∧ n ≤ buffer'.length ∧
      buffer'.take length = buffer.take length := by
  have hge := calcResize_ge vectorSizeBase (by decide) buffer.length n
  unfold vSetsize
  rw [h]
  dsimp only
  split
  · rename_i heq
    exact ⟨buffer, (set_self h).symm, heq ▸ hge, rfl⟩
  · refine ⟨_, rfl, ?_, ?_⟩
    · rw [List.length_append, List.length_take, List.length_replicate]
      omega
    · rw [List.take_append_of_le_length (by rw [List.length_take]; omega), List.take_take]
      congr 1
      omega

/-- A value goes to its place in the block. -/
theorem writeIndex_eq (h : w.object eo = .vector cls length buffer) {v : Value} {item : Item}
    (hv : cls.convert C v = .ok item) :
    w.writeIndex C eo i v = (Xno.ok, w.set eo (.vector cls length (buffer.set i item))) := by
  unfold writeIndex
  rw [h]
  dsimp only
  rw [hv]

/-- A block in which items were put behind the first `i`. -/
def filled (buffer : List Item) (i : Nat) (items : List Item) : List Item :=
  buffer.take i ++ items ++ buffer.drop (i + items.length)

theorem filled_nil : filled buffer i [] = buffer := by
  unfold filled
  rw [List.append_nil]
  exact List.take_append_drop i buffer

theorem filled_cons {item : Item} (h : i < buffer.length) :
    filled (buffer.set i item) (i + 1) items = filled buffer i (item :: items) := by
  unfold filled
  have htake : (buffer.set i item).take (i + 1) = buffer.take i ++ [item] := by
    rw [List.take_add_one, List.take_set_of_le (Nat.le_refl i), List.getElem?_set_self h]
    rfl
  rw [htake, List.drop_set_of_lt (by omega), List.append_assoc, List.append_assoc, List.append_assoc,
    List.length_cons, Nat.add_assoc, Nat.add_comm 1]
  rfl

theorem take_filled (h : i ≤ buffer.length) : (filled buffer i items).take (i + items.length) =
    buffer.take i ++ items := by
  unfold filled
  have hlen : (buffer.take i ++ items).length = i + items.length := by
    rw [List.length_append, List.length_take, Nat.min_eq_left h]
  rw [← hlen, List.take_left]

/-- The loop appends what it reads, also if it reads the vector itself. -/
theorem appendItems_eq (h : w.object eo = .vector cls start buffer) (hvs : (w.object o).values? C = some vs)
    (hitems : List.Forall₂ (fun v item => cls.convert C v = .ok item) (vs.drop i) items)
    (hsize : start + i + items.length ≤ buffer.length) :
    appendItems C eo o start i items.length w =
      (Xno.ok, w.set eo (.vector cls start (filled buffer (start + i) items))) := by
  induction items generalizing w i buffer with
  | nil =>
    rw [filled_nil, set_self h]
    rfl
  | cons item items ih =>
    obtain ⟨v, vs', hv, hrest, hdrop⟩ := List.forall₂_cons_right_iff.mp hitems
    have hget : vs[i]? = some v := by
      rw [← List.head?_drop, hdrop]
      rfl
    have hread : (w.object o).getindex C i = .ok v := by
      unfold Contents.getindex
      rw [hvs]
      dsimp only
      rw [hget]
    rw [List.length_cons] at hsize
    have hset : (buffer.set (start + i) item).take start = buffer.take start :=
      List.take_set_of_le (Nat.le_add_right _ _)
    have hnext : vs.drop (i + 1) = vs' := by
      rw [← List.drop_drop, hdrop]
      rfl
    have hlen : start + (i + 1) + items.length ≤ (buffer.set (start + i) item).length := by
      rw [List.length_set]
      omega
    show (match (w.object o).getindex C i with
      | .error x => (x, w)
      | .ok v =>
        match w.writeIndex C eo (start + i) v with
        | (x, w) => if x = Xno.ok then appendItems C eo o start (i + 1) items.length w else (x, w)) = _
    rw [hread]
    dsimp only
    rw [writeIndex_eq h hv]
    dsimp only
    rw [if_pos rfl, ih set_object_self ((values_set h hset).trans hvs) (hnext ▸ hrest) hlen, set_set,
      ← Nat.add_assoc, filled_cons (by omega)]

/-- The items that an operand is appended as: those of a number, or of an object's numbers. -/
def Converts (C : Conversions) (w : Heap) (cls : VectorClass) (x : Value) (items : List Item) : Prop :=
  match x.obj? with
  | some o => ∃ vs, (w.object o).values? C = some vs ∧
      List.Forall₂ (fun v item => cls.convert C v = .ok item) vs items
  | none => ∃ item, cls.convert C x = .ok item ∧ items = [item]

/-- Items are in their blocks, and nothing is where the next objects will be. -/
structure WellFormed (w : Heap) : Prop where
  fits : ∀ {o cls length buffer}, w.object o = .vector cls length buffer → length ≤ buffer.length
  fresh : ∀ {o}, w.next ≤ o → w.object o = .other

theorem WellFormed.length_eq (hw : w.WellFormed) (h : (w.object o).values? C = some vs) :
    (w.object o).length? = some vs.length := by
  cases hc : w.object o with
  | vector cls length buffer =>
    rw [hc] at h
    cases h
    show some length = some ((buffer.take length).map _).length
    rw [List.length_map, List.length_take, Nat.min_eq_left (hw.fits hc)]
  | string buffer | dstring buffer =>
    rw [hc] at h
    cases h
    show some buffer.length = some (buffer.map _).length
    rw [List.length_map]
  | array values =>
    rw [hc] at h
    cases h
    rfl
  | table | other =>
    rw [hc] at h
    cases h

/-- A vector that was appended to. -/
def Extended (w w' : Heap) (eo : ObjId) (cls : VectorClass) (items : List Item) : Prop :=
  ∃ buffer', w' = w.set eo (.vector cls items.length buffer') ∧ buffer'.take items.length = items

theorem setLength_set {n : Nat} : (w.set eo (.vector cls start buffer)).setLength eo n =
    w.set eo (.vector cls n buffer) := by
  unfold setLength
  rw [set_object_self]
  exact set_set

/-- Appending puts the items behind those of the vector, whatever the operand is. -/
theorem vAppend_extended {x : Value} {clone : ObjId} (hw : w.WellFormed) (h : w.object eo = .vector cls start buffer)
    (hx : Converts C w cls x items) :
    ∃ w', w.vAppend C eo x clone = (Xno.ok, w') ∧ Extended w w' eo cls (buffer.take start ++ items) := by
  have hle := hw.fits h
  have hstart : w.vLength eo = start := by
    unfold vLength
    rw [h]
    rfl
  have hlen : (buffer.take start ++ items).length = start + items.length := by
    rw [List.length_append, List.length_take, Nat.min_eq_left hle]
  unfold Extended
  rw [hlen]
  unfold Converts at hx
  unfold vAppend
  rw [hstart]
  cases hobj : x.obj? with
  | some o =>
    rw [hobj] at hx
    obtain ⟨vs, hvs, hitems⟩ := hx
    have hcount : vs.length = items.length := hitems.length_eq
    rw [Option.bind_some, hw.length_eq hvs, hcount]
    dsimp only [Option.map_some]
    by_cases hzero : items.length = 0
    · rw [if_pos hzero]
      obtain rfl := List.length_eq_zero_iff.mp hzero
      exact ⟨w, rfl, buffer, (set_self h).symm, (List.append_nil _).symm⟩
    · rw [if_neg hzero]
      obtain ⟨buffer', hsize, hroom, hsame⟩ := vSetsize_eq (C := C) h hle (Nat.le_add_right start items.length)
      have hvs' : ((w.set eo (.vector cls start buffer')).object o).values? C = some vs :=
        (values_set h hsame).trans hvs
      have happend := appendItems_eq (i := 0) (o := o) (set_object_self (w := w) (c := .vector cls start buffer'))
        hvs' hitems hroom
      refine ⟨w.set eo (.vector cls (start + items.length) (filled buffer' start items)), ?_,
        filled buffer' start items, rfl, ?_⟩
      · rw [hsize]
        split
        · rename_i ht
          rw [ht] at hvs'
          cases hvs'
        · rw [happend]
          dsimp only
          rw [if_pos rfl, set_set, setLength_set, Nat.add_zero]
      · rw [take_filled (Nat.le_trans (Nat.le_add_right _ _) hroom), hsame]
  | none =>
    rw [hobj] at hx
    obtain ⟨item, hitem, rfl⟩ := hx
    obtain ⟨buffer', hsize, hroom, hsame⟩ := vSetsize_eq (C := C) h hle (Nat.le_add_right start 1)
    refine ⟨w.set eo (.vector cls (start + 1) (buffer'.set start item)), ?_, _, rfl, ?_⟩
    · dsimp only [Option.bind_none]
      rw [hsize, writeIndex_eq set_object_self hitem]
      dsimp only
      rw [if_pos rfl, set_set, setLength_set]
    · show (buffer'.set start item).take (start + 1) = _
      rw [List.take_add_one, List.take_set_of_le (Nat.le_refl start), List.getElem?_set_self (by omega), hsame]
      rfl

theorem Extended.items? {w' : Heap} (h : Extended w w' eo cls items) :
    (w'.object eo).items? = some (cls, items) := by
  obtain ⟨buffer', rfl, hsame⟩ := h
  rw [set_object_self]
  show some (cls, buffer'.take items.length) = some (cls, items)
  rw [hsame]

theorem Extended.object_of_ne {w' : Heap} (h : Extended w w' eo cls items) (ho : o ≠ eo) :
    w'.object o = w.object o := by
  obtain ⟨buffer', rfl, _⟩ := h
  exact set_object_of_ne ho

/-! ## The two forms -/

theorem next_ne (hw : w.WellFormed) (h : w.object eo = .vector cls length buffer) : eo ≠ w.next := by
  rintro rfl
  rw [hw.fresh (Nat.le_refl _)] at h
  cases h

theorem fullClone_object_of_ne (ho : o ≠ w.next) : (w.fullClone eo).2.object o = w.object o :=
  Function.update_of_ne ho ..

theorem fullClone_object_next (h : w.object eo = .vector cls length buffer) :
    (w.fullClone eo).2.object w.next = .vector cls length (buffer.take length) := by
  unfold fullClone
  rw [h]
  exact set_object_self

theorem fullClone_wellFormed (hw : w.WellFormed) (h : w.object eo = .vector cls length buffer) :
    (w.fullClone eo).2.WellFormed where
  fits := by
    intro o cls' length' buffer' ho
    by_cases hn : o = w.next
    · subst hn
      rw [fullClone_object_next h] at ho
      cases ho
      rw [List.length_take, Nat.min_eq_left (hw.fits h)]
    · rw [fullClone_object_of_ne hn] at ho
      exact hw.fits ho
  fresh := by
    intro o ho
    have hn : w.next < o := ho
    rw [fullClone_object_of_ne (Nat.ne_of_gt hn)]
    exact hw.fresh (Nat.le_of_lt hn)

/-- What is appended is not the clone. -/
theorem Converts.fullClone {x : Value} (hw : w.WellFormed) (hx : Converts C w cls x items) :
    Converts C (w.fullClone eo).2 cls x items := by
  unfold Converts at hx ⊢
  cases hobj : x.obj? with
  | none =>
    rw [hobj] at hx
    exact hx
  | some o =>
    rw [hobj] at hx
    obtain ⟨vs, hvs, hitems⟩ := hx
    have hn : o ≠ w.next := by
      rintro rfl
      rw [hw.fresh (Nat.le_refl _)] at hvs
      cases hvs
    refine ⟨vs, ?_, hitems⟩
    rw [fullClone_object_of_ne hn]
    exact hvs

/-- Only an object without items converts to none. -/
theorem Converts.eq_nil_iff {x : Value} (hw : w.WellFormed) (hx : Converts C w cls x items) :
    items = [] ↔ ∃ o, x.obj? = some o ∧ (w.object o).length? = some 0 := by
  unfold Converts at hx
  cases hobj : x.obj? with
  | none =>
    rw [hobj] at hx
    obtain ⟨item, _, rfl⟩ := hx
    constructor
    · rintro ⟨⟩
    · rintro ⟨o, ⟨⟩, _⟩
  | some o =>
    rw [hobj] at hx
    obtain ⟨vs, hvs, hitems⟩ := hx
    have hlength : (w.object o).length? = some items.length := by
      rw [hw.length_eq hvs, hitems.length_eq]
    constructor
    · rintro rfl
      exact ⟨o, rfl, hlength⟩
    · rintro ⟨_, ⟨⟩, hzero⟩
      rw [hlength] at hzero
      exact List.length_eq_zero_iff.mp (Option.some.inj hzero)

/-- `v + x` makes a clone of `v`, and then appends to `v` itself. -/
theorem vAdd_extended {x : Value} (hw : w.WellFormed) (h : w.object eo = .vector cls length buffer)
    (hx : Converts C w cls x items) :
    ∃ w', w.vAdd C eo x = (.ok (.objref w.next), w') ∧
      (w'.object w.next).items? = some (cls, buffer.take length) ∧
      (w'.object eo).items? = some (cls, buffer.take length ++ items) := by
  have hne := next_ne hw h
  have h' : (w.fullClone eo).2.object eo = .vector cls length buffer := by
    rw [fullClone_object_of_ne hne]
    exact h
  obtain ⟨w', happend, hextended⟩ :=
    @vAppend_extended _ _ _ _ _ _ _ _ w.next (fullClone_wellFormed hw h) h' (hx.fullClone hw)
  refine ⟨w', ?_, ?_, hextended.items?⟩
  · show (match (w.fullClone eo).2.vAppend C eo x w.next with
      | (x, w') => if x = Xno.ok then (Except.ok (Value.objref w.next), w')
          else (Except.error x, w'.set w.next .other)) = _
    rw [happend]
    rfl
  · rw [hextended.object_of_ne (Ne.symm hne), fullClone_object_next h]
    show some (cls, (buffer.take length).take length) = _
    rw [List.take_take, Nat.min_self]

/-- The in-place form appends, also a vector to itself. -/
theorem vIpadd_extended {x : Value} (hw : w.WellFormed) (h : w.object eo = .vector cls length buffer)
    (hx : Converts C w cls x items) :
    ∃ w', w.vIpadd C eo x = (.ok (.objref eo), w') ∧ Extended w w' eo cls (buffer.take length ++ items) := by
  obtain ⟨w', happend, hextended⟩ := @vAppend_extended _ _ _ _ _ _ _ _ eo hw h hx
  refine ⟨w', ?_, hextended⟩
  unfold vIpadd
  rw [happend]
  rfl

/-- `v + x` is a new vector with the items `all` and leaves `v` as it is, and `v` is made that vector in place. -/
structure Appends (C : Conversions) (w : Heap) (eo : ObjId) (x : Value) (cls : VectorClass) (all : List Item) :
    Prop where
  add : ∃ clone w', w.vAdd C eo x = (.ok (.objref clone), w') ∧ w.object clone = .other ∧
    (w'.object clone).items? = some (cls, all) ∧ (w'.object eo).items? = (w.object eo).items?
  ipadd : ∃ w', w.vIpadd C eo x = (.ok (.objref eo), w') ∧ (w'.object eo).items? = some (cls, all)

/-- The clone does not have what was appended. -/
theorem Appends.eq_nil {x : Value} (hw : w.WellFormed) (h : w.object eo = .vector cls length buffer)
    (hx : Converts C w cls x items) (happends : Appends C w eo x cls (buffer.take length ++ items)) : items = [] := by
  obtain ⟨w', hadd, hclone, _⟩ := vAdd_extended hw h hx
  obtain ⟨clone, w'', hadd', _, hclone', _⟩ := happends.add
  rw [hadd] at hadd'
  cases hadd'
  rw [hclone] at hclone'
  have hsame : buffer.take length = buffer.take length ++ items := congrArg Prod.snd (Option.some.inj hclone')
  exact List.self_eq_append_right.mp hsame

/-- The two forms agree, and `v + x` leaves `v` as it is, only where there is nothing to append. -/
theorem appends_iff {x : Value} (hw : w.WellFormed) (h : w.object eo = .vector cls length buffer)
    (hx : Converts C w cls x items) :
    Appends C w eo x cls (buffer.take length ++ items) ↔
      ∃ o, x.obj? = some o ∧ (w.object o).length? = some 0 := by
  rw [← hx.eq_nil_iff hw]
  constructor
  · exact fun happends => happends.eq_nil hw h hx
  · rintro rfl
    obtain ⟨w', hadd, hclone, heo⟩ := vAdd_extended hw h hx
    obtain ⟨w'', hipadd, hextended⟩ := vIpadd_extended hw h hx
    rw [List.append_nil] at heo hextended ⊢
    refine ⟨⟨w.next, w', hadd, hw.fresh (Nat.le_refl _), hclone, ?_⟩, w'', hipadd, hextended.items?⟩
    rw [heo, h]
    rfl

/-- Conversions that are not asked for anything. -/
def noConversions : Conversions where
  floor _ _ := 0
  ofReal _ bits := bits
  ofInt _ v := v.setWidth 64
  toReal _ item := item
  garbage := 0

/-- A vector with the item 1, and an empty string. -/
def oneItem : Heap where
  object
    | 0 => .vector .u8 1 [1]
    | 1 => .string []
    | _ => .other
  next := 2

theorem oneItem_wellFormed : oneItem.WellFormed where
  fits := by
    intro o cls length buffer h
    match o with
    | 0 =>
      cases h
      exact Nat.le_refl 1
    | 1 | _ + 2 => cases h
  fresh := by
    intro o h
    match o with
    | 0 | 1 => exact absurd h (by decide)
    | _ + 2 => rfl

theorem appends_empty : Appends noConversions oneItem 0 (.objref 1) .u8 ([1] ++ []) := by
  have hvector : oneItem.object 0 = .vector .u8 1 [1] := rfl
  have hx : Converts noConversions oneItem .u8 (.objref 1) [] := ⟨[], rfl, .nil⟩
  exact (appends_iff oneItem_wellFormed hvector hx).mpr ⟨1, rfl, rfl⟩

theorem not_appends_number : ¬ Appends noConversions oneItem 0 (.integer 2) .u8 ([1] ++ [2]) := by
  intro h
  have hvector : oneItem.object 0 = .vector .u8 1 [1] := rfl
  have hx : Converts noConversions oneItem .u8 (.integer 2) [2] := ⟨2, rfl, rfl⟩
  cases Appends.eq_nil oneItem_wellFormed hvector hx h

end Heap

end Eel
