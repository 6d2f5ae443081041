-- SUMMARY: Stores at an index of arrays, vectors and dynamic strings, and appending, when memory can run out.
import Eel.Core.Buffer

/-!
# Indexed stores

A store behind the last item makes the object longer: it gets the room, clears what is
between, and writes the item.
-/

namespace Eel

/-- `eel_v2l`, as a `char`. -/
def Value.byte (X : Indexing) : Value → Byte
  | .boolean v | .integer v | .classid v => v.setWidth 8
  | .real bits => X.byte bits
  | .nil | .objref _ | .weakref .. => 0

/-- An operand when objects have died: a weak reference is nil then, and another reference
is of no use. -/
def Value.outlive (dead : List ObjId) : Value → Option Value
  | .objref o => if o ∈ dead then none else some (.objref o)
  | .weakref o wired => if wired ∨ o ∉ dead then some ((Value.weakref o wired).killAll dead) else none
  | v => some v

/-- What `v__append` is called with. -/
inductive Appended where
  /-- A value, or an object without a length. -/
  | value (v : Value)
  /-- The vector that is appended to. -/
  | self
  /-- Another object with a length and an `EEL_MM_GETINDEX`. -/
  | object (length : Nat) (isTable : Bool) (getindex : Nat → Except Xno Value)

/-- How many items that is, for a vector of this length. -/
def Appended.count (length : Nat) : Appended → Nat
  | value _ => 1
  | self => length
  | object n _ _ => n

namespace Buffer

variable (M : Memory) (X : Indexing) (C : Conversions)

/-! ## Arrays -/

/-- `a_set_index`, with the objects that die when the old item is disowned. -/
def aSetIndex (dead : List ObjId) (i : Int) (op2 : Value) (b : Buffer Value) : Option (Xno × Buffer Value) :=
  if b.length ≤ i then
    (CInt.check (i + 1)).bind fun length =>
    (b.aSetsize M length).bind fun r =>
    if r.1 < 0 then some (Xno.memory, r.2)
    else
      (r.2.cells.clearTo b.length i .nil).bind fun cells =>
      (cells.store i op2.copy).map fun cells => (Xno.ok, ⟨length, r.2.maxlength, cells⟩)
  else
    (b.cells.load i).bind fun _ =>
    (op2.outlive dead).bind fun v =>
    (Block.store (b.cells.map (Option.map (Value.killAll dead))) i v.copy).map fun cells =>
      (Xno.ok, { b with cells := cells })

/-- `a_setindex`. -/
def aSetindex (dead : List ObjId) (op1 op2 : Value) (b : Buffer Value) : Option (Xno × Buffer Value) :=
  match op1.index X with
  | .error x => some (x, b)
  | .ok i => if i.toInt < 0 then some (Xno.lowIndex, b) else b.aSetIndex M dead i.toInt op2

/-- `a_ipadd`, which appends. -/
def aIpadd (op1 : Value) (b : Buffer Value) : Option (Xno × Buffer Value) := b.aSetIndex M [] b.length op1

/-! ## Vectors -/

/-- `write_index`. -/
def writeIndex (cls : VectorClass) (i : Int) (v : Value) (b : Buffer Item) : Option (Xno × Buffer Item) :=
  match cls.convert C v with
  | .error x => some (x, b)
  | .ok item => (b.cells.store i item).map fun cells => (Xno.ok, { b with cells := cells })

/-- What `v_setindex` does at an index. -/
def vSetIndex (cls : VectorClass) (i : Int) (op2 : Value) (b : Buffer Item) : Option (Xno × Buffer Item) :=
  if b.length ≤ i then
    (CInt.check (i + 1)).bind fun length =>
    (b.vSetsize M cls length).bind fun r =>
    if r.1 < 0 then some (Xno.memory, r.2)
    else
      (r.2.cells.clearTo b.length i 0).bind fun cells =>
      writeIndex C cls i op2 ⟨length, r.2.maxlength, cells⟩
  else b.writeIndex C cls i op2

/-- `v_setindex`. -/
def vSetindex (cls : VectorClass) (op1 op2 : Value) (b : Buffer Item) : Option (Xno × Buffer Item) :=
  match op1.index X with
  | .error x => some (x, b)
  | .ok i => if i.toInt < 0 then some (Xno.lowIndex, b) else b.vSetIndex M C cls i.toInt op2

/-- `EEL_MM_GETINDEX` of what is appended. The vector still has its old length. -/
def getindex (cls : VectorClass) (cells : Block Item) (op1 : Appended) (i : Nat) : Option (Except Xno Value) :=
  match op1 with
  | .value _ => none
  | .self => (cells.load i).map fun item => .ok (cls.value C item)
  | .object _ _ getindex => some (getindex i)

/-- The loop of `v__append`, with `n` items to go. -/
def appendItems (cls : VectorClass) (op1 : Appended) (start i : Nat) :
    Nat → Block Item → Option (Xno × Block Item)
  | 0, cells => some (Xno.ok, cells)
  | n + 1, cells =>
    (getindex C cls cells op1 i).bind fun
      | .error x => some (x, cells)
      | .ok v =>
        match cls.convert C v with
        | .error x => some (x, cells)
        | .ok item => (cells.store (start + i : Nat) item).bind (appendItems cls op1 start (i + 1) n)

/-- `v__append`, of `n` items. -/
def vAppendItems (cls : VectorClass) (op1 : Appended) (n : Nat) (b : Buffer Item) : Option (Xno × Buffer Item) :=
  if n = 0 then some (Xno.ok, b)
  else
    (CInt.check (b.length + n)).bind fun length =>
    (b.vSetsize M cls length).bind fun r =>
    if r.1 < 0 then some (Xno.memory, r.2)
    else
      match op1 with
      | .object _ true _ => some (Xno.wrongType, r.2)
      | op1 =>
        (appendItems C cls op1 b.length.toNat 0 n r.2.cells).map fun s =>
          (s.1, ⟨if s.1 = Xno.ok then length else b.length, r.2.maxlength, s.2⟩)

/-- `v__append`. -/
def vAppend (cls : VectorClass) (op1 : Appended) (b : Buffer Item) : Option (Xno × Buffer Item) :=
  match op1 with
  | .self => b.vAppendItems M C cls op1 b.length.toNat
  | .object n _ _ => b.vAppendItems M C cls op1 n
  | .value v =>
    (CInt.check (b.length + 1)).bind fun length =>
    (b.vSetsize M cls length).bind fun r =>
    if r.1 < 0 then some (Xno.memory, r.2)
    else
      match cls.convert C v with
      | .error x => some (x, r.2)
      | .ok item => (r.2.cells.store b.length item).map fun cells => (Xno.ok, ⟨length, r.2.maxlength, cells⟩)

/-! ## Dynamic strings -/

/-- `ds_set_index`. -/
def dsSetIndex (i : Int) (op2 : Value) (b : Buffer Byte) : Option (Xno × Buffer Byte) :=
  if b.length ≤ i then
    (CInt.check (i + 2)).bind fun size =>
    (b.dsSetsize M size).bind fun r =>
    if r.1 < 0 then some (Xno.memory, r.2)
    else
      (r.2.cells.fill (b.length + 1) (r.2.maxlength - b.length - 1) 0).bind fun cells =>
      (cells.store i (op2.byte X)).map fun cells => (Xno.ok, ⟨i + 1, r.2.maxlength, cells⟩)
  else (b.cells.store i (op2.byte X)).map fun cells => (Xno.ok, { b with cells := cells })

/-- `ds_setindex`. -/
def dsSetindex (op1 op2 : Value) (b : Buffer Byte) : Option (Xno × Buffer Byte) :=
  match op1.index X with
  | .error x => some (x, b)
  | .ok i => if i.toInt < 0 then some (Xno.lowIndex, b) else b.dsSetIndex M X i.toInt op2

end Buffer

/-! ## What a store is to do -/

section Stores

variable {α : Type}

/-- The items, with padding up to `i`, and `a` there. -/
def storeItem (pad : α) (items : List α) (i : Nat) (a : α) : List α :=
  (items ++ List.replicate (i + 1 - items.length) pad).set i a

/-- A store at an index puts the item there, and keeps the others, which may be `kept`
otherwise; one that fails leaves the object as it is, and only fails when the value has no
item or there is no memory. -/
def StoresAt (Is : List α → Buffer α → Prop) (pad : α) (kept : α → α) (items : List α) (item : Except Xno α)
    (result : Option (Xno × Buffer α)) (i : Nat) : Prop :=
  ∃ x b', result = some (x, b') ∧
    (x = Xno.ok → ∃ a, item = .ok a ∧ Is (storeItem pad (items.map kept) i a) b') ∧
    (x ≠ Xno.ok → Is items b' ∧ (x = Xno.memory ∨ item = .error x))

/-- A store with an operand as index. -/
def StoresItem (Is : List α → Buffer α → Prop) (pad : α) (kept : Nat → α → α) (items : List α) (b : Buffer α)
    (item : Except Xno α) (result : Option (Xno × Buffer α)) : Except Xno (BitVec 32) → Prop :=
  AtIndex b result fun i => StoresAt Is pad (kept i) items item result i

/-- An operation comes to an end, and one that fails leaves the object as it is. -/
def KeepsOnError (Is : List α → Buffer α → Prop) (items : List α) (result : Option (Xno × Buffer α)) : Prop :=
  ∃ x b', result = some (x, b') ∧ (x ≠ Xno.ok → Is items b')

variable {Is : List α → Buffer α → Prop} {pad a : α} {kept : α → α} {items : List α} {b : Buffer α}
  {item : Except Xno α} {result : Option (Xno × Buffer α)} {i : Nat}

theorem storeItem_of_lt (h : i < items.length) : storeItem pad items i a = items.set i a := by
  unfold storeItem
  rw [Nat.sub_eq_zero_of_le h, List.replicate_zero, List.append_nil]

theorem storeItem_of_le (h : items.length ≤ i) :
    storeItem pad items i a = items ++ List.replicate (i - items.length) pad ++ [a] := by
  unfold storeItem
  have hlen : (items ++ List.replicate (i - items.length) pad).length = i := by
    rw [List.length_append, List.length_replicate]
    omega
  rw [Nat.succ_sub h, List.replicate_succ', ← List.append_assoc, List.set_append_right _ _ hlen.le, hlen, Nat.sub_self]
  rfl

theorem length_storeItem : (storeItem pad items i a).length = max items.length (i + 1) := by
  unfold storeItem
  rw [List.length_set, List.length_append, List.length_replicate]
  omega

theorem StoresAt.of_ok {b' : Buffer α} (hresult : result = some (Xno.ok, b')) (hitem : item = .ok a)
    (h : Is (storeItem pad (items.map kept) i a) b') : StoresAt Is pad kept items item result i :=
  ⟨Xno.ok, b', hresult, fun _ => ⟨a, hitem, h⟩, fun hne => absurd rfl hne⟩

theorem StoresAt.of_error {b' : Buffer α} {x : Xno} (hresult : result = some (x, b')) (hx : x ≠ Xno.ok)
    (h : Is items b') (hwhy : x = Xno.memory ∨ item = .error x) : StoresAt Is pad kept items item result i :=
  ⟨x, b', hresult, fun heq => absurd heq hx, fun _ => ⟨h, hwhy⟩⟩

theorem not_storesAt_none : ¬ StoresAt Is pad kept items item none i := by
  rintro ⟨x, b', h, -⟩
  cases h

end Stores

/-! ## Stores behind the last item -/

namespace Buffer

variable {M : Memory} {X : Indexing} {C : Conversions} {op1 op2 : Value} {i : Nat}

/-- With room for it, the gap is cleared, and the item can be put behind it. -/
theorem Keeps.storeItem {α : Type} {S : Sizing} {items : List α} {b : Buffer α} (hb : b.Keeps S items)
    (hle : items.length ≤ i) (hroom : i < b.maxlength) {l : Int} (hl : l = items.length) (pad : α) :
    ∃ cells, b.cells.clearTo l i pad = some cells ∧ (∀ length, Keeps S items ⟨length, b.maxlength, cells⟩) ∧
      ∀ a, ∃ cells', cells.store i a = some cells' ∧
        ∀ length, Keeps S (Eel.storeItem pad items i a) ⟨length, b.maxlength, cells'⟩ := by
  have hblock : i < b.cells.length := by
    rw [hb.maxlength_eq]
    exact hroom
  obtain ⟨cells, hclear, hpre, hlen⟩ := Block.clearTo_start hb.stored (k := i) hblock.le hle rfl hl pad
  have hgap : (items ++ List.replicate (i - items.length) pad).length = i := by
    rw [List.length_append, List.length_replicate]
    omega
  have hitems : items.map some <+: cells := by
    rw [List.map_append] at hpre
    exact (List.prefix_append ..).trans hpre
  refine ⟨cells, hclear, fun length => hb.replace hlen hitems, fun a => ?_⟩
  obtain ⟨cells', hstore, hpre', hlen'⟩ := Block.push_start hpre (i := i) (by rw [hgap, hlen]; exact hblock)
    (congrArg Nat.cast hgap.symm) a
  refine ⟨cells', hstore, fun length => hb.replace (hlen'.trans hlen) ?_⟩
  rw [storeItem_of_le hle]
  exact hpre'

/-! ## Arrays -/

theorem outlive_eq {dead : List ObjId} {v : Value} (h : ∀ o ∈ dead, v.obj? ≠ some o) : v.outlive dead = some v := by
  cases v with
  | objref o => exact if_neg fun hmem => h o hmem rfl
  | weakref o wired =>
    have hnot : o ∉ dead := fun hmem => h o hmem rfl
    have hsame : (Value.weakref o wired).killAll dead = .weakref o wired := by
      refine (Value.killAll_eq dead _).resolve_right ?_
      rintro ⟨⟨o', ho', heq⟩, -⟩
      obtain ⟨rfl, -⟩ := Value.weakref.inj heq
      exact hnot ho'
    show (if wired ∨ o ∉ dead then some ((Value.weakref o wired).killAll dead) else none) = _
    rw [if_pos (.inr hnot), hsame]
  | _ => rfl

/-- What is left of an operand that refers to an object that died. -/
theorem outlive_dead {dead : List ObjId} {v : Value} {o : ObjId} (ho : o ∈ dead) (h : v.obj? = some o) :
    v.outlive dead = none ∨ v.outlive dead = some .nil ∧ v.copy = .objref o := by
  cases v with
  | objref o' =>
    obtain rfl := Option.some.inj h
    exact .inl (if_pos ho)
  | weakref o' wired =>
    obtain rfl := Option.some.inj h
    cases wired with
    | false => exact .inl (if_neg fun hor => hor.elim Bool.false_ne_true fun hnot => hnot ho)
    | true =>
      refine .inr ⟨?_, rfl⟩
      show (if true ∨ o' ∉ dead then some ((Value.weakref o' true).killAll dead) else none) = _
      rw [if_pos (.inl rfl), Value.killAll_weakref ho]
  | _ => cases h

/-- A store to an array has to find memory for what is behind the last item, and must not
destroy what it stores. -/
theorem IsArray.storesAt_iff {dead : List ObjId} {items : List Value} {b : Buffer Value} (hb : b.IsArray items) :
    StoresAt IsArray .nil (if i < items.length then Value.killAll dead else id) items (.ok op2.copy)
        (b.aSetIndex M dead i op2) i ↔
      i < items.length ∧ (∀ o ∈ dead, op2.obj? ≠ some o) ∨
        items.length ≤ i ∧ CInt.InRange (i + 1) ∧ b.Answered M arraySizing (i + 1) := by
  have hlen := hb.length_eq
  unfold aSetIndex
  by_cases hlt : i < items.length
  · rw [if_pos hlt, if_neg (by omega), or_iff_left (by omega), and_iff_right hlt, Block.load_item hb.keeps.stored hlt rfl,
      Option.bind_some]
    have hkilled : (items.map (Value.killAll dead)).map some <+: b.cells.map (Option.map (Value.killAll dead)) := by
      have hpre := hb.keeps.stored.map (Option.map (Value.killAll dead))
      rw [List.map_map] at hpre ⊢
      exact hpre
    have hlt' : i < (items.map (Value.killAll dead)).length := by
      rw [List.length_map]
      exact hlt
    -- whatever is stored, the array is one with it
    have hstores : ∀ v, ∃ cells, Block.store (b.cells.map (Option.map (Value.killAll dead))) i v = some cells ∧
        IsArray (Eel.storeItem .nil (items.map (Value.killAll dead)) i v) { b with cells := cells } := by
      intro v
      obtain ⟨cells, hstore, hpre, hclen⟩ := Block.store_start hkilled hlt' rfl v
      refine ⟨cells, hstore, ?_, ?_⟩
      · rw [length_storeItem, List.length_map, Nat.max_eq_left hlt]
        exact hlen
      · rw [storeItem_of_lt hlt']
        exact hb.keeps.replace (hclen.trans (List.length_map _)) hpre
    by_cases hlives : ∀ o ∈ dead, op2.obj? ≠ some o
    · obtain ⟨cells, hstore, hb'⟩ := hstores op2.copy
      rw [outlive_eq hlives, Option.bind_some, hstore, Option.map_some]
      exact iff_of_true (.of_ok rfl rfl hb') hlives
    · refine iff_of_false ?_ hlives
      push Not at hlives
      obtain ⟨o, ho, hobj⟩ := hlives
      rcases outlive_dead ho hobj with hnone | ⟨hnil, hcopy⟩
      · rw [hnone, Option.bind_none]
        exact not_storesAt_none
      · -- nil is stored in place of the object that is gone
        obtain ⟨cells, hstore, hb'⟩ := hstores (Value.nil.copy)
        rw [hnil, Option.bind_some, hstore, Option.map_some]
        rintro ⟨x, b', h, hok, -⟩
        obtain ⟨rfl, rfl⟩ := Prod.mk.inj (Option.some.inj h)
        obtain ⟨a, ha, hb''⟩ := hok rfl
        obtain rfl := Except.ok.inj ha
        have hsame := hb'.keeps.unique hb''.keeps (by rw [length_storeItem, length_storeItem])
        have hitem : ∀ v, (Eel.storeItem .nil (items.map (Value.killAll dead)) i v)[i]? = some v := fun v => by
          rw [storeItem_of_lt hlt', List.getElem?_set_self hlt']
        have heq := congrArg (fun l => l[i]?) hsame
        simp only [hitem, hcopy] at heq
        cases heq
  · have hge : items.length ≤ i := Nat.not_lt.mp hlt
    rw [if_neg hlt, if_pos (by omega), or_iff_right (fun h => hlt h.1), and_iff_right hge]
    by_cases hrange : CInt.InRange (i + 1)
    · rw [CInt.check_eq_some.mpr ⟨hrange, rfl⟩, Option.bind_some, and_iff_right hrange]
      by_cases hrefused : b.Refused M arraySizing (i + 1)
      · rw [aSetsize_refused hrefused (by omega), Option.bind_some, if_pos (show (-1 : Int) < 0 by decide)]
        exact iff_of_true (.of_error rfl (by decide) hb (.inl rfl)) (.inr hrefused)
      by_cases hserved : b.Served M arraySizing (i + 1)
      · obtain ⟨b₁, hset, hkeeps, hroom, -⟩ := aSetsize_served hb.keeps hserved (by omega)
        obtain ⟨cells, hclear, -, hstore⟩ := hkeeps.storeItem hge (by omega) hlen .nil
        obtain ⟨cells', hstore', hkeeps'⟩ := hstore op2.copy
        rw [hset, Option.bind_some, if_neg (lt_irrefl (0 : Int)), hclear, Option.bind_some, hstore', Option.map_some]
        refine iff_of_true (.of_ok rfl rfl ?_) (.inl hserved)
        rw [List.map_id]
        refine ⟨?_, hkeeps' _⟩
        show (i : Int) + 1 = ((Eel.storeItem .nil items i op2.copy).length : Int)
        rw [length_storeItem]
        omega
      · have hnot : ¬ b.Answered M arraySizing (i + 1) := fun h => h.elim hserved hrefused
        refine iff_of_false ?_ hnot
        rcases aSetsize_unanswered hb.keeps hnot (by omega) with hnone | ⟨n, cells, hset, hsmall⟩
        · rw [hnone, Option.bind_none]
          exact not_storesAt_none
        · -- the item would be behind the block
          rw [hset, Option.bind_some, if_neg (lt_irrefl (0 : Int))]
          cases hclear : cells.clearTo b.length i .nil with
          | none => exact not_storesAt_none
          | some cells' =>
            have hclen : cells'.length = cells.length := Block.length_clearTo hclear
            rw [Option.bind_some, Block.store_none (by omega), Option.map_none]
            exact not_storesAt_none
    · rw [CInt.check_eq_none.mpr hrange, Option.bind_none]
      exact iff_of_false not_storesAt_none fun h => hrange h.1

/-! ## Vectors -/

theorem convert_error {cls : VectorClass} {v : Value} {x : Xno} (h : cls.convert C v = .error x) :
    x = Xno.wrongType := by
  cases v with
  | objref o => exact (Except.error.inj h).symm
  | weakref o w => exact (Except.error.inj h).symm
  | _ => cases cls <;> cases h

/-- A store to a vector fails when the value has no item, which must not be behind the last one. -/
theorem IsVector.storesAt_iff {cls : VectorClass} {items : List Item} {b : Buffer Item} (hb : b.IsVector cls items) :
    StoresAt (IsVector cls) 0 id items (cls.convert C op2) (b.vSetIndex M C cls i op2) i ↔
      i < items.length ∨ CInt.InRange (i + 1) ∧
        (b.Refused M cls.sizing (i + 1) ∨ b.Served M cls.sizing (i + 1) ∧ ∃ a, cls.convert C op2 = .ok a) := by
  have hlen := hb.length_eq
  unfold vSetIndex
  by_cases hlt : i < items.length
  · rw [if_neg (by omega)]
    refine iff_of_true ?_ (.inl hlt)
    unfold writeIndex
    cases hconv : cls.convert C op2 with
    | error x => exact .of_error rfl (convert_error hconv ▸ by decide) hb (.inr rfl)
    | ok a =>
      obtain ⟨cells, hstore, hpre, hclen⟩ := Block.store_start hb.keeps.stored hlt rfl a
      dsimp only
      rw [hstore, Option.map_some]
      refine .of_ok rfl rfl ?_
      rw [List.map_id, storeItem_of_lt hlt]
      exact ⟨by rw [List.length_set]; exact hlen, hb.keeps.replace hclen hpre⟩
  · have hge : items.length ≤ i := Nat.not_lt.mp hlt
    rw [if_pos (by omega), or_iff_right hlt]
    by_cases hrange : CInt.InRange (i + 1)
    · rw [CInt.check_eq_some.mpr ⟨hrange, rfl⟩, Option.bind_some, and_iff_right hrange, vSetsize]
      by_cases hrefused : b.Refused M cls.sizing (i + 1)
      · rw [setsize_refused hrefused, Option.bind_some, if_pos (show (-1 : Int) < 0 by decide)]
        exact iff_of_true (.of_error rfl (by decide) hb (.inl rfl)) (.inl hrefused)
      · rw [or_iff_right hrefused]
        by_cases hserved : b.Served M cls.sizing (i + 1)
        · obtain ⟨b₁, hset, hkeeps, hroom, -⟩ := setsize_served hb.keeps hserved (by omega)
          obtain ⟨cells, hclear, hcleared, hstore⟩ := hkeeps.storeItem hge (by omega) hlen 0
          rw [hset, Option.bind_some, if_neg (lt_irrefl (0 : Int)), hclear, Option.bind_some, and_iff_right hserved]
          unfold writeIndex
          cases hconv : cls.convert C op2 with
          | error x =>
            -- the vector is longer by now
            refine iff_of_false ?_ nofun
            rintro ⟨y, b', h, -, herror⟩
            obtain ⟨rfl, rfl⟩ := Prod.mk.inj (Option.some.inj h)
            have hsame := (herror (convert_error hconv ▸ by decide)).1.length_eq
            have hlonger : (i : Int) + 1 = items.length := hsame
            omega
          | ok a =>
            obtain ⟨cells', hstore', hkeeps'⟩ := hstore a
            dsimp only
            rw [hstore', Option.map_some]
            refine iff_of_true (.of_ok rfl rfl ?_) ⟨a, rfl⟩
            rw [List.map_id]
            refine ⟨?_, hkeeps' _⟩
            show (i : Int) + 1 = ((Eel.storeItem 0 items i a).length : Int)
            rw [length_storeItem]
            omega
        · have hnot : ¬ b.Answered M cls.sizing (i + 1) := fun h => h.elim hserved hrefused
          rw [setsize_eq_none cls.sizing_exact hb.keeps hnot, Option.bind_none]
          exact iff_of_false not_storesAt_none fun h => hserved h.1
    · rw [CInt.check_eq_none.mpr hrange, Option.bind_none]
      exact iff_of_false not_storesAt_none fun h => hrange h.1

/-! ## Dynamic strings -/

/-- A store to a dynamic string keeps its terminator. -/
theorem IsDstring.storesAt_iff {items : List Byte} {b : Buffer Byte} (hb : b.IsDstring items) :
    StoresAt IsDstring 0 id items (.ok (op2.byte X)) (b.dsSetIndex M X i op2) i ↔
      i < items.length ∨ CInt.InRange (i + 2) ∧ b.Answered M dstringSizing (i + 2) := by
  have hlen := hb.length_eq
  unfold dsSetIndex
  by_cases hlt : i < items.length
  · rw [if_neg (by omega)]
    obtain ⟨cells, hstore, hpre, hclen⟩ := Block.store_start hb.keeps.stored (k := i)
      (by rw [List.length_append]; omega) rfl (op2.byte X)
    rw [hstore, Option.map_some]
    refine iff_of_true (.of_ok rfl rfl ?_) (.inl hlt)
    rw [List.map_id, storeItem_of_lt hlt]
    refine ⟨?_, hb.keeps.replace hclen ?_⟩
    · rw [List.length_set]
      exact hlen
    · rw [List.set_append_left _ _ hlt] at hpre
      exact hpre
  · have hge : items.length ≤ i := Nat.not_lt.mp hlt
    rw [if_pos (by omega), or_iff_right hlt]
    by_cases hrange : CInt.InRange (i + 2)
    · rw [CInt.check_eq_some.mpr ⟨hrange, rfl⟩, Option.bind_some, and_iff_right hrange, dsSetsize]
      by_cases hserved : b.Served M dstringSizing (i + 2)
      · obtain ⟨b₁, hset, hkeeps, hroom, -⟩ := setsize_served hb.keeps hserved
          (by rw [List.length_append, List.length_singleton]; omega)
        -- the terminator, and then zeros up to the end of the block
        obtain ⟨k, hk⟩ : ∃ k : Nat, (b₁.maxlength : Int) - b.length - 1 = k := Int.eq_ofNat_of_zero_le (by omega)
        have hstored : ((items ++ [0]).length : Int) = b.length + 1 := by
          rw [List.length_append, List.length_singleton, hlen]
          rfl
        obtain ⟨cells, hfill, hpre, hclen⟩ := Block.fill_start hkeeps.stored (k := k)
          (by rw [hkeeps.maxlength_eq]; omega) hstored.symm hk (0 : Byte)
        have hzeros : items ++ List.replicate (i + 1 - items.length) 0 ++ [0] <+:
            items ++ [0] ++ List.replicate k (0 : Byte) := by
          rw [List.append_assoc, List.append_assoc, List.prefix_append_right_inj, ← List.replicate_succ']
          obtain ⟨r, hr⟩ : ∃ r, k + 1 = i + 1 - items.length + 1 + r := Nat.exists_eq_add_of_le (by omega)
          refine ⟨List.replicate r 0, ?_⟩
          rw [List.replicate_append_replicate, ← hr]
          rfl
        obtain ⟨cells', hstore, hpre', hclen'⟩ := Block.store_start ((hzeros.map some).trans hpre) (k := i)
          (by simp only [List.length_append, List.length_replicate, List.length_singleton]; omega) rfl (op2.byte X)
        rw [hset, Option.bind_some, if_neg (lt_irrefl (0 : Int)), hfill, Option.bind_some, hstore, Option.map_some]
        refine iff_of_true (.of_ok rfl rfl ?_) (.inl hserved)
        rw [List.map_id]
        refine ⟨?_, hkeeps.replace (hclen'.trans hclen) ?_⟩
        · show (i : Int) + 1 = ((storeItem 0 items i (op2.byte X)).length : Int)
          rw [length_storeItem]
          omega
        · rw [List.set_append_left _ _ (by rw [List.length_append, List.length_replicate]; omega)] at hpre'
          exact hpre'
      · by_cases hrefused : b.Refused M dstringSizing (i + 2)
        · rw [setsize_refused hrefused, Option.bind_some, if_pos (show (-1 : Int) < 0 by decide)]
          exact iff_of_true (.of_error rfl (by decide) hb (.inl rfl)) (.inr hrefused)
        · have hnot : ¬ b.Answered M dstringSizing (i + 2) := fun h => h.elim hserved hrefused
          rw [setsize_eq_none dstringSizing_exact hb.keeps hnot, Option.bind_none]
          exact iff_of_false not_storesAt_none hnot
    · rw [CInt.check_eq_none.mpr hrange, Option.bind_none]
      exact iff_of_false not_storesAt_none fun h => hrange h.1

/-! ## Appending -/

theorem IsArray.aIpadd_keeps {items : List Value} {b : Buffer Value} (hb : b.IsArray items) :
    KeepsOnError IsArray items (b.aIpadd M op1) := by
  have hfits : 16 * b.maxlength < 2 ^ 31 := hb.keeps.fits
  have hle := hb.keeps.length_le
  have hstores : StoresAt IsArray .nil (if items.length < items.length then Value.killAll [] else id) items
      (.ok op1.copy) (b.aSetIndex M [] items.length op1) items.length :=
    hb.storesAt_iff.mpr (.inr ⟨Nat.le_refl _, ⟨by omega, by omega⟩, answered_succ hb.keeps (by omega)⟩)
  unfold aIpadd
  rw [hb.length_eq]
  obtain ⟨x, b', hresult, -, herror⟩ := hstores
  exact ⟨x, b', hresult, fun hx => (herror hx).1⟩

section Vectors

variable {cls : VectorClass} {items : List Item} {b : Buffer Item} {cells : Block Item} {op : Appended} {n : Nat}

/-- The loop only writes behind the items. -/
theorem appendItems_spec (h : items.map some <+: cells) (hroom : items.length + i + n ≤ cells.length)
    (hread : ∀ k (cells : Block Item), k < i + n → items.map some <+: cells →
      ∃ r, getindex C cls cells op k = some r) :
    ∃ x cells', appendItems C cls op items.length i n cells = some (x, cells') ∧ items.map some <+: cells' ∧
      cells'.length = cells.length := by
  induction n generalizing i cells with
  | zero => exact ⟨Xno.ok, cells, rfl, h, rfl⟩
  | succ n ih =>
    obtain ⟨r, hr⟩ := hread i cells (by omega) h
    unfold appendItems
    rw [hr, Option.bind_some]
    cases r with
    | error x => exact ⟨x, cells, rfl, h, rfl⟩
    | ok v =>
      dsimp only
      cases hconv : cls.convert C v with
      | error x => exact ⟨x, cells, rfl, h, rfl⟩
      | ok item =>
        obtain ⟨cells₁, hstore, hpre, hlen⟩ := Block.store_behind h (k := items.length + i) (by omega) (by omega) rfl
          item
        dsimp only
        rw [hstore, Option.bind_some]
        obtain ⟨x, cells', happ, hpre', hlen'⟩ := ih hpre (i := i + 1) (by omega) fun k cells hk =>
          hread k cells (by omega)
        exact ⟨x, cells', happ, hpre', hlen'.trans hlen⟩

/-- Appending an object's items fails before the length is set. -/
theorem IsVector.vAppendItems_iff (hb : b.IsVector cls items)
    (hread : ∀ k (cells : Block Item), k < n → items.map some <+: cells → ∃ r, getindex C cls cells op k = some r) :
    KeepsOnError (IsVector cls) items (b.vAppendItems M C cls op n) ↔
      n = 0 ∨ CInt.InRange (b.length + n) ∧ b.Answered M cls.sizing (b.length + n) := by
  have hlen := hb.length_eq
  unfold vAppendItems
  by_cases hzero : n = 0
  · rw [if_pos hzero]
    exact iff_of_true ⟨Xno.ok, b, rfl, fun h => absurd rfl h⟩ (.inl hzero)
  rw [if_neg hzero, or_iff_right hzero]
  by_cases hrange : CInt.InRange (b.length + n)
  · rw [CInt.check_eq_some.mpr ⟨hrange, rfl⟩, Option.bind_some, and_iff_right hrange, vSetsize]
    by_cases hrefused : b.Refused M cls.sizing (b.length + n)
    · rw [setsize_refused hrefused, Option.bind_some, if_pos (show (-1 : Int) < 0 by decide)]
      exact iff_of_true ⟨_, b, rfl, fun _ => hb⟩ (.inr hrefused)
    by_cases hserved : b.Served M cls.sizing (b.length + n)
    · refine iff_of_true ?_ (.inl hserved)
      obtain ⟨b₁, hset, hkeeps, hroom, hlen₁⟩ := setsize_served hb.keeps hserved (by omega)
      rw [hset, Option.bind_some, if_neg (lt_irrefl (0 : Int))]
      obtain ⟨x, cells, happ, hpre, hclen⟩ := appendItems_spec (i := 0) (n := n) hkeeps.stored
        (by rw [hkeeps.maxlength_eq]; omega) fun k cells hk => hread k cells (by omega)
      have hloop : KeepsOnError (IsVector cls) items ((appendItems C cls op b.length.toNat 0 n b₁.cells).map fun s =>
          (s.1, ⟨if s.1 = Xno.ok then b.length + n else b.length, b₁.maxlength, s.2⟩)) := by
        rw [hlen, Int.toNat_natCast, happ, Option.map_some]
        refine ⟨x, _, rfl, fun hx => ⟨?_, hkeeps.replace hclen hpre⟩⟩
        rw [if_neg hx]
      cases op with
      | object len isTable getindex =>
        cases isTable with
        | true => exact ⟨_, b₁, rfl, fun _ => ⟨hlen₁.trans hlen, hkeeps⟩⟩
        | false => exact hloop
      | value v => exact hloop
      | self => exact hloop
    · have hnot : ¬ b.Answered M cls.sizing (b.length + n) := fun h => h.elim hserved hrefused
      rw [setsize_eq_none cls.sizing_exact hb.keeps hnot, Option.bind_none]
      exact iff_of_false (fun ⟨_, _, h, _⟩ => nomatch h) hnot
  · rw [CInt.check_eq_none.mpr hrange, Option.bind_none]
    exact iff_of_false (fun ⟨_, _, h, _⟩ => nomatch h) fun h => hrange h.1

/-- Appending to a vector leaves it as it is when it fails, unless the new size overflows. -/
theorem IsVector.vAppend_iff (hb : b.IsVector cls items) :
    KeepsOnError (IsVector cls) items (b.vAppend M C cls op) ↔
      op.count items.length = 0 ∨ CInt.InRange (b.length + op.count items.length) ∧
        b.Answered M cls.sizing (b.length + op.count items.length) := by
  have hlen := hb.length_eq
  cases op with
  | object n isTable getindex => exact hb.vAppendItems_iff fun k cells _ _ => ⟨_, rfl⟩
  | self =>
    have hn : b.length.toNat = items.length := by
      rw [hlen, Int.toNat_natCast]
    unfold vAppend
    rw [hn]
    refine hb.vAppendItems_iff fun k cells hk hpre => ?_
    unfold getindex
    rw [Block.load_item hpre hk rfl]
    exact ⟨_, rfl⟩
  | value v =>
    show _ ↔ 1 = 0 ∨ CInt.InRange (b.length + 1) ∧ b.Answered M cls.sizing (b.length + 1)
    rw [or_iff_right Nat.one_ne_zero]
    unfold vAppend
    by_cases hrange : CInt.InRange (b.length + 1)
    · dsimp only
      rw [CInt.check_eq_some.mpr ⟨hrange, rfl⟩, Option.bind_some, and_iff_right hrange, vSetsize]
      by_cases hrefused : b.Refused M cls.sizing (b.length + 1)
      · rw [setsize_refused hrefused, Option.bind_some, if_pos (show (-1 : Int) < 0 by decide)]
        exact iff_of_true ⟨_, b, rfl, fun _ => hb⟩ (.inr hrefused)
      by_cases hserved : b.Served M cls.sizing (b.length + 1)
      · refine iff_of_true ?_ (.inl hserved)
        obtain ⟨b₁, hset, hkeeps, hroom, hlen₁⟩ := setsize_served hb.keeps hserved (by omega)
        rw [hset, Option.bind_some, if_neg (lt_irrefl (0 : Int))]
        cases hconv : cls.convert C v with
        | error x => exact ⟨x, b₁, rfl, fun _ => ⟨hlen₁.trans hlen, hkeeps⟩⟩
        | ok item =>
          obtain ⟨cells, hstore, -, -⟩ := Block.push_start hkeeps.stored (i := b.length)
            (by rw [hkeeps.maxlength_eq]; omega) hlen item
          dsimp only
          rw [hstore]
          exact ⟨Xno.ok, _, rfl, fun h => absurd rfl h⟩
      · have hnot : ¬ b.Answered M cls.sizing (b.length + 1) := fun h => h.elim hserved hrefused
        rw [setsize_eq_none cls.sizing_exact hb.keeps hnot, Option.bind_none]
        exact iff_of_false (fun ⟨_, _, h, _⟩ => nomatch h) hnot
    · dsimp only
      rw [CInt.check_eq_none.mpr hrange, Option.bind_none]
      exact iff_of_false (fun ⟨_, _, h, _⟩ => nomatch h) fun h => hrange h.1

end Vectors

/-! ## All sequences -/

theorem IsArray.setindex_iff {dead : List ObjId} {items : List Value} {b : Buffer Value} (hb : b.IsArray items) :
    StoresItem IsArray .nil (fun i => if i < items.length then Value.killAll dead else id) items b (.ok op2.copy)
        (b.aSetindex M X dead op1 op2) (op1.index X) ↔
      ∀ i (k : Nat), op1.index X = .ok i → i.toInt = k →
        k < items.length ∧ (∀ o ∈ dead, op2.obj? ≠ some o) ∨
          items.length ≤ k ∧ CInt.InRange (k + 1) ∧ b.Answered M arraySizing (k + 1) := by
  unfold aSetindex
  refine atIndex_iff (fun x hx => ?_) (fun i hi hneg => ?_) fun i k hi hk => ?_
  · rw [hx, Value.index_error hx]
    exact ⟨by decide, rfl⟩
  · rw [hi]
    exact if_pos hneg
  · have hnonneg : ¬ i.toInt < 0 := by
      omega
    rw [hi]
    dsimp only
    rw [if_neg hnonneg, hk]
    exact hb.storesAt_iff

theorem IsVector.setindex_iff {cls : VectorClass} {items : List Item} {b : Buffer Item} (hb : b.IsVector cls items) :
    StoresItem (IsVector cls) 0 (fun _ => id) items b (cls.convert C op2) (b.vSetindex M X C cls op1 op2)
        (op1.index X) ↔
      ∀ i (k : Nat), op1.index X = .ok i → i.toInt = k →
        k < items.length ∨ CInt.InRange (k + 1) ∧
          (b.Refused M cls.sizing (k + 1) ∨ b.Served M cls.sizing (k + 1) ∧ ∃ a, cls.convert C op2 = .ok a) := by
  unfold vSetindex
  refine atIndex_iff (fun x hx => ?_) (fun i hi hneg => ?_) fun i k hi hk => ?_
  · rw [hx, Value.index_error hx]
    exact ⟨by decide, rfl⟩
  · rw [hi]
    exact if_pos hneg
  · have hnonneg : ¬ i.toInt < 0 := by
      omega
    rw [hi]
    dsimp only
    rw [if_neg hnonneg, hk]
    exact hb.storesAt_iff

theorem IsDstring.setindex_iff {items : List Byte} {b : Buffer Byte} (hb : b.IsDstring items) :
    StoresItem IsDstring 0 (fun _ => id) items b (.ok (op2.byte X)) (b.dsSetindex M X op1 op2) (op1.index X) ↔
      ∀ i (k : Nat), op1.index X = .ok i → i.toInt = k →
        k < items.length ∨ CInt.InRange (k + 2) ∧ b.Answered M dstringSizing (k + 2) := by
  unfold dsSetindex
  refine atIndex_iff (fun x hx => ?_) (fun i hi hneg => ?_) fun i k hi hk => ?_
  · rw [hx, Value.index_error hx]
    exact ⟨by decide, rfl⟩
  · rw [hi]
    exact if_pos hneg
  · have hnonneg : ¬ i.toInt < 0 := by
      omega
    rw [hi]
    dsimp only
    rw [if_neg hnonneg, hk]
    exact hb.storesAt_iff

/-- When stores at an index, and appending, do what they are to do. -/
theorem stores_iff (M : Memory) (X : Indexing) (C : Conversions) (op1 op2 : Value) :
    (∀ dead items b, IsArray items b →
      (StoresItem IsArray .nil (fun i => if i < items.length then Value.killAll dead else id) items b (.ok op2.copy)
          (b.aSetindex M X dead op1 op2) (op1.index X) ↔
        ∀ i (k : Nat), op1.index X = .ok i → i.toInt = k →
          k < items.length ∧ (∀ o ∈ dead, op2.obj? ≠ some o) ∨
            items.length ≤ k ∧ CInt.InRange (k + 1) ∧ b.Answered M arraySizing (k + 1)) ∧
      KeepsOnError IsArray items (b.aIpadd M op2)) ∧
    (∀ cls items b, IsVector cls items b →
      (StoresItem (IsVector cls) 0 (fun _ => id) items b (cls.convert C op2) (b.vSetindex M X C cls op1 op2)
          (op1.index X) ↔
        ∀ i (k : Nat), op1.index X = .ok i → i.toInt = k →
          k < items.length ∨ CInt.InRange (k + 1) ∧
            (b.Refused M cls.sizing (k + 1) ∨ b.Served M cls.sizing (k + 1) ∧ ∃ a, cls.convert C op2 = .ok a)) ∧
      ∀ op, KeepsOnError (IsVector cls) items (b.vAppend M C cls op) ↔
        op.count items.length = 0 ∨ CInt.InRange (b.length + op.count items.length) ∧
          b.Answered M cls.sizing (b.length + op.count items.length)) ∧
    ∀ items b, IsDstring items b →
      (StoresItem IsDstring 0 (fun _ => id) items b (.ok (op2.byte X)) (b.dsSetindex M X op1 op2) (op1.index X) ↔
        ∀ i (k : Nat), op1.index X = .ok i → i.toInt = k →
          k < items.length ∨ CInt.InRange (k + 2) ∧ b.Answered M dstringSizing (k + 2)) :=
  ⟨fun _ _ _ hb => ⟨hb.setindex_iff, hb.aIpadd_keeps⟩, fun _ _ _ hb => ⟨hb.setindex_iff, fun _ => hb.vAppend_iff⟩,
    fun _ _ hb => hb.setindex_iff⟩

/-- A vector of one item, in a block that had two. -/
def shortVector : Buffer Item := ⟨1, 8, [some 7, some 8, none, none, none, none, none, none]⟩

theorem shortVector_isVector : shortVector.IsVector .u8 [7] := ⟨rfl, rfl, by decide, ⟨_, rfl⟩⟩

/-- A number is stored behind the item. -/
theorem stores_second :
    let X : Indexing := ⟨fun _ => 0, fun _ _ => 0, fun _ => 0⟩
    let C : Conversions := ⟨fun _ _ => 0, fun _ _ => 0, fun _ _ => 0, fun _ _ => 0, 0⟩
    StoresItem (IsVector .u8) 0 (fun _ => id) [7] shortVector (VectorClass.u8.convert C (.integer 5))
      (shortVector.vSetindex .ample X C .u8 (.integer 1) (.integer 5)) (Value.index X (.integer 1)) := by
  intro X C
  refine ((stores_iff .ample X C (.integer 1) (.integer 5)).2.1 .u8 _ _ shortVector_isVector).1.mpr ?_
  intro i k hi hk
  obtain rfl := Except.ok.inj hi
  have hone : (1 : Int) = k := hk
  obtain rfl : k = 1 := by
    omega
  exact .inr ⟨by decide, .inr ⟨⟨8, rfl, .inl rfl⟩, 5, rfl⟩⟩

/-- A reference cannot be stored in a vector, but makes it longer. -/
theorem not_stores_reference :
    let X : Indexing := ⟨fun _ => 0, fun _ _ => 0, fun _ => 0⟩
    let C : Conversions := ⟨fun _ _ => 0, fun _ _ => 0, fun _ _ => 0, fun _ _ => 0, 0⟩
    let result := shortVector.vSetindex .ample X C .u8 (.integer 1) (.objref 1)
    shortVector.IsVector .u8 [7] ∧ result = some (Xno.wrongType, { shortVector with length := 2 }) ∧
      ¬ StoresItem (IsVector .u8) 0 (fun _ => id) [7] shortVector (VectorClass.u8.convert C (.objref 1)) result
        (Value.index X (.integer 1)) := by
  intro X C result
  have hresult : result = some (Xno.wrongType, { shortVector with length := 2 }) := rfl
  refine ⟨shortVector_isVector, hresult, ?_⟩
  rw [hresult]
  rintro ⟨x, b', h, -, herror⟩
  obtain ⟨rfl, rfl⟩ := Prod.mk.inj (Option.some.inj h)
  exact absurd (herror (by decide)).1.length_eq (by decide)

end Buffer

end Eel
