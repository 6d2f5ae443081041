-- SUMMARY: Stores of tables and of finite maps, and the refinement of runs of table operations by runs on maps.
import Eel.Core.TableMap

/-!
# Runs of table operations

The operations act on a store of tables, so that one table can be both operands
of an addition. The same operations on a store of finite maps say what they are
for.
-/

namespace Eel

/-! ## Stores of tables -/

/-- The table objects. `next` is where `eel_o_alloc` puts the next object. -/
structure TableStore where
  table : ObjId → Option Table
  next : ObjId

inductive TableOp where
  | construct
  | setIndex (eo : ObjId) (op1 op2 : Value)
  | insert (eo : ObjId) (op1 op2 : Value)
  | delete (eo : ObjId) (op1 op2 : Option Value)
  | ipAdd (eo : ObjId) (op1 : Value)
  | add (eo : ObjId) (op1 : Value)
  | clone (eo : ObjId)
  /-- Object `o` is destroyed, as a consequence of whatever disowned it. -/
  | destroyed (o : ObjId)

/-- The keys an operation is given are plain. -/
def TableOp.PlainKeys (O : Objects) : TableOp → Prop
  | .setIndex _ op1 _ | .insert _ op1 _ => op1.PlainKey O
  | .delete _ op1 _ => ∀ k ∈ op1, k.PlainKey O
  | _ => True

namespace TableStore

def empty : TableStore := ⟨fun _ => none, 0⟩

def put (s : TableStore) (eo : ObjId) (t : Table) : TableStore :=
  { s with table := Function.update s.table eo (some t) }

/-- `eel_o_alloc` of a table. -/
def alloc (s : TableStore) (t : Table) : TableStore :=
  { s.put s.next t with next := s.next + 1 }

/-- `insert_items` from item `i` of `src` on, with `c` items to go. The source is
read again each time around, since it can be the table being changed. -/
def insertItems (O : Objects) (s : TableStore) (eo src : ObjId) (i : Nat) : Nat → TableStore
  | 0 => s
  | c + 1 =>
    match s.table eo, s.table src with
    | some t, some t' =>
      let sti := t'.items i
      (s.put eo (t.setIndex O sti.key sti.value)).insertItems O eo src (i + 1) c
    | _, _ => s

/-- The table a value refers to, if `EEL_CLASS` says it is one. -/
def operand (s : TableStore) (op : Value) : Option (ObjId × Table) :=
  match op.obj? with
  | none => none
  | some o => (s.table o).map fun t => (o, t)

/-- One operation. It answers with its result value, or with an exception; nil
where the operation has no result. -/
def step (O : Objects) (s : TableStore) (op : TableOp) : Except Xno Value × TableStore :=
  match op with
  | .construct => (.ok (.objref s.next), s.alloc .empty)
  | .setIndex eo op1 op2 =>
    match s.table eo with
    | none => (.error .wrongType, s)
    | some t => (.ok .nil, s.put eo (t.setIndex O op1 op2))
  | .insert eo op1 op2 =>
    match s.table eo with
    | none => (.error .wrongType, s)
    | some t =>
      match t.insert O op1 op2 with
      | .error x => (.error x, s)
      | .ok t' => (.ok .nil, s.put eo t')
  | .delete eo op1 op2 =>
    match s.table eo with
    | none => (.error .wrongType, s)
    | some t =>
      match t.delete O op1 op2 with
      | .error x => (.error x, s)
      | .ok t' => (.ok .nil, s.put eo t')
  | .ipAdd eo op1 =>
    match s.table eo, s.operand op1 with
    | some _, some (src, t') => (.ok (.objref eo), s.insertItems O eo src 0 t'.length)
    | _, _ => (.error .wrongType, s)
  | .add eo op1 =>
    match s.table eo, s.operand op1 with
    | some t, some (src, t') =>
      (.ok (.objref s.next), (s.alloc t.clone).insertItems O s.next src 0 t'.length)
    | _, _ => (.error .wrongType, s)
  | .clone eo =>
    match s.table eo with
    | none => (.error .wrongType, s)
    | some t => (.ok (.objref s.next), s.alloc t.clone)
  | .destroyed o =>
    (.ok .nil, { s with table := fun eo =>
      if eo = o then none else (s.table eo).map (Table.killWeakrefs o) })

end TableStore

/-! ## Stores of maps -/

/-- What a store of tables stands for. -/
structure MapStore where
  map : ObjId → Option FiniteMap
  next : ObjId

namespace MapStore

def empty : MapStore := ⟨fun _ => none, 0⟩

def put (s : MapStore) (eo : ObjId) (m : FiniteMap) : MapStore :=
  { s with map := Function.update s.map eo (some m) }

def alloc (s : MapStore) (m : FiniteMap) : MapStore :=
  { s.put s.next m with next := s.next + 1 }

def operand (s : MapStore) (op : Value) : Option FiniteMap :=
  match op.obj? with
  | none => none
  | some o => s.map o

/-- What one operation means. -/
def step (s : MapStore) (op : TableOp) : Except Xno Value × MapStore :=
  match op with
  | .construct => (.ok (.objref s.next), s.alloc .empty)
  | .setIndex eo op1 op2 =>
    match s.map eo with
    | none => (.error .wrongType, s)
    | some m => (.ok .nil, s.put eo (m.set op1 op2.copy))
  | .insert eo op1 op2 =>
    match s.map eo with
    | none => (.error .wrongType, s)
    | some m =>
      match m op1 with
      | some _ => (.error .wrongIndex, s)
      | none => (.ok .nil, s.put eo (m.set op1 op2.copy))
  | .delete eo op1 op2 =>
    match s.map eo, op1, op2 with
    | none, _, _ => (.error .wrongType, s)
    | some _, _, some _ => (.error .wrongIndex, s)
    | some _, none, none => (.ok .nil, s.put eo .empty)
    | some m, some k, none =>
      match m k with
      | none => (.error .wrongIndex, s)
      | some _ => (.ok .nil, s.put eo (m.unset k))
  | .ipAdd eo op1 =>
    match s.map eo, s.operand op1 with
    | some m, some n => (.ok (.objref eo), s.put eo (m.union n))
    | _, _ => (.error .wrongType, s)
  | .add eo op1 =>
    match s.map eo, s.operand op1 with
    | some m, some n =>
      (.ok (.objref s.next), s.alloc (FiniteMap.union (fun k => (m k).map Value.clone) n))
    | _, _ => (.error .wrongType, s)
  | .clone eo =>
    match s.map eo with
    | none => (.error .wrongType, s)
    | some m => (.ok (.objref s.next), s.alloc fun k => (m k).map Value.clone)
  | .destroyed o =>
    (.ok .nil, { s with map := fun eo =>
      if eo = o then none else (s.map eo).map fun m k => (m k).map (Value.kill o) })

end MapStore

/-! ## Refinement -/

/-- Nothing, on both sides, or a table and the map it represents. -/
inductive Table.RepresentsOpt (O : Objects) : Option Table → Option FiniteMap → Prop
  | none : RepresentsOpt O none none
  | some {t : Table} {m : FiniteMap} : t.Represents O m → RepresentsOpt O (some t) (some m)

namespace TableStore

/-- Each table of the store represents the map of the same object, and nothing
is where the next object goes. -/
structure Refines (O : Objects) (s : TableStore) (a : MapStore) : Prop where
  tables : ∀ o, Table.RepresentsOpt O (s.table o) (a.map o)
  next_eq : s.next = a.next
  fresh : ∀ o, s.next ≤ o → s.table o = none

variable {O : Objects} {s : TableStore} {a : MapStore}

theorem Refines.empty : Refines O empty MapStore.empty :=
  ⟨fun _ => .none, rfl, fun _ _ => rfl⟩

theorem Refines.lt_next (h : s.Refines O a) {o : ObjId} {t : Table} (ht : s.table o = some t) :
    o < s.next := by
  by_contra hle
  rw [h.fresh o (Nat.not_lt.mp hle)] at ht
  cases ht

/-- A table of the store and its map. -/
theorem Refines.of_table (h : s.Refines O a) {o : ObjId} {t : Table}
    (ht : s.table o = some t) : ∃ m, a.map o = some m ∧ t.Represents O m := by
  have hr := h.tables o
  rw [ht] at hr
  generalize a.map o = om at hr
  cases hr with
  | some hrep => exact ⟨_, rfl, hrep⟩

theorem Refines.of_not_table (h : s.Refines O a) {o : ObjId} (ht : s.table o = none) :
    a.map o = none := by
  have hr := h.tables o
  rw [ht] at hr
  generalize a.map o = om at hr
  cases hr
  rfl

theorem Refines.put (h : s.Refines O a) {eo : ObjId} (hlt : eo < s.next) {t : Table}
    {m : FiniteMap} (hrep : t.Represents O m) : (s.put eo t).Refines O (a.put eo m) where
  tables o := by
    by_cases ho : o = eo
    · subst ho
      simpa [TableStore.put, MapStore.put] using .some hrep
    · simpa [TableStore.put, MapStore.put, ho] using h.tables o
  next_eq := h.next_eq
  fresh o ho := by
    have hne : o ≠ eo := Nat.ne_of_gt (Nat.lt_of_lt_of_le hlt ho)
    simpa [TableStore.put, hne] using h.fresh o ho

theorem Refines.alloc (h : s.Refines O a) {t : Table} {m : FiniteMap}
    (hrep : t.Represents O m) : (s.alloc t).Refines O (a.alloc m) where
  tables o := by
    by_cases ho : o = s.next
    · subst ho
      simpa [TableStore.alloc, MapStore.alloc, TableStore.put, MapStore.put, ← h.next_eq]
        using .some hrep
    · simpa [TableStore.alloc, MapStore.alloc, TableStore.put, MapStore.put, ← h.next_eq, ho]
        using h.tables o
  next_eq := by simp only [TableStore.alloc, MapStore.alloc, h.next_eq]
  fresh o ho := by
    have hlt : s.next < o := ho
    simpa [TableStore.alloc, TableStore.put, Nat.ne_of_gt hlt] using
      h.fresh o (Nat.le_of_lt hlt)

/-- The operand of an addition, as a table and as a map. -/
theorem Refines.operand (h : s.Refines O a) (op : Value) :
    (s.operand op = none ∧ a.operand op = none) ∨
      ∃ src t n, s.operand op = some (src, t) ∧ a.operand op = some n ∧
        s.table src = some t ∧ t.Represents O n := by
  unfold TableStore.operand MapStore.operand
  cases op.obj? with
  | none => exact .inl ⟨rfl, rfl⟩
  | some o =>
    cases ht : s.table o with
    | none => exact .inl ⟨by simp [ht], by simp [h.of_not_table ht]⟩
    | some t =>
      obtain ⟨m, hm, hrep⟩ := h.of_table ht
      exact .inr ⟨o, t, m, by simp [ht], by simp [hm], ht, hrep⟩

/-! ### Adding the items of a table -/

@[simp] theorem put_table_self (s : TableStore) (eo : ObjId) (t : Table) :
    (s.put eo t).table eo = some t := by simp [put]

theorem put_table_ne (s : TableStore) {eo o : ObjId} (t : Table) (h : o ≠ eo) :
    (s.put eo t).table o = s.table o := by simp [put, h]

theorem put_put (s : TableStore) (eo : ObjId) (t t' : Table) :
    (s.put eo t).put eo t' = s.put eo t' := by simp [put]

/-- `insert_items` sets the items it goes over, in order. When the source is the
table being changed, setting one item leaves the items still to come alone. -/
theorem insertItems_represents {eo src : ObjId} {t t' : Table} {m : FiniteMap}
    (ht : s.table eo = some t) (ht' : s.table src = some t') (hrep : t.Represents O m)
    (hinv : t'.Inv O) {i c : Nat} (hc : i + c = t'.length) :
    ∃ r, s.insertItems O eo src i c = s.put eo r ∧
      r.Represents O (m.setItems t'.items i c) := by
  induction c generalizing s t t' m i with
  | zero =>
    refine ⟨t, ?_, hrep⟩
    rw [insertItems, put, ← ht, Function.update_eq_self]
  | succ c ih =>
    have hi : i < t'.length := by omega
    have hset := hrep.setIndex (t'.items i).value (hinv.plain i hi)
    rw [insertItems]
    simp only [ht, ht']
    by_cases hsrc : src = eo
    · subst hsrc
      obtain rfl : t = t' := Option.some.inj (ht.symm.trans ht')
      rw [hinv.setIndex_self hi] at hset ⊢
      obtain ⟨r, hr, hrr⟩ := ih (put_table_self ..) (put_table_self ..) hset
        (hinv.setValue i _) (i := i + 1) (by simp only [Table.setValue]; omega)
      refine ⟨r, by rw [hr, put_put], ?_⟩
      rw [FiniteMap.setItems]
      refine (FiniteMap.setItems_congr fun j hj => ?_) ▸ hrr
      have hne : j ≠ i := by omega
      simp [Table.setValue, hne]
    · obtain ⟨r, hr, hrr⟩ := ih (put_table_self ..)
        ((put_table_ne s _ hsrc).trans ht') hset hinv (i := i + 1) (by omega)
      exact ⟨r, by rw [hr, put_put], hrr⟩

/-- Setting every item of a table is taking the union with its map. -/
theorem setItems_eq_union {t : Table} {m n : FiniteMap} (hrep : t.Represents O n) :
    m.setItems t.items 0 t.length = m.union n := by
  funext k
  rw [FiniteMap.union]
  cases hn : n k with
  | none =>
    refine FiniteMap.setItems_of_absent fun j _ hj heq => ?_
    rw [← heq, hrep.key_at (by omega)] at hn
    cases hn
  | some v =>
    obtain ⟨j, hj, rfl, rfl⟩ := (hrep.entries k v).mpr hn
    exact FiniteMap.setItems_of_mem hrep.inv.unique (by omega) (Nat.zero_le j) (by omega)

theorem insertItems_union {eo src : ObjId} {t t' : Table} {m n : FiniteMap}
    (ht : s.table eo = some t) (ht' : s.table src = some t') (hrep : t.Represents O m)
    (hrep' : t'.Represents O n) :
    ∃ r, s.insertItems O eo src 0 t'.length = s.put eo r ∧ r.Represents O (m.union n) := by
  obtain ⟨r, hr, hrr⟩ :=
    insertItems_represents ht ht' hrep hrep'.inv (Nat.zero_add t'.length)
  exact ⟨r, hr, setItems_eq_union hrep' ▸ hrr⟩

/-! ### Steps and runs -/

/-- An operation on tables does what the operation on maps does. -/
theorem Refines.step (h : s.Refines O a) {op : TableOp} (hop : op.PlainKeys O) :
    (s.step O op).1 = (a.step op).1 ∧ (s.step O op).2.Refines O (a.step op).2 := by
  cases op with
  | construct => exact ⟨by rw [TableStore.step, MapStore.step, h.next_eq], h.alloc .empty⟩
  | setIndex eo op1 op2 =>
    cases ht : s.table eo with
    | none => simpa [TableStore.step, MapStore.step, ht, h.of_not_table ht] using h
    | some t =>
      obtain ⟨m, hm, hrep⟩ := h.of_table ht
      simpa [TableStore.step, MapStore.step, ht, hm] using
        h.put (h.lt_next ht) (hrep.setIndex op2 hop)
  | insert eo op1 op2 =>
    cases ht : s.table eo with
    | none => simpa [TableStore.step, MapStore.step, ht, h.of_not_table ht] using h
    | some t =>
      obtain ⟨m, hm, hrep⟩ := h.of_table ht
      rcases hrep.insert op2 hop with ⟨v, hk, hins⟩ | ⟨t', hk, hins, hrep'⟩
      · simpa [TableStore.step, MapStore.step, ht, hm, hk, hins] using h
      · simpa [TableStore.step, MapStore.step, ht, hm, hk, hins] using
          h.put (h.lt_next ht) hrep'
  | delete eo op1 op2 =>
    cases ht : s.table eo with
    | none => simpa [TableStore.step, MapStore.step, ht, h.of_not_table ht] using h
    | some t =>
      obtain ⟨m, hm, hrep⟩ := h.of_table ht
      cases op2 with
      | some _ => simpa [TableStore.step, MapStore.step, ht, hm, Table.delete] using h
      | none =>
        cases op1 with
        | none =>
          simpa [TableStore.step, MapStore.step, ht, hm, Table.delete] using
            h.put (h.lt_next ht) (Table.Represents.deleteAll t)
        | some k =>
          rcases hrep.delete (hop k rfl) with ⟨hk, hdel⟩ | ⟨v, t', hk, hdel, hrep'⟩
          · simpa [TableStore.step, MapStore.step, ht, hm, hk, hdel] using h
          · simpa [TableStore.step, MapStore.step, ht, hm, hk, hdel] using
              h.put (h.lt_next ht) hrep'
  | ipAdd eo op1 =>
    cases ht : s.table eo with
    | none => simpa [TableStore.step, MapStore.step, ht, h.of_not_table ht] using h
    | some t =>
      obtain ⟨m, hm, hrep⟩ := h.of_table ht
      rcases h.operand op1 with ⟨hs, ha⟩ | ⟨src, t', n, hs, ha, ht', hrep'⟩
      · simpa [TableStore.step, MapStore.step, ht, hm, hs, ha] using h
      · obtain ⟨r, hr, hrr⟩ := insertItems_union ht ht' hrep hrep'
        simpa [TableStore.step, MapStore.step, ht, hm, hs, ha, hr] using
          h.put (h.lt_next ht) hrr
  | add eo op1 =>
    cases ht : s.table eo with
    | none => simpa [TableStore.step, MapStore.step, ht, h.of_not_table ht] using h
    | some t =>
      obtain ⟨m, hm, hrep⟩ := h.of_table ht
      rcases h.operand op1 with ⟨hs, ha⟩ | ⟨src, t', n, hs, ha, ht', hrep'⟩
      · simpa [TableStore.step, MapStore.step, ht, hm, hs, ha] using h
      · have hnew : (s.alloc t.clone).table s.next = some t.clone := by
          simp [TableStore.alloc, TableStore.put]
        have hold : (s.alloc t.clone).table src = some t' := by
          have hne : src ≠ s.next := Nat.ne_of_lt (h.lt_next ht')
          simpa [TableStore.alloc, TableStore.put, hne] using ht'
        obtain ⟨r, hr, hrr⟩ := insertItems_union hnew hold hrep.clone hrep'
        have hput : (s.alloc t.clone).put s.next r = s.alloc r := by
          simp [TableStore.alloc, TableStore.put]
        have hstep : s.step O (.add eo op1) = (.ok (.objref s.next), s.alloc r) := by
          simp [TableStore.step, ht, hs, hr, hput]
        rw [hstep]
        simpa [MapStore.step, hm, ha, h.next_eq] using h.alloc hrr
  | clone eo =>
    cases ht : s.table eo with
    | none => simpa [TableStore.step, MapStore.step, ht, h.of_not_table ht] using h
    | some t =>
      obtain ⟨m, hm, hrep⟩ := h.of_table ht
      simpa [TableStore.step, MapStore.step, ht, hm, h.next_eq] using h.alloc hrep.clone
  | destroyed o =>
    refine ⟨rfl, ⟨fun eo => ?_, h.next_eq, fun eo heo => ?_⟩⟩
    · by_cases heo : eo = o
      · simpa [TableStore.step, MapStore.step, heo] using .none
      · simp only [TableStore.step, MapStore.step, heo, if_false]
        cases ht : s.table eo with
        | none => simpa [h.of_not_table ht] using .none
        | some t =>
          obtain ⟨m, hm, hrep⟩ := h.of_table ht
          simpa [hm] using .some (hrep.killWeakrefs o)
    · have hnone : s.table eo = none := h.fresh eo heo
      simp [TableStore.step, hnone]

/-- Every run of operations on tables refines the same run on maps. -/
theorem Refines.run (h : s.Refines O a) {ops : List TableOp}
    (hops : ∀ op ∈ ops, op.PlainKeys O) :
    (Machine.run (TableStore.step O) s ops).1 = (Machine.run MapStore.step a ops).1 ∧
      (Machine.run (TableStore.step O) s ops).2.Refines O (Machine.run MapStore.step a ops).2 :=
  Machine.run_sim (fun _ _ _ hR hP => hR.step hP) h hops

/-! ## Tables are exact -/

end TableStore

end Eel
