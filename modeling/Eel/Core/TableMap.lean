-- SUMMARY: Stores of tables against stores of finite maps: every run of table operations refines the same run on maps.
import Eel.Core.TableInv
import Eel.Lib.Machine

/-!
# Tables as finite maps

A table stands for a partial function from keys to values. The operations act on
a store of tables, so that one table can be both operands of an addition.
-/

namespace Eel

/-! ## Finite maps -/

/-- What a table stands for. -/
abbrev FiniteMap := Value → Option Value

namespace FiniteMap

def empty : FiniteMap := fun _ => none

def set (m : FiniteMap) (k v : Value) : FiniteMap := Function.update m k (some v)

def unset (m : FiniteMap) (k : Value) : FiniteMap := Function.update m k none

/-- The entries of `n`, and those of `m` under other keys. -/
def union (m n : FiniteMap) : FiniteMap := fun k =>
  match n k with
  | some v => some v.copy
  | none => m k

/-- `m` after the items `i`, …, `i + c - 1` have been set in this order. -/
def setItems (m : FiniteMap) (items : Nat → TableItem) (i : Nat) : Nat → FiniteMap
  | 0 => m
  | c + 1 => setItems (m.set (items i).key (items i).value.copy) items (i + 1) c

theorem setItems_congr {m : FiniteMap} {items items' : Nat → TableItem} {i c : Nat}
    (h : ∀ j, i ≤ j → items j = items' j) : m.setItems items i c = m.setItems items' i c := by
  induction c generalizing m i with
  | zero => rfl
  | succ c ih =>
    rw [setItems, setItems, h i (Nat.le_refl i)]
    exact ih fun j hj => h j (by omega)

theorem setItems_of_absent {m : FiniteMap} {items : Nat → TableItem} {i c : Nat} {k : Value}
    (h : ∀ j, i ≤ j → j < i + c → (items j).key ≠ k) : m.setItems items i c k = m k := by
  induction c generalizing m i with
  | zero => rfl
  | succ c ih =>
    rw [setItems, ih fun j hj hjc => h j (by omega) (by omega)]
    exact Function.update_of_ne (h i (Nat.le_refl i) (by omega)).symm _ _

theorem setItems_of_mem {m : FiniteMap} {items : Nat → TableItem} {n i c j : Nat}
    (hd : Cells.Distinct TableItem.key items n) (hn : i + c ≤ n) (hij : i ≤ j)
    (hjc : j < i + c) :
    m.setItems items i c (items j).key = some (items j).value.copy := by
  induction c generalizing m i with
  | zero => omega
  | succ c ih =>
    rw [setItems]
    by_cases hj : j = i
    · subst hj
      rw [setItems_of_absent, set, Function.update_self]
      intro l hl hlc heq
      have := hd l (by omega) j (by omega) heq
      omega
    · exact ih (by omega) (by omega) (by omega)

end FiniteMap

/-! ## Tables represent maps -/

namespace Table

/-- `t` is well formed and its items are the entries of `m`. -/
structure Represents (O : Objects) (t : Table) (m : FiniteMap) : Prop where
  inv : t.Inv O
  entries : ∀ k v, t.Holds k v ↔ m k = some v

variable {O : Objects} {t : Table} {m : FiniteMap}

theorem Represents.empty : Represents O empty FiniteMap.empty where
  inv := Inv.empty
  entries k v := by simp [Holds, Table.empty, FiniteMap.empty]

/-- Entries determine the map, so it is enough to have them on one side of the
other. -/
theorem Represents.of_entries (hinv : t.Inv O) (hin : ∀ k v, t.Holds k v → m k = some v)
    (hout : ∀ k v, m k = some v → t.Holds k v) : Represents O t m :=
  ⟨hinv, fun k v => ⟨hin k v, hout k v⟩⟩

theorem Represents.key_at (h : t.Represents O m) {i : Nat} (hi : i < t.length) :
    m (t.items i).key = some (t.items i).value :=
  (h.entries _ _).mp ⟨i, hi, rfl, rfl⟩

theorem Represents.absent (h : t.Represents O m) {k : Value}
    (hk : ∀ i < t.length, (t.items i).key ≠ k) : m k = none := by
  cases hm : m k with
  | none => rfl
  | some v =>
    obtain ⟨i, hi, hki, -⟩ := (h.entries k v).mpr hm
    exact absurd hki (hk i hi)

/-! ### Lookup -/

theorem Represents.getIndex (h : t.Represents O m) {key : Value} (hkey : key.PlainKey O) :
    t.getIndex O key =
      match m key with
      | some v => .ok v.copy
      | none => .error .wrongIndex := by
  have hf := h.inv.find_found hkey
  unfold Table.getIndex
  generalize t.find O key (key.hash O) = r at hf
  cases hf with
  | hit hi hk =>
    rw [← hk, h.key_at hi]
  | miss _ hne => simp only [h.absent hne]

theorem Represents.in (h : t.Represents O m) {key : Value} (hkey : key.PlainKey O) :
    (∃ v, m key = some v ∧ ∃ i < t.length, (t.items i).key = key ∧ (t.items i).value = v ∧
        t.in O key = .integer (BitVec.ofNat 32 i)) ∨
      m key = none ∧ t.in O key = .boolean 0 := by
  have hf := h.inv.find_found hkey
  unfold Table.in
  generalize t.find O key (key.hash O) = r at hf
  cases hf with
  | @hit i hi hk => exact .inl ⟨_, hk ▸ h.key_at hi, i, hi, hk, rfl, rfl⟩
  | miss _ hne => exact .inr ⟨h.absent hne, rfl⟩

/-! ### Setting, inserting and deleting -/

/-- An inserted item adds one entry. -/
theorem Represents.insertItem (h : t.Represents O m) {key value : Value} {pos : Nat}
    (hkey : key.PlainKey O) (hp : Search.Place t.hashAt t.length (key.hash O).toNat pos)
    (hne : ∀ i < t.length, (t.items i).key ≠ key) :
    (t.insertItem pos key value (key.hash O)).Represents O (m.set key value.copy) := by
  refine ⟨h.inv.insertItem hkey hp hne, fun k v => ?_⟩
  have hex := Cells.exists_insertAt (b := t.items) (x := ⟨key.hash O, key.copy, value.copy⟩)
    (p := fun it => it.key = k ∧ it.value = v) hp.le
  rw [hkey.copy_eq] at hex
  rw [Holds, insertItem_length, insertItem_items, hkey.copy_eq]
  refine hex.trans ?_
  by_cases hk : k = key
  · subst hk
    have hno : ¬∃ i < t.length, (t.items i).key = k ∧ (t.items i).value = v :=
      fun ⟨i, hi, hki, _⟩ => hne i hi hki
    simp [FiniteMap.set, hno]
  · have hk' : ¬(key = k) := fun heq => hk heq.symm
    simp only [hk', false_and, false_or, FiniteMap.set, Function.update_of_ne hk]
    exact h.entries k v

/-- Setting the value of an item changes one entry. -/
theorem Represents.setValue (h : t.Represents O m) {pos : Nat} (hpos : pos < t.length)
    (v : Value) : (t.setValue pos v).Represents O (m.set (t.items pos).key v) := by
  refine Represents.of_entries (h.inv.setValue pos v) (fun k w => ?_) (fun k w hw => ?_)
  · rintro ⟨i, hi, rfl, rfl⟩
    rw [setValue_key]
    by_cases hip : i = pos
    · subst hip
      simp [FiniteMap.set, Table.setValue]
    · have hne : (t.items i).key ≠ (t.items pos).key :=
        fun heq => hip (h.inv.unique i hi pos hpos heq)
      simp only [FiniteMap.set, Function.update_of_ne hne, Table.setValue,
        Function.update_of_ne hip]
      exact h.key_at hi
  · by_cases hk : k = (t.items pos).key
    · subst hk
      obtain rfl : v = w := by simpa [FiniteMap.set] using hw
      exact ⟨pos, hpos, setValue_key .., by simp [Table.setValue]⟩
    · rw [FiniteMap.set, Function.update_of_ne hk] at hw
      obtain ⟨i, hi, rfl, rfl⟩ := (h.entries k w).mpr hw
      have hip : i ≠ pos := fun heq => hk (heq ▸ rfl)
      exact ⟨i, hi, setValue_key .., by simp [Table.setValue, hip]⟩

theorem Represents.setIndex (h : t.Represents O m) {key : Value} (value : Value)
    (hkey : key.PlainKey O) :
    (t.setIndex O key value).Represents O (m.set key value.copy) := by
  have hf := h.inv.find_found hkey
  unfold Table.setIndex
  dsimp only
  generalize t.find O key (key.hash O) = r at hf
  cases hf with
  | hit hi hk => exact hk ▸ h.setValue hi value.copy
  | miss hp hne => exact h.insertItem hkey hp hne

/-- Setting a key that is there touches no other item and no key. -/
theorem Inv.setIndex_self (ht : t.Inv O) {i : Nat} (hi : i < t.length) (value : Value) :
    t.setIndex O (t.items i).key value = t.setValue i value.copy := by
  have hf := ht.find_found (ht.plain i hi)
  unfold Table.setIndex
  dsimp only
  generalize t.find O (t.items i).key ((t.items i).key.hash O) = r at hf
  cases hf with
  | @hit j hj hk =>
    obtain rfl := ht.unique j hj i hi hk
    rfl
  | miss _ hne => exact absurd rfl (hne i hi)

theorem Represents.insert (h : t.Represents O m) {key : Value} (value : Value)
    (hkey : key.PlainKey O) :
    (∃ v, m key = some v ∧ t.insert O key value = .error .wrongIndex) ∨
      ∃ t', m key = none ∧ t.insert O key value = .ok t' ∧
        t'.Represents O (m.set key value.copy) := by
  have hf := h.inv.find_found hkey
  unfold Table.insert
  dsimp only
  generalize t.find O key (key.hash O) = r at hf
  cases hf with
  | hit hi hk => exact .inl ⟨_, hk ▸ h.key_at hi, rfl⟩
  | miss hp hne => exact .inr ⟨_, h.absent hne, rfl, h.insertItem hkey hp hne⟩

/-- Erasing an item removes one entry. -/
theorem Represents.erase (h : t.Represents O m) {pos : Nat} (hpos : pos < t.length) :
    ({ t with items := Cells.eraseAt t.items t.length pos }.setSize (t.length - 1)).Represents O
      (m.unset (t.items pos).key) := by
  refine ⟨h.inv.erase pos, fun k v => ?_⟩
  have hex := Cells.exists_eraseAt (b := t.items) (p := fun it => it.key = k ∧ it.value = v) hpos
  refine hex.trans ?_
  by_cases hk : k = (t.items pos).key
  · subst hk
    simp only [FiniteMap.unset, Function.update_self, reduceCtorEq, iff_false]
    rintro ⟨i, hi, hne, heq, -⟩
    exact hne (h.inv.unique i hi pos hpos heq)
  · rw [FiniteMap.unset, Function.update_of_ne hk, ← h.entries k v]
    refine ⟨fun ⟨i, hi, _, hit⟩ => ⟨i, hi, hit⟩, fun ⟨i, hi, hit⟩ => ⟨i, hi, ?_, hit⟩⟩
    rintro rfl
    exact hk hit.1.symm

theorem Represents.delete (h : t.Represents O m) {key : Value} (hkey : key.PlainKey O) :
    (m key = none ∧ t.delete O (some key) none = .error .wrongIndex) ∨
      ∃ v t', m key = some v ∧ t.delete O (some key) none = .ok t' ∧
        t'.Represents O (m.unset key) := by
  have hf := h.inv.find_found hkey
  unfold Table.delete
  dsimp only
  generalize t.find O key (key.hash O) = r at hf
  cases hf with
  | hit hi hk => exact .inr ⟨_, _, hk ▸ h.key_at hi, rfl, hk ▸ h.erase hi⟩
  | miss _ hne => exact .inl ⟨h.absent hne, rfl⟩

theorem Represents.deleteAll (t : Table) :
    (t.setSize 0).Represents O FiniteMap.empty where
  inv :=
    { fits := setSize_fits t 0
      sorted := Cells.Sorted.of_le fun i j _ hj => absurd hj (Nat.not_lt_zero j)
      hash_eq := fun i hi => absurd hi (Nat.not_lt_zero i)
      plain := fun i hi => absurd hi (Nat.not_lt_zero i)
      unique := fun i hi => absurd hi (Nat.not_lt_zero i) }
  entries k v := by simp [Holds, FiniteMap.empty]

/-! ### Copies -/

/-- A table whose items are another's with `f` applied to each value. -/
theorem Represents.mapValues (h : t.Represents O m) {t' : Table} {f : Value → Value}
    (hlen : t'.length = t.length) (hfits : t'.length ≤ t'.asize)
    (hitem : ∀ i < t.length, (t'.items i).key = (t.items i).key ∧
      (t'.items i).value = f (t.items i).value)
    (hhash : ∀ i, (t'.items i).hash = (t.items i).hash) :
    t'.Represents O fun k => (m k).map f := by
  refine ⟨h.inv.mapItems hlen hfits hhash fun i hi => (hitem i hi).1, fun k v => ?_⟩
  rw [Option.map_eq_some_iff, Holds, hlen]
  constructor
  · rintro ⟨i, hi, hk, hv⟩
    rw [(hitem i hi).1] at hk
    rw [(hitem i hi).2] at hv
    exact ⟨_, hk ▸ h.key_at hi, hv⟩
  · rintro ⟨w, hw, hv⟩
    obtain ⟨i, hi, hk, hv'⟩ := (h.entries k w).mpr hw
    exact ⟨i, hi, (hitem i hi).1.trans hk, by rw [(hitem i hi).2, hv', hv]⟩

theorem Represents.clone (h : t.Represents O m) :
    t.clone.Represents O fun k => (m k).map Value.clone :=
  h.mapValues rfl (Nat.le_refl _) (fun i hi => ⟨(h.inv.plain i hi).clone_eq, rfl⟩) fun _ => rfl

theorem Represents.killWeakrefs (h : t.Represents O m) (o : ObjId) :
    (t.killWeakrefs o).Represents O fun k => (m k).map (Value.kill o) :=
  h.mapValues rfl h.inv.fits (fun i hi => ⟨(h.inv.plain i hi).kill_eq o, rfl⟩) fun _ => rfl

end Table

end Eel
