-- SUMMARY: The representation invariant of tables, what a lookup finds under it, and that every operation keeps it.
import Eel.Core.Table

/-!
# The representation of tables

The keys considered are those compared by class and value, and pooled strings.
Their hash codes are functions of the keys, so equal keys meet in one group of
equal codes however many other keys share the code.
-/

namespace Eel

/-- Nil, integers, booleans, class ids, and strong references to pooled strings. -/
def Value.PlainKey (O : Objects) : Value → Prop
  | .nil | .integer _ | .boolean _ | .classid _ => True
  | .objref o => O.isString o = true
  | .real _ | .weakref _ _ => False

namespace Value.PlainKey

variable {O : Objects} {k : Value}

@[simp] theorem copy_eq (h : k.PlainKey O) : k.copy = k := by
  cases k <;> first | rfl | exact h.elim

@[simp] theorem clone_eq (h : k.PlainKey O) : k.clone = k := by
  cases k <;> first | rfl | exact h.elim

@[simp] theorem kill_eq (h : k.PlainKey O) (o : ObjId) : k.kill o = k := by
  cases k <;> first | rfl | exact h.elim

/-- On plain keys the comparison of `t__find` is equality. -/
theorem sameKey_iff {key : Value} (hkey : key.PlainKey O) (h : k.PlainKey O) :
    Table.sameKey O key k = true ↔ k = key := by
  cases key with
  | nil => cases k <;> simp [Table.sameKey]
  | integer v => cases k <;> simp [Table.sameKey]
  | boolean v => cases k <;> simp [Table.sameKey]
  | classid v => cases k <;> simp [Table.sameKey]
  | objref o =>
    have hs : O.isString o = true := hkey
    cases k with
    | objref o' => simp [Table.sameKey, obj?, hs]
    | weakref => exact h.elim
    | _ => simp [Table.sameKey, obj?]
  | real => exact hkey.elim
  | weakref => exact hkey.elim

end Value.PlainKey

namespace Table

/-- The representation invariant. -/
structure Inv (O : Objects) (t : Table) : Prop where
  fits : t.length ≤ t.asize
  sorted : Cells.Sorted (fun it => it.hash.toNat) t.items t.length
  hash_eq : ∀ i < t.length, (t.items i).hash = (t.items i).key.hash O
  plain : ∀ i < t.length, (t.items i).key.PlainKey O
  unique : Cells.Distinct TableItem.key t.items t.length

/-- The table has an item with this key and value. -/
def Holds (t : Table) (k v : Value) : Prop :=
  ∃ i < t.length, (t.items i).key = k ∧ (t.items i).value = v

theorem Inv.empty {O : Objects} : Inv O empty where
  fits := Nat.le_refl 0
  sorted := Cells.Sorted.of_le fun _ j _ hj => absurd hj (Nat.not_lt_zero j)
  hash_eq := fun i hi => absurd hi (Nat.not_lt_zero i)
  plain := fun i hi => absurd hi (Nat.not_lt_zero i)
  unique := fun i hi => absurd hi (Nat.not_lt_zero i)

/-- A key is in at most one item, so with at most one value. -/
theorem Inv.holds_unique {O : Objects} {t : Table} {k v w : Value} (ht : t.Inv O)
    (hv : t.Holds k v) (hw : t.Holds k w) : v = w := by
  obtain ⟨i, hi, hki, rfl⟩ := hv
  obtain ⟨j, hj, hkj, rfl⟩ := hw
  rw [ht.unique i hi j hj (hki.trans hkj.symm)]

/-! ## Lookup -/

/-- What `find` answers: the item with the key, or the complement of a position
that keeps the hash codes sorted when no item has the key. -/
inductive Found (O : Objects) (t : Table) (key : Value) : Int → Prop
  | hit {i : Nat} : i < t.length → (t.items i).key = key → Found O t key i
  | miss {pos : Nat} : Search.Place t.hashAt t.length (key.hash O).toNat pos →
      (∀ i < t.length, (t.items i).key ≠ key) → Found O t key (Int.negSucc pos)

/-- The group of a hash code is found by either search, from its first item. -/
theorem Inv.firstAnswer {O : Objects} {t : Table} (ht : t.Inv O) (h : Hash) :
    Search.FirstAnswer t.hashAt t.length h.toNat
      (if t.length < 10 then Search.linearFind t.hashAt h.toNat 0 t.length
       else match t.binaryFind h with
        | .ofNat first => Search.backUp t.hashAt h.toNat first
        | .negSucc pos => .negSucc pos) := by
  have hs : Cells.Sorted id t.hashAt t.length := ht.sorted
  split
  · exact Search.linearFind_answer hs 0 t.length (Nat.zero_add _) fun i hi => by omega
  · have ha : Search.Answer t.hashAt t.length h.toNat (t.binaryFind h) :=
      Search.binaryFind_answer hs (by omega) (by omega) (by omega)
        (fun i hi => by omega) (fun i hi hin => by omega)
    generalize t.binaryFind h = r at ha
    cases ha with
    | hit hi heq => exact (Search.Answer.hit hi heq).backUp hs
    | miss hp hne => exact .miss hp hne

theorem Inv.find_found {O : Objects} {t : Table} (ht : t.Inv O) {key : Value}
    (hkey : key.PlainKey O) : Found O t key (t.find O key (key.hash O)) := by
  have hs : Cells.Sorted id t.hashAt t.length := ht.sorted
  have hhash : ∀ i < t.length, (t.items i).key = key → t.hashAt i = (key.hash O).toNat := by
    intro i hi heq
    rw [hashAt, ht.hash_eq i hi, heq]
  have hfirst := ht.firstAnswer (key.hash O)
  unfold find
  dsimp only
  generalize (if t.length < 10 then _ else _ : Int) = first at hfirst ⊢
  cases hfirst with
  | miss hp hne =>
    exact .miss hp fun i hi heq => hne i hi (hhash i hi heq)
  | @hit first hp hlt heq =>
    dsimp only
    cases hg : Search.groupFind (fun i => sameKey O key (t.items i).key) t.hashAt
        (key.hash O).toNat first (t.length - first) with
    | some i =>
      obtain ⟨_, hi, -, hsame⟩ := Search.groupFind_some hg
      have hin : i < t.length := by omega
      exact .hit hin ((hkey.sameKey_iff (ht.plain i hin)).mp hsame)
    | none =>
      refine .miss hp fun i hi hk => ?_
      -- An item with the key is in the group, and the scan of the group saw it.
      have hge : first ≤ i := by
        by_contra hlt'
        exact absurd (hhash i hi hk) (ne_of_lt (hp.below i (by omega)))
      have hno := Search.groupFind_none hs (by omega) hp.above hg i hge hi (hhash i hi hk)
      rw [(hkey.sameKey_iff (ht.plain i hi)).mpr hk] at hno
      cases hno

/-! ## Changes of the items -/

/-- `setSize` changes the bookkeeping only, and the block holds the new length. -/
theorem setSize_fits (t : Table) (n : Nat) : (t.setSize n).length ≤ (t.setSize n).asize :=
  calcResize_ge ..

@[simp] theorem setSize_items (t : Table) (n : Nat) : (t.setSize n).items = t.items := rfl
@[simp] theorem setSize_length (t : Table) (n : Nat) : (t.setSize n).length = n := rfl

theorem insertItem_items (t : Table) (pos : Nat) (key value : Value) (h : Hash) :
    (t.insertItem pos key value h).items =
      Cells.insertAt t.items t.length pos ⟨h, key.copy, value.copy⟩ := rfl

@[simp] theorem insertItem_length (t : Table) (pos : Nat) (key value : Value) (h : Hash) :
    (t.insertItem pos key value h).length = t.length + 1 := rfl

/-- Every item after an insertion is the new one or an old one. -/
theorem insertItem_forall {t : Table} {pos : Nat} {key value : Value} {h : Hash}
    {p : TableItem → Prop} (hpos : pos ≤ t.length) (hnew : p ⟨h, key.copy, value.copy⟩)
    (hold : ∀ i < t.length, p (t.items i)) :
    ∀ i < t.length + 1, p ((t.insertItem pos key value h).items i) := by
  intro i hi
  rw [insertItem_items, Cells.insertAt_apply]
  split
  · exact hnew
  · split <;> exact hold _ (by omega)

theorem Inv.insertItem {O : Objects} {t : Table} (ht : t.Inv O) {key value : Value} {pos : Nat}
    (hkey : key.PlainKey O) (hp : Search.Place t.hashAt t.length (key.hash O).toNat pos)
    (hne : ∀ i < t.length, (t.items i).key ≠ key) :
    (t.insertItem pos key value (key.hash O)).Inv O where
  fits := t.setSize_fits (t.length + 1)
  sorted := by
    refine Cells.Sorted.insertAt ht.sorted hp.le (fun i hi => ?_) (fun i hi hin => ?_)
    · exact le_of_lt (hp.below i hi)
    · exact hp.above i hi hin
  hash_eq := insertItem_forall (p := fun it => it.hash = it.key.hash O) hp.le
    (by rw [hkey.copy_eq]) ht.hash_eq
  plain := insertItem_forall (p := fun it => it.key.PlainKey O) hp.le
    (by rwa [hkey.copy_eq]) ht.plain
  unique := by
    rw [insertItem_length, insertItem_items]
    exact ht.unique.insertAt hp.le fun i hi => by simpa [hkey.copy_eq] using hne i hi

/-- Deleting an item keeps the representation. -/
theorem Inv.erase {O : Objects} {t : Table} (ht : t.Inv O) (pos : Nat) :
    Inv O ({ t with items := Cells.eraseAt t.items t.length pos }.setSize (t.length - 1)) where
  fits := setSize_fits _ _
  sorted := Cells.Sorted.eraseAt ht.sorted
  hash_eq := by
    intro i hi
    simp only [setSize_items, Cells.eraseAt_apply, setSize_length] at hi ⊢
    split <;> exact ht.hash_eq _ (by omega)
  plain := by
    intro i hi
    simp only [setSize_items, Cells.eraseAt_apply, setSize_length] at hi ⊢
    split <;> exact ht.plain _ (by omega)
  unique := ht.unique.eraseAt

/-- Changing values in a way that leaves keys alone keeps the representation. -/
theorem Inv.mapItems {O : Objects} {t t' : Table} (ht : t.Inv O) (hlen : t'.length = t.length)
    (hfits : t'.length ≤ t'.asize) (hhash : ∀ i, (t'.items i).hash = (t.items i).hash)
    (hkey : ∀ i < t.length, (t'.items i).key = (t.items i).key) : t'.Inv O where
  fits := hfits
  sorted := Cells.Sorted.of_le fun i j hij hj => by
    simp only [hhash]
    exact ht.sorted.le hij (hlen ▸ hj)
  hash_eq := fun i hi => by
    rw [hhash, hkey i (hlen ▸ hi)]
    exact ht.hash_eq i (hlen ▸ hi)
  plain := fun i hi => by
    rw [hkey i (hlen ▸ hi)]
    exact ht.plain i (hlen ▸ hi)
  unique := fun i hi j hj heq => by
    rw [hkey i (hlen ▸ hi), hkey j (hlen ▸ hj)] at heq
    exact ht.unique i (hlen ▸ hi) j (hlen ▸ hj) heq

/-- `t__setindex` on a key that is there. -/
def setValue (t : Table) (pos : Nat) (v : Value) : Table :=
  { t with items := Function.update t.items pos { t.items pos with value := v } }

theorem setValue_key (t : Table) (pos : Nat) (v : Value) (i : Nat) :
    ((t.setValue pos v).items i).key = (t.items i).key := by
  by_cases h : i = pos
  · subst h; simp [setValue]
  · simp [setValue, h]

theorem setValue_hash (t : Table) (pos : Nat) (v : Value) (i : Nat) :
    ((t.setValue pos v).items i).hash = (t.items i).hash := by
  by_cases h : i = pos
  · subst h; simp [setValue]
  · simp [setValue, h]

/-- Replacing the value of an item keeps the representation. -/
theorem Inv.setValue {O : Objects} {t : Table} (ht : t.Inv O) (pos : Nat) (v : Value) :
    (t.setValue pos v).Inv O :=
  ht.mapItems rfl ht.fits (setValue_hash t pos v) fun i _ => setValue_key t pos v i

end Table

end Eel
