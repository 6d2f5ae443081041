-- SUMMARY: Cloning trees: clones share no object that can change, and when they compare as equal to what they are clones of.
import Eel.Core.SetIndex
import Eel.Script.DeepCompare

/-!
# Deep clones

A clone is made of new arrays and tables. Strings are shared, because they cannot change, and
dynamic strings are cloned.
-/

namespace Eel

namespace ObjectHeap

open ForLoops

/-! ## The code -/

/-- The heap when `eel_o_alloc` has made an object. -/
def alloc (H : ObjectHeap) : ObjectHeap :=
  { H with texts := { H.texts with pool := { H.texts.pool with next := H.next + 1 } } }

/-- `[]`. -/
def newArray (H : ObjectHeap) : ObjectHeap :=
  { H.alloc with array := Function.update H.array H.next (some []) }

/-- `{}`. -/
def newTable (H : ObjectHeap) : ObjectHeap :=
  { H.alloc with table := Function.update H.table H.next (some Table.empty) }

/-- `ds_nnew`. -/
def newDstring (H : ObjectHeap) (bytes : List Byte) : ObjectHeap :=
  { H.alloc with texts := { H.alloc.texts with dstring := Function.update H.texts.dstring H.next (some bytes) } }

/-- `clone v`, of what is no array and no table. -/
def clone (H : ObjectHeap) (v : Value) : Except Thrown (Value × ObjectHeap) :=
  match v.obj? with
  | none => .ok (v, H)
  | some o =>
    match H.texts.text o with
    | some (.string _) => .ok (.objref o, H)
    | some (.dstring bytes) => .ok (.objref H.next, H.newDstring bytes)
    | none => .error (.xno Xno.notImplemented)

/-- `a[i] = v`, of an array. -/
def setItem (H : ObjectHeap) (a : ObjId) (i : Nat) (v : Value) : Except Thrown ObjectHeap :=
  match H.array a with
  | none => .error (.xno Xno.cantIndex)
  | some vs => .ok { H with array := Function.update H.array a (some (storeItem .nil vs i v.copy)) }

/-- `t[k] = v`, of a table. -/
def setindex (O : Objects) (H : ObjectHeap) (a : ObjId) (k v : Value) : Except Thrown ObjectHeap :=
  match H.table a with
  | none => .error (.xno Xno.cantIndex)
  | some t => .ok { H with table := Function.update H.table a (some (t.setIndex O k v)) }

/-- `index(v, i)`. -/
def index (H : ObjectHeap) (v : Value) (i : Nat) : Except Thrown Value :=
  match H.table? v with
  | none => H.item v i
  | some t => if i < t.length then .ok (t.items i).value.copy else .error (.xno Xno.highIndex)

/-- `deepclone`. -/
def deepclone (O : Objects) (level : Nat) (src : Value) (H : ObjectHeap) : Except Thrown (Value × ObjectHeap) :=
  if 1000 < level then .error (.text "deepclone(): Infinite recursion aborted!")
  else
    match H.array? src, H.table? src with
    | some vs, _ => do
      let a := H.next
      let H' ← (List.range vs.length).foldlM (fun H i => do
        let (v, H) ← deepclone O (level + 1) (← H.item src i) H
        H.setItem a i v) H.newArray
      return (.objref a, H')
    | none, some t => do
      let a := H.next
      let H' ← (List.range t.length).foldlM (fun H i => do
        let k ← H.key src i
        let (v, H) ← deepclone O (level + 1) (← H.index src i) H
        H.setindex O a k v) H.newTable
      return (.objref a, H')
    | none, none => H.clone src
termination_by 1001 - level

/-! ## What is meant -/

/-- A leaf that is not equal to its clone: a dynamic string, or a real that is not a number. -/
def UnlikeClone (H : ObjectHeap) (v : Value) : Prop :=
  (∃ a, v = .real a ∧ Value.realEq a a = false) ∨ ∃ o s, v = .objref o ∧ H.texts.text o = some (.dstring s)

/-- `deepclone` returns a value that compares as equal, and that leads to nothing that can change and that the
source leads to. -/
def Clones (O : Objects) (R : Reals) (H : ObjectHeap) (x : Value) : Prop :=
  ∃ y H', deepclone O 0 x H = .ok (y, H') ∧
    (∀ o, H'.Mutable o → H'.Within x (.objref o) → ¬ H'.Within y (.objref o)) ∧
    deepcompare O R H' 0 y x = .ok true

/-! ## Growing heaps -/

section Growing

variable {O : Objects} {R : Reals} {H H' H'' : ObjectHeap} {S : ObjId → Prop} {l r v : Value} {n m : Nat} {o a : ObjId}

/-- What making objects, and changing those made, leaves as it was. -/
structure Grows (O : Objects) (H H' : ObjectHeap) : Prop where
  ok : H'.Ok O
  next : H.next ≤ H'.next
  old : ∀ o < H.next, SameObject H H' o

theorem SameObject.refl : SameObject H H o := ⟨rfl, rfl, rfl⟩

theorem SameObject.trans (h : SameObject H H' o) (h' : SameObject H' H'' o) : SameObject H H'' o :=
  ⟨h'.array.trans h.array, h'.table.trans h.table, h'.text.trans h.text⟩

theorem Grows.refl (hH : H.Ok O) : Grows O H H := ⟨hH, Nat.le_refl _, fun _ _ => .refl⟩

theorem Grows.trans (h : Grows O H H') (h' : Grows O H' H'') : Grows O H H'' :=
  ⟨h'.ok, h.next.trans h'.next, fun o ho => (h.old o ho).trans (h'.old o (Nat.lt_of_lt_of_le ho h.next))⟩

/-- The objects of a tree have been made before. -/
theorem IsTree.made (hH : H.Ok O) (hv : H.IsTree O S n v) : H.IsTree O (fun o => S o ∧ o < H.next) n v := by
  induction hv with
  | @leaf n v hleaf hobj =>
    refine .leaf hleaf ?_
    rintro o rfl
    refine ⟨hobj o rfl, Nat.lt_of_not_le fun hle => ?_⟩
    obtain ⟨s, hs⟩ := Option.isSome_iff_exists.mp hleaf
    cases hs.symm.trans (hH.fresh o hle).2.2
  | array harray hobj hdeep _ ih =>
    refine .array harray ⟨hobj, Nat.lt_of_not_le fun hle => ?_⟩ hdeep ih
    cases harray.symm.trans (hH.fresh _ hle).1
  | table htable hobj hinv hdeep _ ih =>
    refine .table htable ⟨hobj, Nat.lt_of_not_le fun hle => ?_⟩ hinv hdeep ih
    cases htable.symm.trans (hH.fresh _ hle).2.1

theorem IsTree.grows (hH : H.Ok O) (hg : Grows O H H') (hv : H.IsTree O S n v) : H'.IsTree O S n v :=
  (hv.made hH).congr (fun o ho => hg.old o ho.2) fun _ ho => ho.1

/-- A leaf and its clone: a new dynamic string with the same characters, or the same value. -/
def LeafClone (H : ObjectHeap) (l r : Value) : Prop :=
  (l = r ∧ ∀ o s, r = .objref o → H.texts.text o ≠ some (.dstring s)) ∨
    ∃ o o' s, l = .objref o ∧ r = .objref o' ∧ o ≠ o' ∧ H.texts.text o = some (.dstring s) ∧
      H.texts.text o' = some (.dstring s)

theorem LeafClone.congr (hl : ∀ o, l = .objref o → SameObject H H' o) (hr : ∀ o, r = .objref o → SameObject H H' o)
    (h : LeafClone H l r) : LeafClone H' l r := by
  rcases h with ⟨rfl, hno⟩ | ⟨o, o', s, rfl, rfl, hne, hs, hs'⟩
  · refine .inl ⟨rfl, fun o s ho => ?_⟩
    rw [(hr o ho).text]
    exact hno o s ho
  · exact .inr ⟨o, o', s, rfl, rfl, hne, (hl o rfl).text.trans hs, (hr o' rfl).text.trans hs'⟩

/-- What a tree and its clone have in common is kept where their objects are. -/
theorem Equal.keeps (hH : H.Ok O) {S' : ObjId → Prop} (hsame : ∀ o, S o → SameObject H H' o)
    (hsame' : ∀ o, S' o → SameObject H H' o) (hl : H.IsTree O S n l) (hr : H.IsTree O S' m r)
    (h : H.Equal (LeafClone H) l r) : H'.Equal (LeafClone H') l r :=
  h.congr hH hsame hsame' hl hr fun _ _ hl hr hleaf =>
    hleaf.congr (fun o ho => hsame o (hl o ho)) fun o ho => hsame' o (hr o ho)

/-! ## Objects made and changed -/

theorem Ok.lt_next_array (hH : H.Ok O) {vs : List Value} (h : H.array o = some vs) : o < H.next := by
  refine Nat.lt_of_not_le fun hle => ?_
  cases h.symm.trans (hH.fresh o hle).1

theorem Ok.lt_next_table (hH : H.Ok O) {t : Table} (h : H.table o = some t) : o < H.next := by
  refine Nat.lt_of_not_le fun hle => ?_
  cases h.symm.trans (hH.fresh o hle).2.1

/-- The pool does not depend on where the next object goes, as long as there is none there. -/
theorem inv_alloc (h : H.texts.pool.Inv) : H.alloc.texts.pool.Inv where
  pooled := ⟨h.pooled.mem_bucket, h.pooled.bucket_nodup, h.pooled.wf, h.pooled.distinct,
    fun o ho => h.pooled.fresh o (Nat.le_of_succ_le ho)⟩
  cached := ⟨h.cached.mem_scache, h.cached.nodup, h.cached.size_eq⟩

theorem grows_newArray (hH : H.Ok O) : Grows O H H.newArray ∧ H.newArray.array H.next = some [] := by
  have hne : ∀ o < H.next, o ≠ H.next := fun o ho => Nat.ne_of_lt ho
  obtain ⟨-, hnotable, hnotext⟩ := hH.fresh H.next (Nat.le_refl _)
  refine ⟨⟨⟨inv_alloc hH.pool, hH.strings, fun o vs ho => ?_, hH.table, fun o ho => ?_⟩, Nat.le_succ _, fun o ho => ?_⟩,
    Function.update_self ..⟩
  · by_cases heq : o = H.next
    · rw [heq]
      exact ⟨hnotable, hnotext⟩
    · exact hH.array o vs ((Function.update_of_ne heq ..).symm.trans ho)
  · have hlt : H.next < o := ho
    refine ⟨(Function.update_of_ne (Nat.ne_of_gt hlt) ..).trans ?_, ?_⟩
    · exact (hH.fresh o hlt.le).1
    · exact (hH.fresh o hlt.le).2
  · exact ⟨Function.update_of_ne (hne o ho) .., rfl, rfl⟩

theorem grows_newTable (hH : H.Ok O) : Grows O H H.newTable ∧ H.newTable.table H.next = some Table.empty := by
  have hne : ∀ o < H.next, o ≠ H.next := fun o ho => Nat.ne_of_lt ho
  obtain ⟨hnoarray, -, hnotext⟩ := hH.fresh H.next (Nat.le_refl _)
  refine ⟨⟨⟨inv_alloc hH.pool, hH.strings, fun o vs ho => ?_, fun o t ho => ?_, fun o ho => ?_⟩, Nat.le_succ _,
    fun o ho => ?_⟩, Function.update_self ..⟩
  · have hold : H.array o = some vs := ho
    refine ⟨(Function.update_of_ne ?_ ..).trans (hH.array o vs hold).1, (hH.array o vs hold).2⟩
    rintro rfl
    cases hold.symm.trans hnoarray
  · by_cases heq : o = H.next
    · rw [heq]
      exact hnotext
    · exact hH.table o t ((Function.update_of_ne heq ..).symm.trans ho)
  · have hlt : H.next < o := ho
    refine ⟨(hH.fresh o hlt.le).1, (Function.update_of_ne (Nat.ne_of_gt hlt) ..).trans ?_, ?_⟩
    · exact (hH.fresh o hlt.le).2.1
    · exact (hH.fresh o hlt.le).2.2
  · exact ⟨rfl, Function.update_of_ne (hne o ho) .., rfl⟩

theorem text_newDstring (hH : H.Ok O) (bytes : List Byte) :
    (H.newDstring bytes).texts.text H.next = some (.dstring bytes) ∧
      ∀ o, o ≠ H.next → (H.newDstring bytes).texts.text o = H.texts.text o := by
  constructor
  · have hpool : (H.newDstring bytes).texts.pool.object H.next = none := hH.pool.pooled.fresh _ (Nat.le_refl _)
    have hnew : (H.newDstring bytes).texts.dstring H.next = some bytes := Function.update_self ..
    unfold Texts.text
    rw [hpool, hnew]
    rfl
  · intro o ho
    have hsame : (H.newDstring bytes).texts.dstring o = H.texts.dstring o := Function.update_of_ne ho ..
    unfold Texts.text
    rw [hsame]
    rfl

theorem grows_newDstring (hH : H.Ok O) (bytes : List Byte) : Grows O H (H.newDstring bytes) := by
  obtain ⟨hnoarray, hnotable, -⟩ := hH.fresh H.next (Nat.le_refl _)
  obtain ⟨-, htext⟩ := text_newDstring hH bytes
  refine ⟨⟨inv_alloc hH.pool, hH.strings, fun o vs ho => ?_, fun o t ho => ?_, fun o ho => ?_⟩, Nat.le_succ _,
    fun o ho => ?_⟩
  · have hold : H.array o = some vs := ho
    refine ⟨(hH.array o vs hold).1, (htext o ?_).trans (hH.array o vs hold).2⟩
    rintro rfl
    cases hold.symm.trans hnoarray
  · have hold : H.table o = some t := ho
    refine (htext o ?_).trans (hH.table o t hold)
    rintro rfl
    cases hold.symm.trans hnotable
  · have hlt : H.next < o := ho
    exact ⟨(hH.fresh o hlt.le).1, (hH.fresh o hlt.le).2.1, (htext o (Nat.ne_of_gt hlt)).trans (hH.fresh o hlt.le).2.2⟩
  · exact ⟨rfl, rfl, htext o (Nat.ne_of_lt ho)⟩

/-- What a change of the object `a` leaves as it was. -/
structure Changes (O : Objects) (a : ObjId) (H H' : ObjectHeap) : Prop where
  ok : H'.Ok O
  next : H'.next = H.next
  others : ∀ o, o ≠ a → SameObject H H' o

theorem Changes.grows (h : Changes O a H' H'') (hg : Grows O H H') (ha : H.next ≤ a) : Grows O H H'' :=
  ⟨h.ok, hg.next.trans h.next.ge, fun o ho => (hg.old o ho).trans (h.others o (Nat.ne_of_lt (Nat.lt_of_lt_of_le ho ha)))⟩

/-- Storing behind the last item appends. -/
theorem setItem_length (hH : H.Ok O) {vs : List Value} (ha : H.array a = some vs) (hv : v.copy = v) :
    ∃ H', H.setItem a vs.length v = .ok H' ∧ Changes O a H H' ∧ H'.array a = some (vs ++ [v]) := by
  unfold setItem
  rw [ha]
  refine ⟨_, rfl, ⟨⟨hH.pool, hH.strings, fun o us ho => ?_, hH.table, fun o ho => ?_⟩, rfl, fun o ho => ?_⟩, ?_⟩
  · by_cases heq : o = a
    · rw [heq]
      exact hH.array a vs ha
    · exact hH.array o us ((Function.update_of_ne heq ..).symm.trans ho)
  · refine ⟨(Function.update_of_ne ?_ ..).trans (hH.fresh o ho).1, (hH.fresh o ho).2⟩
    exact Nat.ne_of_gt (Nat.lt_of_lt_of_le (hH.lt_next_array ha) ho)
  · exact ⟨Function.update_of_ne ho .., rfl, rfl⟩
  · refine (Function.update_self ..).trans ?_
    rw [storeItem_of_le (Nat.le_refl _), Nat.sub_self, List.replicate_zero, List.append_nil, hv]

theorem setindex_ok (hH : H.Ok O) {t : Table} (ha : H.table a = some t) (k v : Value) :
    ∃ H', H.setindex O a k v = .ok H' ∧ Changes O a H H' ∧ H'.table a = some (t.setIndex O k v) := by
  unfold setindex
  rw [ha]
  refine ⟨_, rfl, ⟨⟨hH.pool, hH.strings, fun o us ho => ?_, fun o u ho => ?_, fun o ho => ?_⟩, rfl, fun o ho => ?_⟩,
    Function.update_self ..⟩
  · refine ⟨(Function.update_of_ne ?_ ..).trans (hH.array o us ho).1, (hH.array o us ho).2⟩
    rintro rfl
    exact hH.no_table ho ha
  · by_cases heq : o = a
    · rw [heq]
      exact hH.table a t ha
    · exact hH.table o u ((Function.update_of_ne heq ..).symm.trans ho)
  · refine ⟨(hH.fresh o ho).1, (Function.update_of_ne ?_ ..).trans (hH.fresh o ho).2.1, (hH.fresh o ho).2.2⟩
    exact Nat.ne_of_gt (Nat.lt_of_lt_of_le (hH.lt_next_table ha) ho)
  · exact ⟨rfl, Function.update_of_ne ho .., rfl⟩

/-! ## Clones -/

/-- A clone is a tree of objects that are new, and of strings. -/
structure IsClone (O : Objects) (n : Nat) (H H' : ObjectHeap) (x y : Value) : Prop where
  grows : Grows O H H'
  tree : H'.IsTree O (fun o => H.next ≤ o ∨ O.isString o) n y
  equal : H'.Equal (LeafClone H') y x

theorem Ok.isString_iff (hH : H.Ok O) : O.isString o = true ↔ ∃ bytes, H.texts.text o = some (.string bytes) := by
  rw [hH.strings o]
  unfold Texts.text
  cases H.texts.pool.object o with
  | some ps => exact iff_of_true rfl ⟨_, rfl⟩
  | none =>
    refine iff_of_false Bool.false_ne_true ?_
    rintro ⟨bytes, h⟩
    obtain ⟨_, -, ⟨⟩⟩ := Option.map_eq_some_iff.mp h

/-- The clone of a leaf. -/
theorem clone_leaf (hH : H.Ok O) (hv : H.IsLeaf v) : ∃ y H', H.clone v = .ok (y, H') ∧ IsClone O n H H' v y := by
  have hplain (h : v.obj? = none) : ∃ y H', H.clone v = .ok (y, H') ∧ IsClone O n H H' v y := by
    have hno : ∀ o, v ≠ .objref o := by
      rintro o rfl
      cases h
    unfold clone
    rw [h]
    exact ⟨v, H, rfl, .refl hH, .leaf hv fun o ho => absurd ho (hno o),
      .leaf hv hv (.inl ⟨rfl, fun o s ho => absurd ho (hno o)⟩)⟩
  cases v with
  | objref o =>
    obtain ⟨s, hs⟩ := Option.isSome_iff_exists.mp hv
    unfold clone
    dsimp only [Value.obj?]
    rw [hs]
    cases s with
    | string bytes =>
      refine ⟨_, H, rfl, .refl hH, .leaf hv ?_, .leaf hv hv (.inl ⟨rfl, ?_⟩)⟩
      · rintro _ ⟨⟩
        exact .inr (hH.isString_iff.mpr ⟨bytes, hs⟩)
      · rintro _ s ⟨⟩ hs'
        cases hs.symm.trans hs'
    | dstring bytes =>
      obtain ⟨hnew, hold⟩ := text_newDstring hH bytes
      have hlt : o < H.next := by
        refine Nat.lt_of_not_le fun hle => ?_
        cases hs.symm.trans (hH.fresh o hle).2.2
      have hne : H.next ≠ o := Nat.ne_of_gt hlt
      have hs' := (hold o hne.symm).trans hs
      refine ⟨_, _, rfl, grows_newDstring hH bytes, .leaf (Option.isSome_iff_exists.mpr ⟨_, hnew⟩) ?_,
        .leaf (Option.isSome_iff_exists.mpr ⟨_, hnew⟩) (Option.isSome_iff_exists.mpr ⟨_, hs'⟩)
          (.inr ⟨_, o, bytes, rfl, rfl, hne, hnew, hs'⟩)⟩
      rintro _ ⟨⟩
      exact .inl (Nat.le_refl _)
  | weakref => exact hv.elim
  | _ => exact hplain rfl

/-- An item of a new container `a`, as the clone of an item of the source. -/
structure IsItem (O : Objects) (n : Nat) (a : ObjId) (H : ObjectHeap) (x y : Value) : Prop where
  source : H.IsTree O (· < a) n x
  tree : H.IsTree O (fun o => a < o ∨ O.isString o) n y
  equal : H.Equal (LeafClone H) y x

variable {x y : Value}

theorem IsItem.congr (hH : H.Ok O) (hold : ∀ o < a, SameObject H H' o)
    (hnew : ∀ o, (a < o ∨ O.isString o) ∧ o < H.next → SameObject H H' o) (h : IsItem O n a H x y) :
    IsItem O n a H' x y where
  source := h.source.congr hold fun _ ho => ho
  tree := (h.tree.made hH).congr hnew fun _ ho => ho.1
  equal := h.equal.keeps hH hnew hold (h.tree.made hH) h.source

theorem IsItem.grows (hH : H.Ok O) (hg : Grows O H H') (ha : a ≤ H.next) (h : IsItem O n a H x y) :
    IsItem O n a H' x y :=
  h.congr hH (fun o ho => hg.old o (Nat.lt_of_lt_of_le ho ha)) fun o ho => hg.old o ho.2

theorem IsItem.changes (hH : H.Ok O) (hstring : O.isString a = false) (hc : Changes O a H H') (h : IsItem O n a H x y) :
    IsItem O n a H' x y := by
  refine h.congr hH (fun o ho => hc.others o (Nat.ne_of_lt ho)) ?_
  rintro o ⟨hlt | hs, -⟩
  · exact hc.others o (Nat.ne_of_gt hlt)
  · refine hc.others o ?_
    rintro rfl
    cases hstring.symm.trans hs

/-- The clone of an item of the source, which is made when the container is. -/
theorem IsClone.item (h : IsClone O n H H' x y) (hx : H.IsTree O (· < a) n x) (ha : a < H.next) :
    IsItem O n a H' x y where
  source := hx.congr (fun o ho => h.grows.old o (ho.trans ha)) fun _ ho => ho
  tree := h.tree.congr (fun _ _ => .refl) fun _ ho => ho.imp (Nat.lt_of_lt_of_le ha) id
  equal := h.equal

/-- The new array after `i` turns. -/
structure ArrayClone (O : Objects) (n : Nat) (vs : List Value) (H : ObjectHeap) (i : Nat) (H' : ObjectHeap) : Prop where
  grows : Grows O H H'
  made : H.next < H'.next
  items : ∃ us, H'.array H.next = some us ∧ us.length = i ∧
    ∀ (j : Nat) x y, vs[j]? = some x → us[j]? = some y → IsItem O n H.next H' x y

/-- The new table after `i` turns. -/
structure TableClone (O : Objects) (n : Nat) (t : Table) (H : ObjectHeap) (i : Nat) (H' : ObjectHeap) : Prop where
  grows : Grows O H H'
  made : H.next < H'.next
  items : ∃ u, H'.table H.next = some u ∧ u.Inv O ∧
    (∀ k, (∃ y, u.Holds k y) ↔ ∃ j < i, (t.items j).key = k) ∧
      ∀ k x y, t.Holds k x → u.Holds k y → IsItem O n H.next H' x y

theorem Ok.next_not_string (hH : H.Ok O) : O.isString H.next = false := by
  have hnone : H.texts.pool.object H.next = none := hH.pool.pooled.fresh _ (Nat.le_refl _)
  rw [hH.strings, hnone]
  rfl

/-- One turn of the loop over an array: the clone of the next item is appended. -/
theorem ArrayClone.step (hH : H.Ok O) {vs : List Value} {i : Nat} (h : ArrayClone O n vs H i H') (hx : vs[i]? = some x)
    (hsource : H.IsTree O (· < H.next) n x) (hclone : IsClone O n H' H'' x y) :
    ∃ J, H''.setItem H.next i y = .ok J ∧ ArrayClone O n vs H (i + 1) J := by
  obtain ⟨us, hus, rfl, hitems⟩ := h.items
  have hH' := h.grows.ok
  have hus' : H''.array H.next = some us := ((hclone.grows.old _ h.made).array).trans hus
  have hitem : IsItem O n H.next H'' x y :=
    hclone.item (hsource.congr (fun o ho => h.grows.old o ho) fun _ ho => ho) h.made
  obtain ⟨J, hJ, hchanges, harray⟩ := setItem_length hclone.grows.ok hus' hclone.tree.copy_eq
  refine ⟨J, hJ, hchanges.grows (h.grows.trans hclone.grows) (Nat.le_refl _), ?_, us ++ [y], harray, ?_, ?_⟩
  · rw [hchanges.next]
    exact Nat.lt_of_lt_of_le h.made hclone.grows.next
  · rw [List.length_append]
    rfl
  · intro j x' y' hx' hy'
    -- The items are trees without the new array, so that they are as before the store.
    refine IsItem.changes hclone.grows.ok hH.next_not_string hchanges ?_
    rcases Nat.lt_or_ge j us.length with hj | hj
    · rw [List.getElem?_append_left hj] at hy'
      exact (hitems j x' y' hx' hy').grows hH' hclone.grows h.made.le
    · have hj' := (List.getElem?_eq_some_iff.mp hy').1
      rw [List.length_append] at hj'
      obtain rfl : j = us.length := Nat.le_antisymm (Nat.le_of_lt_succ hj') hj
      rw [List.getElem?_append_right (Nat.le_refl _), Nat.sub_self] at hy'
      cases hx.symm.trans hx'
      cases hy'
      exact hitem

/-- One turn of the loop over a table: the clone of the next value is set. -/
theorem TableClone.step (hH : H.Ok O) {t : Table} (ht : t.Inv O) {i : Nat} (hi : i < t.length)
    (h : TableClone O n t H i H') (hsource : H.IsTree O (· < H.next) n (t.items i).value)
    (hclone : IsClone O n H' H'' (t.items i).value y) :
    ∃ J, H''.setindex O H.next (t.items i).key y = .ok J ∧ TableClone O n t H (i + 1) J := by
  obtain ⟨u, hu, hinv, hkeys, hitems⟩ := h.items
  have hH' := h.grows.ok
  have hu' : H''.table H.next = some u := ((hclone.grows.old _ h.made).table).trans hu
  have hitem : IsItem O n H.next H'' (t.items i).value y :=
    hclone.item (hsource.congr (fun o ho => h.grows.old o ho) fun _ ho => ho) h.made
  obtain ⟨J, hJ, hchanges, htable⟩ := setindex_ok hclone.grows.ok hu' (t.items i).key y
  have hplain := ht.plain i hi
  refine ⟨J, hJ, hchanges.grows (h.grows.trans hclone.grows) (Nat.le_refl _), ?_, _, htable, hinv.setIndex hplain y,
    fun k => ?_, fun k x' y' hx' hy' => ?_⟩
  · rw [hchanges.next]
    exact Nat.lt_of_lt_of_le h.made hclone.grows.next
  · simp only [hinv.holds_setIndex hplain y, Nat.lt_succ_iff_lt_or_eq]
    constructor
    · rintro ⟨v, ⟨rfl, -⟩ | ⟨-, hv⟩⟩
      · exact ⟨i, .inr rfl, rfl⟩
      · obtain ⟨j, hj, hk⟩ := (hkeys k).mp ⟨v, hv⟩
        exact ⟨j, .inl hj, hk⟩
    · rintro ⟨j, hj, rfl⟩
      -- A key that is set twice stays where it was.
      by_cases heq : (t.items j).key = (t.items i).key
      · exact ⟨_, .inl ⟨heq, rfl⟩⟩
      · rcases hj with hj | rfl
        · obtain ⟨v, hv⟩ := (hkeys _).mpr ⟨j, hj, rfl⟩
          exact ⟨v, .inr ⟨heq, hv⟩⟩
        · exact absurd rfl heq
  · refine IsItem.changes hclone.grows.ok hH.next_not_string hchanges ?_
    rcases (hinv.holds_setIndex hplain y).mp hy' with ⟨rfl, rfl⟩ | ⟨-, hy'⟩
    · rw [hclone.tree.copy_eq, ht.holds_unique hx' ⟨i, hi, rfl, rfl⟩]
      exact hitem
    · exact (hitems k x' y' hx' hy').grows hH' hclone.grows h.made.le

/-! ## The outcome -/

theorem deepclone_leaf {level : Nat} (hlevel : level ≤ 1000) (hx : H.array? x = none ∧ H.table? x = none) :
    deepclone O level x H = H.clone x := by
  rw [deepclone, if_neg (Nat.not_lt.mpr hlevel), hx.1, hx.2]

theorem deepclone_array {level : Nat} (hlevel : level ≤ 1000) {vs : List Value} (hx : H.array? x = some vs)
    (hloop : (List.range vs.length).foldlM (fun J i => do
      let (v, J) ← deepclone O (level + 1) (← J.item x i) J
      J.setItem H.next i v) H.newArray = .ok H') : deepclone O level x H = .ok (.objref H.next, H') := by
  rw [deepclone, if_neg (Nat.not_lt.mpr hlevel), hx]
  dsimp only
  rw [hloop]
  rfl

theorem deepclone_table {level : Nat} (hlevel : level ≤ 1000) {t : Table} (hnone : H.array? x = none)
    (hx : H.table? x = some t)
    (hloop : (List.range t.length).foldlM (fun J i => do
      let k ← J.key x i
      let (v, J) ← deepclone O (level + 1) (← J.index x i) J
      J.setindex O H.next k v) H.newTable = .ok H') : deepclone O level x H = .ok (.objref H.next, H') := by
  rw [deepclone, if_neg (Nat.not_lt.mpr hlevel), hnone, hx]
  dsimp only
  rw [hloop]
  rfl

theorem IsTree.index (hH : H.Ok O) (hv : H.IsTree O S n (.objref o)) {t : Table} (htable : H.table o = some t) {i : Nat}
    (hi : i < t.length) : H.index (.objref o) i = .ok (t.items i).value := by
  unfold ObjectHeap.index
  rw [show H.table? (.objref o) = some t from htable]
  dsimp only
  rw [if_pos hi, ((hv.entries hH htable).2.2 _ _ ⟨i, hi, rfl, rfl⟩).copy_eq]

section Containers

variable {level : Nat} (hH : H.Ok O) (hx : H.IsTree O (· < H.next) n (.objref o)) (hlevel : level ≤ 1000)
  (hinner : 0 < n → ∀ J v, J.Ok O → J.IsTree O (· < H.next) (n - 1) v →
    ∃ y J', deepclone O (level + 1) v J = .ok (y, J') ∧ IsClone O (n - 1) J J' v y)

include hH hx hlevel hinner

theorem deepclone_array_isClone {vs : List Value} (harray : H.array o = some vs) :
    ∃ y H', deepclone O level (.objref o) H = .ok (y, H') ∧ IsClone O n H H' (.objref o) y := by
  obtain ⟨hgrows, hnew⟩ := grows_newArray hH
  obtain ⟨hdeep, hitems⟩ := hx.items hH harray
  have hstart : ArrayClone O (n - 1) vs H 0 H.newArray :=
    ⟨hgrows, Nat.lt_succ_self _, [], hnew, rfl, fun j x y _ hy => by cases hy⟩
  have hstep (i : Nat) (hi : i < vs.length) (J : ObjectHeap) (hJ : ArrayClone O (n - 1) vs H i J) :
      ∃ K, (do
        let (v, J') ← deepclone O (level + 1) (← J.item (.objref o) i) J
        J'.setItem H.next i v) = .ok K ∧ ArrayClone O (n - 1) vs H (i + 1) K := by
    have hv := List.getElem?_eq_getElem hi
    have hmem := List.getElem_mem hi
    have hpos : 0 < n := hdeep.resolve_left (List.ne_nil_of_mem hmem)
    have htree : J.IsTree O (· < H.next) n (.objref o) := hx.congr (fun o ho => hJ.grows.old o ho) fun _ ho => ho
    have harray' : J.array o = some vs := (hJ.grows.old o (hx.obj rfl)).array.trans harray
    obtain ⟨y, J', hy, hclone⟩ := hinner hpos J _ hJ.grows.ok ((htree.items hJ.grows.ok harray').2 _ hmem)
    obtain ⟨K, hK, hnext⟩ := hJ.step hH hv (hitems _ hmem) hclone
    refine ⟨K, ?_, hnext⟩
    rw [htree.item hJ.grows.ok harray' hv]
    dsimp only [bind, Except.bind]
    rw [hy]
    exact hK
  obtain ⟨H', hloop, hgrows', -, us, hus, hlength, hclones⟩ := foldlM_range hstart hstep
  refine ⟨_, H', deepclone_array hlevel harray hloop, hgrows', ?_, ?_⟩
  · refine .array hus (.inl (Nat.le_refl _)) ?_ fun u hu => ?_
    · rw [← List.length_eq_zero_iff, hlength, List.length_eq_zero_iff]
      exact hdeep
    · obtain ⟨j, hj⟩ := List.getElem?_of_mem hu
      have hj' := (List.getElem?_eq_some_iff.mp hj).1
      exact (hclones j _ u (List.getElem?_eq_getElem (hlength ▸ hj')) hj).tree.congr (fun _ _ => .refl)
        fun _ ho => ho.imp Nat.le_of_lt id
  · exact .array hus ((hgrows'.old o (hx.obj rfl)).array.trans harray) hlength fun j u v hu hv =>
      (hclones j v u hv hu).equal

theorem deepclone_table_isClone {t : Table} (htable : H.table o = some t) :
    ∃ y H', deepclone O level (.objref o) H = .ok (y, H') ∧ IsClone O n H H' (.objref o) y := by
  obtain ⟨hgrows, hnew⟩ := grows_newTable hH
  obtain ⟨hinv, hdeep, hitems⟩ := hx.entries hH htable
  have hempty : ∀ k y, ¬ Table.empty.Holds k y := by
    rintro k y ⟨i, hi, -⟩
    exact Nat.not_lt_zero i hi
  have hstart : TableClone O (n - 1) t H 0 H.newTable := by
    refine ⟨hgrows, Nat.lt_succ_self _, _, hnew, Table.Inv.empty, fun k => ?_, fun k x y _ hy => absurd hy (hempty k y)⟩
    exact iff_of_false (fun ⟨y, hy⟩ => hempty k y hy) fun ⟨j, hj, _⟩ => Nat.not_lt_zero j hj
  have hstep (i : Nat) (hi : i < t.length) (J : ObjectHeap) (hJ : TableClone O (n - 1) t H i J) :
      ∃ K, (do
        let k ← J.key (.objref o) i
        let (v, J') ← deepclone O (level + 1) (← J.index (.objref o) i) J
        J'.setindex O H.next k v) = .ok K ∧ TableClone O (n - 1) t H (i + 1) K := by
    have hholds : t.Holds (t.items i).key (t.items i).value := ⟨i, hi, rfl, rfl⟩
    have hpos : 0 < n := hdeep.resolve_left (Nat.ne_of_gt (Nat.zero_lt_of_lt hi))
    have htree : J.IsTree O (· < H.next) n (.objref o) := hx.congr (fun o ho => hJ.grows.old o ho) fun _ ho => ho
    have htable' : J.table o = some t := (hJ.grows.old o (hx.obj rfl)).table.trans htable
    obtain ⟨y, J', hy, hclone⟩ := hinner hpos J _ hJ.grows.ok ((htree.entries hJ.grows.ok htable').2.2 _ _ hholds)
    obtain ⟨K, hK, hnext⟩ := hJ.step hH hinv hi (hitems _ _ hholds) hclone
    refine ⟨K, ?_, hnext⟩
    rw [htree.key hJ.grows.ok htable' hi]
    dsimp only [bind, Except.bind]
    rw [htree.index hJ.grows.ok htable' hi]
    dsimp only
    rw [hy]
    exact hK
  obtain ⟨H', hloop, hgrows', -, u, hu, huinv, hkeys, hclones⟩ := foldlM_range hstart hstep
  have hsame : ∀ k, (∃ y, u.Holds k y) ↔ ∃ x, t.Holds k x := by
    intro k
    rw [hkeys k]
    constructor
    · rintro ⟨j, hj, rfl⟩
      exact ⟨_, j, hj, rfl, rfl⟩
    · rintro ⟨x, j, hj, rfl, -⟩
      exact ⟨j, hj, rfl⟩
  have hnone : H.array? (.objref o) = none := hH.no_array htable
  refine ⟨_, H', deepclone_table hlevel hnone htable hloop, hgrows', ?_, ?_⟩
  · refine .table hu (.inl (Nat.le_refl _)) huinv ?_ fun k y hy => ?_
    · rw [((huinv.same_keys_iff hinv).mp hsame).1]
      exact hdeep
    · obtain ⟨x, hx⟩ := (hsame k).mp ⟨y, hy⟩
      exact (hclones k x y hx hy).tree.congr (fun _ _ => .refl) fun _ ho => ho.imp Nat.le_of_lt id
  · exact .table hu ((hgrows'.old o (hx.obj rfl)).table.trans htable) hsame fun k y x hy hx => (hclones k x y hx hy).equal

end Containers

/-- Trees that are not too deep are cloned. -/
theorem deepclone_isClone (hH : H.Ok O) (hx : H.IsTree O S n x) (level : Nat) (hlevel : level + n ≤ 1000) :
    ∃ y H', deepclone O level x H = .ok (y, H') ∧ IsClone O n H H' x y := by
  -- By the depth, for every heap: the items are cloned in heaps that have the clones of those before them.
  induction n using Nat.strong_induction_on generalizing level S x H with
  | _ n ih =>
    have hle : level ≤ 1000 := Nat.le_trans (Nat.le_add_right level n) hlevel
    have hold : H.IsTree O (· < H.next) n x := (hx.made hH).congr (fun _ _ => .refl) fun _ ho => ho.2
    have hinner (hpos : 0 < n) (J : ObjectHeap) (v : Value) (hJ : J.Ok O) (hv : J.IsTree O (· < H.next) (n - 1) v) :
        ∃ y J', deepclone O (level + 1) v J = .ok (y, J') ∧ IsClone O (n - 1) J J' v y :=
      ih (n - 1) (Nat.sub_one_lt_of_lt hpos) hJ hv (level + 1) (by omega)
    cases hx with
    | leaf hleaf _ =>
      rw [deepclone_leaf hle (hleaf.not_container hH)]
      exact clone_leaf hH hleaf
    | array harray => exact deepclone_array_isClone hH hold hle hinner harray
    | table htable => exact deepclone_table_isClone hH hold hle hinner htable

/-! ## What clones have in common with their source -/

/-- The clone leads to no object that can change and that the source leads to. -/
theorem IsClone.apart (hH : H.Ok O) (hx : H.IsTree O S n x) (h : IsClone O n H H' x y) (hmutable : H'.Mutable o)
    (hsource : H'.Within x (.objref o)) : ¬ H'.Within y (.objref o) := by
  intro hclone
  have hx' : H'.IsTree O (· < H.next) n x := (hx.made hH).congr (fun o ho => h.grows.old o ho.2) fun _ ho => ho.2
  obtain ⟨_, hold⟩ := hx'.within h.grows.ok hsource
  obtain ⟨_, hnew⟩ := h.tree.within h.grows.ok hclone
  rcases hnew.obj rfl with hle | hstring
  · exact absurd (hold.obj rfl) (Nat.not_lt.mpr hle)
  · obtain ⟨bytes, hbytes⟩ := h.grows.ok.isString_iff.mp hstring
    rcases hmutable with harray | htable | ⟨_, hdstring⟩
    · obtain ⟨vs, hvs⟩ := Option.isSome_iff_exists.mp harray
      cases hbytes.symm.trans (h.grows.ok.array o vs hvs).2
    · obtain ⟨t, ht⟩ := Option.isSome_iff_exists.mp htable
      cases hbytes.symm.trans (h.grows.ok.table o t ht)
    · cases hbytes.symm.trans hdstring

theorem Place.within {a b : Value} (h : H.Place l r a b) : H.Within r b := by
  induction h with
  | leaf => exact .refl
  | array _ hr _ hu' _ ih => exact .array hr (List.mem_of_getElem? hu') ih
  | table _ hr _ hu' _ ih => exact .table hr hu' ih

/-- A leaf of one of two trees that are equal has its counterpart. -/
theorem Equal.place {leaf : Value → Value → Prop} (hH : H.Ok O) (h : H.Equal leaf l r) {b : Value} (hb : H.Within r b)
    (hleaf : H.IsLeaf b) : ∃ a, H.Place l r a b ∧ leaf a b := by
  induction h with
  | leaf hl hr h =>
    cases hb with
    | refl => exact ⟨_, .leaf hl hr, h⟩
    | array harray => exact absurd hr (hH.not_leaf_of_array harray)
    | table htable => exact absurd hr (hH.not_leaf_of_table htable)
  | array hl hr hlength _ ih =>
    cases hb with
    | refl => exact absurd hleaf (hH.not_leaf_of_array hr)
    | array harray hu hb =>
      cases hr.symm.trans harray
      obtain ⟨i, hi⟩ := List.getElem?_of_mem hu
      have hv := List.getElem?_eq_getElem (hlength ▸ (List.getElem?_eq_some_iff.mp hi).1)
      obtain ⟨a, hplace, ha⟩ := ih i _ _ hv hi hb
      exact ⟨a, .array hl hr hv hi hplace, ha⟩
    | table htable => exact absurd htable (hH.no_table hr)
  | table hl hr hkeys _ ih =>
    cases hb with
    | refl => exact absurd hleaf (hH.not_leaf_of_table hr)
    | array harray => exact absurd hr (hH.no_table harray)
    | table htable hu hb =>
      cases hr.symm.trans htable
      obtain ⟨v, hv⟩ := (hkeys _).mpr ⟨_, hu⟩
      obtain ⟨a, hplace, ha⟩ := ih _ _ _ hv hu hb
      exact ⟨a, .table hl hr hv hu hplace, ha⟩

theorem LeafClone.alike (h : LeafClone H l r) (hr : H.IsLeaf r) : Alike R H l r := by
  rcases h with ⟨rfl, -⟩ | ⟨o, o', s, rfl, rfl, -, hs, hs'⟩
  · exact .refl hr
  · exact ⟨_, _, hs, hs', rfl⟩

theorem LeafClone.twins (h : LeafClone H l r) (hr : UnlikeClone H r) : Twins H l r := by
  rcases h with ⟨rfl, hno⟩ | ⟨o, o', s, rfl, rfl, hne, hs, hs'⟩
  · rcases hr with ⟨a, rfl, hnan⟩ | ⟨o, s, rfl, hs⟩
    · exact .inl ⟨a, rfl, rfl, hnan⟩
    · exact absurd hs (hno o s rfl)
  · exact .inr ⟨o, o', s, rfl, rfl, hne, hs, hs'⟩

theorem Twins.unlikeClone (h : Twins H l r) : UnlikeClone H r := by
  rcases h with ⟨a, -, rfl, hnan⟩ | ⟨o, o', s, -, rfl, -, -, hs'⟩
  · exact .inl ⟨a, rfl, hnan⟩
  · exact .inr ⟨o', s, rfl, hs'⟩

theorem UnlikeClone.isLeaf (h : UnlikeClone H v) : H.IsLeaf v := by
  rcases h with ⟨a, rfl, -⟩ | ⟨o, s, rfl, hs⟩
  · trivial
  · exact Option.isSome_iff_exists.mpr ⟨_, hs⟩

theorem Equal.mono {leaf leaf' : Value → Value → Prop} (hleaf : ∀ l r, H.IsLeaf r → leaf l r → leaf' l r)
    (h : H.Equal leaf l r) : H.Equal leaf' l r := by
  induction h with
  | leaf hl hr h => exact .leaf hl hr (hleaf _ _ hr h)
  | array hl hr hlength _ ih => exact .array hl hr hlength ih
  | table hl hr hkeys _ ih => exact .table hl hr hkeys ih

/-- A tree is equal to its clone if all its leaves are. -/
theorem identical_clone_iff (hH : H.Ok O) (h : H.Equal (LeafClone H) y x) :
    Identical R H y x ↔ ∀ v, H.Within x v → ¬ UnlikeClone H v := by
  have hiff : Identical R H y x ↔ _ := equal_and_iff hH
  rw [hiff]
  constructor
  · rintro ⟨-, htwins⟩ v hv hunlike
    obtain ⟨u, hplace, hclone⟩ := h.place hH hv hunlike.isLeaf
    exact htwins u v hplace (hclone.twins hunlike)
  · intro hall
    exact ⟨h.mono fun _ _ hr hclone => hclone.alike hr, fun u v hplace htwins =>
      hall v hplace.within htwins.unlikeClone⟩

theorem SameObject.symm (h : SameObject H H' o) : SameObject H' H o := ⟨h.array.symm, h.table.symm, h.text.symm⟩

theorem Within.congr (hH : H.Ok O) (hsame : ∀ o, S o → SameObject H H' o) (hx : H.IsTree O S n x)
    (h : H.Within x v) : H'.Within x v := by
  induction h generalizing n with
  | refl => exact .refl
  | array harray hu _ ih =>
    exact .array ((hsame _ (hx.obj rfl)).array.trans harray) hu (ih ((hx.items hH harray).2 _ hu))
  | table htable hu _ ih =>
    exact .table ((hsame _ (hx.obj rfl)).table.trans htable) hu (ih ((hx.entries hH htable).2.2 _ _ hu))

theorem UnlikeClone.congr (hv : ∀ o, v = .objref o → SameObject H H' o) (h : UnlikeClone H v) : UnlikeClone H' v := by
  rcases h with ⟨a, rfl, hnan⟩ | ⟨o, s, rfl, hs⟩
  · exact .inl ⟨a, rfl, hnan⟩
  · exact .inr ⟨o, s, rfl, (hv o rfl).text.trans hs⟩

/-- What trees lead to does not depend on other objects. -/
theorem IsTree.unlikeClone_congr (hH : H.Ok O) (hsame : ∀ o, S o → SameObject H H' o)
    (hx : H.IsTree O S n x) (hall : ∀ v, H'.Within x v → ¬ UnlikeClone H' v) {v : Value} (hv : H.Within x v) :
    ¬ UnlikeClone H v := by
  intro hunlike
  obtain ⟨_, htree⟩ := hx.within hH hv
  exact hall v (hv.congr hH hsame hx) (hunlike.congr fun o ho => hsame o (htree.obj ho))

/-- Clones compare as equal to their source, but for dynamic strings and what is not a number. -/
theorem clones_iff (hH : H.Ok O) (hx : H.IsTree O S n x) (hn : n ≤ 1000) :
    Clones O R H x ↔ ∀ v, H.Within x v → ¬ UnlikeClone H v := by
  obtain ⟨y, H', hy, hclone⟩ := deepclone_isClone hH hx 0 (by omega)
  have hH' := hclone.grows.ok
  have hmade : H.IsTree O (· < H.next) n x := (hx.made hH).congr (fun _ _ => .refl) fun _ ho => ho.2
  have hsame : ∀ o < H.next, SameObject H H' o := hclone.grows.old
  have hx' : H'.IsTree O (· < H.next) n x := hmade.congr hsame fun _ ho => ho
  have hcompare : deepcompare O R H' 0 y x = .ok true ↔ _ :=
    (outcome hH' hclone.tree hx' 0 (by omega)).iff.trans (identical_clone_iff hH' hclone.equal)
  constructor
  · rintro ⟨y', J, hy', -, hequal⟩ v hv
    cases hy.symm.trans hy'
    exact hmade.unlikeClone_congr hH hsame (hcompare.mp hequal) hv
  · intro hall
    refine ⟨y, H', hy, fun o => hclone.apart hH hx, hcompare.mpr fun v hv => ?_⟩
    exact hx'.unlikeClone_congr hH' (fun o ho => (hsame o ho).symm) hall hv

/-- `deepcompare` returns whether two trees have the same structure, unless it misses a key before it meets a
difference, or they have twins in the same place. A tree is equal to itself but for what is not a number. The
order does not matter if keys are missed either way or neither. And clones are as they should be, unless there
are dynamic strings, or what is not a number. -/
theorem deep_iff (hH : H.Ok O) (hl : H.IsTree O (fun _ => True) n l) (hr : H.IsTree O (fun _ => True) m r)
    (hn : n ≤ 1000) (hm : m ≤ 1000) :
    (Compares O R H l r ↔
      ¬ Missing R H l r ∧ (SameStructure R H l r → ∀ v v', H.Place l r v v' → ¬ Twins H v v')) ∧
      (deepcompare O R H 0 l l = .ok true ↔ ∀ a, H.Within l (.real a) → Value.realEq a a = true) ∧
      (deepcompare O R H 0 l r = deepcompare O R H 0 r l ↔ (Missing R H l r ↔ Missing R H r l)) ∧
      (Clones O R H l ↔ ∀ v, H.Within l v → ¬ UnlikeClone H v) :=
  ⟨compares_iff hH hl hr hn, deepcompare_self_iff hH hl hn, deepcompare_comm_iff hH hl hr hn hm, clones_iff hH hl hn⟩

end Growing

/-! ## Two tables -/

/-- No object is a string. -/
def noStrings : Objects := ⟨fun _ => false, fun _ => 0, fun _ _ => none, fun _ => 0⟩

/-- `{(k, 1)}`. -/
def oneItem (k : BitVec 32) : Table := Table.empty.setIndex noStrings (.integer k) (.integer 1)

/-- Two tables of one item, under different keys. -/
def twoTables : ObjectHeap where
  texts := ⟨{ StringPool.open with next := 2 }, fun _ => none⟩
  array _ := none
  table
    | 0 => some (oneItem 1)
    | 1 => some (oneItem 2)
    | _ => none

theorem integer_plain (k : BitVec 32) : (Value.integer k).PlainKey noStrings := trivial

theorem oneItem_inv (k : BitVec 32) : (oneItem k).Inv noStrings := Table.Inv.empty.setIndex (integer_plain k) _

theorem oneItem_holds {k : BitVec 32} {key value : Value} :
    (oneItem k).Holds key value ↔ key = .integer k ∧ value = .integer 1 := by
  have hempty : ¬ Table.empty.Holds key value := by
    rintro ⟨i, hi, -⟩
    exact Nat.not_lt_zero i hi
  unfold oneItem
  rw [Table.Inv.empty.holds_setIndex (integer_plain k) (.integer 1)]
  exact ⟨fun h => h.resolve_right fun h => hempty h.2, .inl⟩

theorem twoTables_ok : twoTables.Ok noStrings where
  pool :=
    { pooled := ⟨StringPool.Inv.open.pooled.mem_bucket, StringPool.Inv.open.pooled.bucket_nodup,
        StringPool.Inv.open.pooled.wf, StringPool.Inv.open.pooled.distinct, fun _ _ => rfl⟩
      cached := ⟨StringPool.Inv.open.cached.mem_scache, StringPool.Inv.open.cached.nodup,
        StringPool.Inv.open.cached.size_eq⟩ }
  strings _ := rfl
  array := by rintro _ _ ⟨⟩
  table _ _ _ := rfl
  fresh
    | _ + 2, _ => ⟨rfl, rfl, rfl⟩

theorem twoTables_isTree {o : ObjId} {k : BitVec 32} (h : twoTables.table o = some (oneItem k)) :
    twoTables.IsTree noStrings (fun _ => True) 1 (.objref o) := by
  refine .table h trivial (oneItem_inv k) (.inr Nat.one_pos) fun key value hholds => ?_
  obtain ⟨-, rfl⟩ := oneItem_holds.mp hholds
  exact .leaf trivial fun _ _ => trivial

/-- What the first table leads to. -/
theorem twoTables_within {v : Value} (h : twoTables.Within (.objref 0) v) : v = .objref 0 ∨ v = .integer 1 := by
  cases h with
  | refl => exact .inl rfl
  | array harray => cases harray
  | table htable hu h =>
    cases htable
    obtain ⟨-, rfl⟩ := oneItem_holds.mp hu
    cases h
    exact .inr rfl

/-- A table is equal to itself, and to its clone. -/
theorem deep_iff_twoTables :
    deepcompare noStrings Classes.bare.real twoTables 0 (.objref 0) (.objref 0) = .ok true ∧
      Clones noStrings Classes.bare.real twoTables (.objref 0) := by
  have htree := twoTables_isTree (o := 0) (k := 1) rfl
  obtain ⟨-, hself, -, hclones⟩ := deep_iff (R := Classes.bare.real) twoTables_ok htree htree (by decide) (by decide)
  refine ⟨hself.mpr fun a ha => ?_, hclones.mpr fun v hv => ?_⟩
  · rcases twoTables_within ha with h | h <;> cases h
  · rintro (⟨a, rfl, -⟩ | ⟨o, s, rfl, hs⟩)
    · rcases twoTables_within hv with h | h <;> cases h
    · cases hs

/-- The tables are trees, and to compare them throws. -/
theorem not_deep_keys :
    twoTables.Ok noStrings ∧ twoTables.IsTree noStrings (fun _ => True) 1 (.objref 0) ∧
      twoTables.IsTree noStrings (fun _ => True) 1 (.objref 1) ∧
      deepcompare noStrings Classes.bare.real twoTables 0 (.objref 0) (.objref 1) = .error (.xno Xno.wrongIndex) ∧
      ¬ Compares noStrings Classes.bare.real twoTables (.objref 0) (.objref 1) := by
  have hl := twoTables_isTree (o := 0) (k := 1) rfl
  have hr := twoTables_isTree (o := 1) (k := 2) rfl
  have hmissing : Missing Classes.bare.real twoTables (.objref 0) (.objref 1) := by
    have hlength : ∀ k, (oneItem k).length = 1 := fun _ => rfl
    refine .key (i := 0) rfl rfl rfl Nat.one_pos (fun j hj => absurd hj (Nat.not_lt_zero j)) fun v hv => ?_
    have hkey := (oneItem_holds.mp ⟨0, Nat.one_pos, rfl, rfl⟩ : ((oneItem 1).items 0).key = .integer 1 ∧ _).1
    cases hkey.symm.trans (oneItem_holds.mp hv).1
  have hthrown := (outcome twoTables_ok hl hr 0 (by decide)).thrown hmissing
  refine ⟨twoTables_ok, hl, hr, hthrown, ?_⟩
  rintro ⟨b, hb, -⟩
  cases hb.symm.trans hthrown

end ObjectHeap

end Eel
