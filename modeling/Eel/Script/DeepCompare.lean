-- SUMMARY: Comparing trees: when deepcompare returns, and when what it returns is whether the trees have the same structure.
import Eel.Core.TableKeys
import Eel.Lib.ForLoops
import Eel.Script.ObjectHeap

/-!
# Deep comparison

The items of an array are compared by their indexes, and those of a table by the keys of the
table to the left. A key that the other table does not have is not a difference: the index
operator throws.
-/

namespace Eel

def Xno.needTable : Xno := 37

namespace ObjectHeap

open ForLoops

/-! ## The code -/

/-- `v[i]`, of an array. -/
def item (H : ObjectHeap) (v : Value) (i : Nat) : Except Thrown Value :=
  match H.array? v with
  | none => .error (.xno Xno.cantIndex)
  | some vs =>
    match vs[i]? with
    | none => .error (.xno Xno.highIndex)
    | some u => .ok u.copy

/-- `v[k]`, of a table. -/
def getindex (O : Objects) (H : ObjectHeap) (v k : Value) : Except Thrown Value :=
  match H.table? v with
  | none => .error (.xno Xno.cantIndex)
  | some t => (t.getIndex O k).mapError .xno

/-- `key(v, i)`. -/
def key (H : ObjectHeap) (v : Value) (i : Nat) : Except Thrown Value :=
  match H.table? v with
  | none => .error (.xno Xno.needTable)
  | some t => if i < t.length then .ok (t.items i).key.copy else .error (.xno Xno.highIndex)

/-- `deepcompare`. -/
def deepcompare (O : Objects) (R : Reals) (H : ObjectHeap) (level : Nat) (l r : Value) : Except Thrown Bool :=
  if 1000 < level then .error (.text "deepcompare(): Infinite recursion aborted!")
  else
    match H.array? l, H.table? l with
    | some vs, _ =>
      match H.array? r with
      | none => .ok false
      | some vs' =>
        if vs.length ≠ vs'.length then .ok false
        else checkAll (fun i => do deepcompare O R H (level + 1) (← H.item l i) (← H.item r i)) (List.range vs.length)
    | none, some t =>
      match H.table? r with
      | none => .ok false
      | some t' =>
        if t.length ≠ t'.length then .ok false
        else
          checkAll (fun i => do
            let k ← H.key l i
            deepcompare O R H (level + 1) (← H.getindex O l k) (← H.getindex O r k)) (List.range t.length)
    | none, none => H.equal R l r
termination_by 1001 - level

/-! ## What is meant -/

/-- Trees of the same shape, with leaves of the same contents. -/
def SameStructure (R : Reals) (H : ObjectHeap) : Value → Value → Prop := H.Equal (Alike R H)

/-- And with none in the same places that have the same contents and are not equal. -/
def Identical (R : Reals) (H : ObjectHeap) : Value → Value → Prop :=
  H.Equal fun l r => Alike R H l r ∧ ¬ Twins H l r

/-- `deepcompare` returns a boolean, which is whether two trees have the same structure. -/
def Compares (O : Objects) (R : Reals) (H : ObjectHeap) (l r : Value) : Prop :=
  ∃ b, deepcompare O R H 0 l r = .ok b ∧ (b = true ↔ SameStructure R H l r)

/-- Two tables of the same length are compared, and one that comes before the first difference has a key that the
other one lacks. -/
inductive Missing (R : Reals) (H : ObjectHeap) : Value → Value → Prop
  | key {o o' t t' i} (hl : H.table o = some t) (hr : H.table o' = some t') (hlength : t.length = t'.length)
      (hi : i < t.length)
      (hbefore : ∀ j < i, ∃ v, t'.Holds (t.items j).key v ∧ Identical R H (t.items j).value v)
      (h : ∀ v, ¬ t'.Holds (t.items i).key v) : Missing R H (.objref o) (.objref o')
  | array {o o' vs vs' v v'} {i : Nat} (hl : H.array o = some vs) (hr : H.array o' = some vs')
      (hlength : vs.length = vs'.length)
      (hbefore : ∀ (j : Nat) u u', j < i → vs[j]? = some u → vs'[j]? = some u' → Identical R H u u')
      (hv : vs[i]? = some v) (hv' : vs'[i]? = some v') (h : Missing R H v v') : Missing R H (.objref o) (.objref o')
  | table {o o' t t' i v'} (hl : H.table o = some t) (hr : H.table o' = some t') (hlength : t.length = t'.length)
      (hi : i < t.length)
      (hbefore : ∀ j < i, ∃ v, t'.Holds (t.items j).key v ∧ Identical R H (t.items j).value v)
      (hv' : t'.Holds (t.items i).key v') (h : Missing R H (t.items i).value v') :
      Missing R H (.objref o) (.objref o')

/-! ## What each piece of the code answers -/

section Pieces

variable {O : Objects} {R : Reals} {H : ObjectHeap} {S S' : ObjId → Prop} {l r v : Value} {n m : Nat} {o o' : ObjId}

theorem IsTree.copy_eq (hv : H.IsTree O S n v) : v.copy = v := by
  cases v with
  | weakref => cases hv with | leaf h _ => exact h.elim
  | _ => rfl

theorem Ok.no_array (hH : H.Ok O) {t : Table} (h : H.table o = some t) : H.array o = none := by
  cases harray : H.array o with
  | none => rfl
  | some vs => exact absurd h (hH.no_table harray)

theorem IsTree.of_array? (hv : H.IsTree O S n v) {vs : List Value} (h : H.array? v = some vs) :
    ∃ o, v = .objref o ∧ H.array o = some vs := by
  cases v with
  | objref o => exact ⟨o, rfl, h⟩
  | weakref => cases hv with | leaf hleaf _ => exact hleaf.elim
  | _ => cases h

theorem IsTree.of_table? (hv : H.IsTree O S n v) {t : Table} (h : H.table? v = some t) :
    ∃ o, v = .objref o ∧ H.table o = some t := by
  cases v with
  | objref o => exact ⟨o, rfl, h⟩
  | weakref => cases hv with | leaf hleaf _ => exact hleaf.elim
  | _ => cases h

/-- A leaf is no array and no table. -/
theorem IsLeaf.not_container (hH : H.Ok O) (hv : H.IsLeaf v) : H.array? v = none ∧ H.table? v = none := by
  cases v with
  | objref o =>
    constructor
    · cases harray : H.array o with
      | none => exact harray
      | some vs => exact absurd hv (hH.not_leaf_of_array harray)
    · cases htable : H.table o with
      | none => exact htable
      | some t => exact absurd hv (hH.not_leaf_of_table htable)
  | weakref => exact hv.elim
  | _ => exact ⟨rfl, rfl⟩

theorem IsTree.item (hH : H.Ok O) (hv : H.IsTree O S n (.objref o)) {vs : List Value} (harray : H.array o = some vs)
    {i : Nat} {u : Value} (hu : vs[i]? = some u) : H.item (.objref o) i = .ok u := by
  unfold ObjectHeap.item
  rw [show H.array? (.objref o) = some vs from harray]
  dsimp only
  rw [hu]
  dsimp only
  rw [((hv.items hH harray).2 u (List.mem_of_getElem? hu)).copy_eq]

theorem IsTree.key (hH : H.Ok O) (hv : H.IsTree O S n (.objref o)) {t : Table} (htable : H.table o = some t) {i : Nat}
    (hi : i < t.length) : H.key (.objref o) i = .ok (t.items i).key := by
  unfold ObjectHeap.key
  rw [show H.table? (.objref o) = some t from htable]
  dsimp only
  rw [if_pos hi, ((hv.entries hH htable).1.plain i hi).copy_eq]

theorem IsTree.getindex (hH : H.Ok O) (hv : H.IsTree O S n (.objref o)) {t : Table} (htable : H.table o = some t)
    {k u : Value} (hu : t.Holds k u) : H.getindex O (.objref o) k = .ok u := by
  obtain ⟨hinv, -, hentries⟩ := hv.entries hH htable
  unfold ObjectHeap.getindex
  rw [show H.table? (.objref o) = some t from htable]
  dsimp only
  rw [hinv.getIndex_of_holds hu, (hentries k u hu).copy_eq]
  rfl

/-- The index operator throws for a key that the table does not have. -/
theorem IsTree.getindex_of_absent (hH : H.Ok O) (hv : H.IsTree O S n (.objref o)) {t : Table}
    (htable : H.table o = some t) {k : Value} (hk : k.PlainKey O) (habsent : ∀ u, ¬ t.Holds k u) :
    H.getindex O (.objref o) k = .error (.xno Xno.wrongIndex) := by
  unfold ObjectHeap.getindex
  rw [show H.table? (.objref o) = some t from htable]
  dsimp only
  rw [(hv.entries hH htable).1.getIndex_of_absent hk habsent]
  rfl

/-! ## The answer of each case -/

theorem deepcompare_leaf {level : Nat} (hlevel : level ≤ 1000) (hl : H.array? l = none ∧ H.table? l = none) :
    deepcompare O R H level l r = H.equal R l r := by
  rw [deepcompare, if_neg (Nat.not_lt.mpr hlevel), hl.1, hl.2]

theorem deepcompare_array {level : Nat} (hlevel : level ≤ 1000) {vs vs' : List Value} (hl : H.array? l = some vs)
    (hr : H.array? r = some vs') (hlength : vs.length = vs'.length) : deepcompare O R H level l r =
      checkAll (fun i => do deepcompare O R H (level + 1) (← H.item l i) (← H.item r i)) (List.range vs.length) := by
  rw [deepcompare, if_neg (Nat.not_lt.mpr hlevel), hl, hr]
  dsimp only
  rw [if_neg (not_not.mpr hlength)]

theorem deepcompare_table {level : Nat} (hlevel : level ≤ 1000) {t t' : Table} (hnone : H.array? l = none)
    (hl : H.table? l = some t) (hr : H.table? r = some t') (hlength : t.length = t'.length) :
    deepcompare O R H level l r = checkAll (fun i => do
      let k ← H.key l i
      deepcompare O R H (level + 1) (← H.getindex O l k) (← H.getindex O r k)) (List.range t.length) := by
  rw [deepcompare, if_neg (Nat.not_lt.mpr hlevel), hnone, hl, hr]
  dsimp only
  rw [if_neg (not_not.mpr hlength)]

/-- Containers of different classes or lengths are different. -/
theorem deepcompare_array_false {level : Nat} (hlevel : level ≤ 1000) {vs : List Value} (hl : H.array? l = some vs)
    (hr : ∀ vs', H.array? r = some vs' → vs.length ≠ vs'.length) : deepcompare O R H level l r = .ok false := by
  rw [deepcompare, if_neg (Nat.not_lt.mpr hlevel), hl]
  dsimp only
  cases hr' : H.array? r with
  | none => rfl
  | some vs' => exact if_pos (hr vs' hr')

theorem deepcompare_table_false {level : Nat} (hlevel : level ≤ 1000) {t : Table} (hnone : H.array? l = none)
    (hl : H.table? l = some t) (hr : ∀ t', H.table? r = some t' → t.length ≠ t'.length) :
    deepcompare O R H level l r = .ok false := by
  rw [deepcompare, if_neg (Nat.not_lt.mpr hlevel), hnone, hl]
  dsimp only
  cases hr' : H.table? r with
  | none => rfl
  | some t' => exact if_pos (hr t' hr')

/-! ## What is the same and what is missing -/

theorem identical_leaf_iff (hH : H.Ok O) (hl : H.IsLeaf l) :
    Identical R H l r ↔ H.IsLeaf r ∧ Alike R H l r ∧ ¬ Twins H l r := by
  constructor
  · intro h
    cases h with
    | leaf _ hr h => exact ⟨hr, h⟩
    | array harray => exact absurd hl (hH.not_leaf_of_array harray)
    | table htable => exact absurd hl (hH.not_leaf_of_table htable)
  · rintro ⟨hr, h⟩
    exact .leaf hl hr h

theorem not_missing_leaf (hH : H.Ok O) (hl : H.IsLeaf l) : ¬ Missing R H l r := by
  intro h
  cases h with
  | key htable => exact hH.not_leaf_of_table htable hl
  | array harray => exact hH.not_leaf_of_array harray hl
  | table htable => exact hH.not_leaf_of_table htable hl

variable {leaf : Value → Value → Prop}

/-- What is equal to an array is one, with equal items. -/
theorem Equal.of_array (hH : H.Ok O) {vs : List Value} (hl : H.array o = some vs) (h : H.Equal leaf (.objref o) r) :
    ∃ o' vs', r = .objref o' ∧ H.array o' = some vs' ∧ vs.length = vs'.length ∧
      ∀ (i : Nat) v v', vs[i]? = some v → vs'[i]? = some v' → H.Equal leaf v v' := by
  cases h with
  | leaf hleaf => exact absurd hleaf (hH.not_leaf_of_array hl)
  | array hl' hr hlength h =>
    cases hl.symm.trans hl'
    exact ⟨_, _, rfl, hr, hlength, h⟩
  | table htable => exact absurd htable (hH.no_table hl)

/-- What is equal to a table is one, with the same keys and equal values. -/
theorem Equal.of_table (hH : H.Ok O) {t : Table} (hl : H.table o = some t) (h : H.Equal leaf (.objref o) r) :
    ∃ o' t', r = .objref o' ∧ H.table o' = some t' ∧ (∀ k, (∃ v, t.Holds k v) ↔ ∃ v, t'.Holds k v) ∧
      ∀ k v v', t.Holds k v → t'.Holds k v' → H.Equal leaf v v' := by
  cases h with
  | leaf hleaf => exact absurd hleaf (hH.not_leaf_of_table hl)
  | array harray => exact absurd hl (hH.no_table harray)
  | table hl' hr hkeys h =>
    cases hl.symm.trans hl'
    exact ⟨_, _, rfl, hr, hkeys, h⟩

/-- An array is identical to arrays only. -/
theorem identical_array (hH : H.Ok O) {vs : List Value} (hl : H.array o = some vs) (h : Identical R H (.objref o) r) :
    ∃ vs', H.array? r = some vs' ∧ vs.length = vs'.length := by
  obtain ⟨o', vs', rfl, hr, hlength, -⟩ := Equal.of_array hH hl h
  exact ⟨vs', hr, hlength⟩

theorem missing_array (hH : H.Ok O) {vs : List Value} (hl : H.array o = some vs) (h : Missing R H (.objref o) r) :
    ∃ vs', H.array? r = some vs' ∧ vs.length = vs'.length := by
  cases h with
  | key htable => exact absurd htable (hH.no_table hl)
  | array hl' hr hlength =>
    cases hl.symm.trans hl'
    exact ⟨_, hr, hlength⟩
  | table htable => exact absurd htable (hH.no_table hl)

theorem identical_table (hH : H.Ok O) {t : Table} (hl : H.table o = some t) (hinv : t.Inv O)
    (hr : H.IsTree O S n r) (h : Identical R H (.objref o) r) :
    ∃ t', H.table? r = some t' ∧ t.length = t'.length := by
  obtain ⟨o', t', rfl, hr', hkeys, -⟩ := Equal.of_table hH hl h
  exact ⟨t', hr', ((hinv.same_keys_iff (hr.entries hH hr').1).mp hkeys).1⟩

theorem missing_table (hH : H.Ok O) {t : Table} (hl : H.table o = some t) (h : Missing R H (.objref o) r) :
    ∃ t', H.table? r = some t' ∧ t.length = t'.length := by
  cases h with
  | key hl' hr hlength =>
    cases hl.symm.trans hl'
    exact ⟨_, hr, hlength⟩
  | array harray => exact absurd hl (hH.no_table harray)
  | table hl' hr hlength =>
    cases hl.symm.trans hl'
    exact ⟨_, hr, hlength⟩

section Arrays

variable {vs vs' : List Value} (hl : H.array o = some vs) (hr : H.array o' = some vs') (hlength : vs.length = vs'.length)

include hl hr hlength

theorem identical_array_iff (hH : H.Ok O) : Identical R H (.objref o) (.objref o') ↔
    ∀ i < vs.length, ∃ v v', vs[i]? = some v ∧ vs'[i]? = some v' ∧ Identical R H v v' := by
  constructor
  · intro h i hi
    obtain ⟨_, _, ⟨⟩, hr', -, hitems⟩ := Equal.of_array hH hl h
    cases hr.symm.trans hr'
    have hv := List.getElem?_eq_getElem hi
    have hv' := List.getElem?_eq_getElem (hlength ▸ hi)
    exact ⟨_, _, hv, hv', hitems i _ _ hv hv'⟩
  · intro h
    refine .array hl hr hlength fun i v v' hv hv' => ?_
    obtain ⟨u, u', hu, hu', hsame⟩ := h i (List.getElem?_eq_some_iff.mp hv).1
    cases hv.symm.trans hu
    cases hv'.symm.trans hu'
    exact hsame

theorem missing_array_iff (hH : H.Ok O) : Missing R H (.objref o) (.objref o') ↔ ∃ i < vs.length,
    (∀ j < i, ∃ v v', vs[j]? = some v ∧ vs'[j]? = some v' ∧ Identical R H v v') ∧
      ∃ v v', vs[i]? = some v ∧ vs'[i]? = some v' ∧ Missing R H v v' := by
  constructor
  · intro h
    cases h with
    | key htable => exact absurd htable (hH.no_table hl)
    | @array _ _ _ _ v v' i hl' hr' _ hbefore hv hv' h =>
      cases hl.symm.trans hl'
      cases hr.symm.trans hr'
      have hi := (List.getElem?_eq_some_iff.mp hv).1
      refine ⟨i, hi, fun j hj => ?_, v, v', hv, hv', h⟩
      have hu := List.getElem?_eq_getElem (Nat.lt_trans hj hi)
      have hu' := List.getElem?_eq_getElem (hlength ▸ Nat.lt_trans hj hi)
      exact ⟨_, _, hu, hu', hbefore j _ _ hj hu hu'⟩
    | table htable => exact absurd htable (hH.no_table hl)
  · rintro ⟨i, -, hbefore, v, v', hv, hv', h⟩
    refine .array hl hr hlength (fun j u u' hj hu hu' => ?_) hv hv' h
    obtain ⟨w, w', hw, hw', hsame⟩ := hbefore j hj
    cases hu.symm.trans hw
    cases hu'.symm.trans hw'
    exact hsame

end Arrays

section Tables

variable {t t' : Table} (hl : H.table o = some t) (hr : H.table o' = some t') (hlength : t.length = t'.length)

include hl hr hlength

theorem identical_table_iff (hH : H.Ok O) (hinv : t.Inv O) (hinv' : t'.Inv O) :
    Identical R H (.objref o) (.objref o') ↔
      ∀ i < t.length, ∃ v, t'.Holds (t.items i).key v ∧ Identical R H (t.items i).value v := by
  constructor
  · intro h i hi
    obtain ⟨_, _, ⟨⟩, hr', hkeys, hvalues⟩ := Equal.of_table hH hl h
    cases hr.symm.trans hr'
    have hk : t.Holds (t.items i).key (t.items i).value := ⟨i, hi, rfl, rfl⟩
    obtain ⟨v, hv⟩ := (hkeys _).mp ⟨_, hk⟩
    exact ⟨v, hv, hvalues _ _ _ hk hv⟩
  · intro h
    refine .table hl hr ((hinv.same_keys_iff hinv').mpr ⟨hlength, fun i hi => ?_⟩) ?_
    · obtain ⟨v, hv, -⟩ := h i hi
      exact ⟨v, hv⟩
    · rintro k v v' ⟨i, hi, rfl, rfl⟩ hv'
      obtain ⟨u, hu, hsame⟩ := h i hi
      rwa [hinv'.holds_unique hv' hu]

theorem missing_table_iff (hH : H.Ok O) : Missing R H (.objref o) (.objref o') ↔ ∃ i < t.length,
    (∀ j < i, ∃ v, t'.Holds (t.items j).key v ∧ Identical R H (t.items j).value v) ∧
      ((∀ v, ¬ t'.Holds (t.items i).key v) ∨
        ∃ v, t'.Holds (t.items i).key v ∧ Missing R H (t.items i).value v) := by
  constructor
  · intro h
    cases h with
    | key hl' hr' _ hi hbefore h =>
      cases hl.symm.trans hl'
      cases hr.symm.trans hr'
      exact ⟨_, hi, hbefore, .inl h⟩
    | array harray => exact absurd hl (hH.no_table harray)
    | table hl' hr' _ hi hbefore hv' h =>
      cases hl.symm.trans hl'
      cases hr.symm.trans hr'
      exact ⟨_, hi, hbefore, .inr ⟨_, hv', h⟩⟩
  · rintro ⟨i, hi, hbefore, habsent | ⟨v, hv, h⟩⟩
    · exact .key hl hr hlength hi hbefore habsent
    · exact .table hl hr hlength hi hbefore hv h

end Tables

/-! ## The outcome -/

/-- Trees that are identical compare as equal, a key that is missed throws, and all else is a difference. -/
theorem outcome (hH : H.Ok O) (hl : H.IsTree O S n l) (hr : H.IsTree O S' m r) (level : Nat)
    (hlevel : level + n ≤ 1000) :
    Decides (Identical R H l r) (Missing R H l r) (.xno Xno.wrongIndex) (deepcompare O R H level l r) := by
  have hle : level ≤ 1000 := Nat.le_trans (Nat.le_add_right level n) hlevel
  induction hl generalizing r m level with
  | leaf hleaf _ =>
    obtain ⟨b, hb, hiff⟩ := equal_leaf (R := R) hH hleaf hr
    rw [deepcompare_leaf hle (hleaf.not_container hH), hb]
    exact .of_ok (hiff.trans (identical_leaf_iff hH hleaf).symm) (not_missing_leaf hH hleaf)
  | @array n o vs harray hobj hdeep hitems ih =>
    have hl : H.IsTree O S n (.objref o) := .array harray hobj hdeep hitems
    have hvs : H.array? (.objref o) = some vs := harray
    by_cases hsame : ∃ vs', H.array? r = some vs' ∧ vs.length = vs'.length
    · obtain ⟨vs', hvs', hlength⟩ := hsame
      obtain ⟨o', rfl, harray'⟩ := hr.of_array? hvs'
      -- Both are arrays of one length: the loop decides, item by item.
      rw [deepcompare_array hle hvs hvs' hlength]
      refine (Decides.checkAll fun i hi => ?_).congr (identical_array_iff harray harray' hlength hH)
        (missing_array_iff harray harray' hlength hH)
      have hv := List.getElem?_eq_getElem hi
      have hv' := List.getElem?_eq_getElem (hlength ▸ hi)
      rw [hl.item hH harray hv, hr.item hH harray' hv']
      have hpos : 0 < n := hdeep.resolve_left (List.ne_nil_of_length_pos (Nat.zero_lt_of_lt hi))
      refine (ih _ (List.getElem_mem hi) ((hr.items hH harray').2 _ (List.getElem_mem (hlength ▸ hi)))
        (level + 1) (by omega) (by omega)).congr ?_ ?_
      · rw [hv, hv']
        simp
      · rw [hv, hv']
        simp
    · rw [deepcompare_array_false hle hvs fun vs' hvs' hlength => hsame ⟨vs', hvs', hlength⟩]
      exact .of_ok (iff_of_false Bool.false_ne_true fun h => hsame (identical_array hH harray h))
        fun h => hsame (missing_array hH harray h)
  | @table n o t htable hobj hinv hdeep hitems ih =>
    have hl : H.IsTree O S n (.objref o) := .table htable hobj hinv hdeep hitems
    have hnone : H.array? (.objref o) = none := hH.no_array htable
    have ht : H.table? (.objref o) = some t := htable
    by_cases hsame : ∃ t', H.table? r = some t' ∧ t.length = t'.length
    · obtain ⟨t', ht', hlength⟩ := hsame
      obtain ⟨o', rfl, htable'⟩ := hr.of_table? ht'
      have hinv' := (hr.entries hH htable').1
      rw [deepcompare_table hle hnone ht ht' hlength]
      refine (Decides.checkAll fun i hi => ?_).congr (identical_table_iff htable htable' hlength hH hinv hinv')
        (missing_table_iff htable htable' hlength hH)
      have hk : t.Holds (t.items i).key (t.items i).value := ⟨i, hi, rfl, rfl⟩
      have hpos : 0 < n := hdeep.resolve_left (Nat.ne_of_gt (Nat.zero_lt_of_lt hi))
      rw [hl.key hH htable hi]
      dsimp only [bind, Except.bind]
      rw [hl.getindex hH htable hk]
      dsimp only
      by_cases hin : ∃ v, t'.Holds (t.items i).key v
      · obtain ⟨v, hv⟩ := hin
        rw [hr.getindex hH htable' hv]
        have hunique : ∀ u, t'.Holds (t.items i).key u → u = v := fun u hu => hinv'.holds_unique hu hv
        refine (ih _ _ hk ((hr.entries hH htable').2.2 _ _ hv) (level + 1) (by omega) (by omega)).congr ?_ ?_
        · constructor
          · rintro ⟨u, hu, h⟩
            rwa [hunique u hu] at h
          · exact fun h => ⟨v, hv, h⟩
        · constructor
          · rintro (habsent | ⟨u, hu, h⟩)
            · exact absurd hv (habsent v)
            · rwa [hunique u hu] at h
          · exact fun h => .inr ⟨v, hv, h⟩
      · -- The key is the first one missed: what is on the right of the call is never compared.
        have habsent : ∀ v, ¬ t'.Holds (t.items i).key v := fun v hv => hin ⟨v, hv⟩
        rw [hr.getindex_of_absent hH htable' (hinv.plain i hi) habsent]
        exact ⟨fun ⟨v, hv, _⟩ => absurd hv (habsent v), fun _ => rfl, fun _ hno => absurd (.inl habsent) hno⟩
    · rw [deepcompare_table_false hle hnone ht fun t' ht' hlength => hsame ⟨t', ht', hlength⟩]
      exact .of_ok (iff_of_false Bool.false_ne_true fun h => hsame (identical_table hH htable hinv hr h))
        fun h => hsame (missing_table hH htable h)

theorem deepcompare_eq_true_iff (hH : H.Ok O) (hl : H.IsTree O S n l) (hr : H.IsTree O S' m r) (hn : n ≤ 1000) :
    deepcompare O R H 0 l r = .ok true ↔ SameStructure R H l r ∧ ∀ v v', H.Place l r v v' → ¬ Twins H v v' :=
  (outcome hH hl hr 0 (by omega)).iff.trans (equal_and_iff hH)

/-- Whether the structure is the same is what is returned, unless a key is missed or twins are. -/
theorem compares_iff (hH : H.Ok O) (hl : H.IsTree O S n l) (hr : H.IsTree O S' m r) (hn : n ≤ 1000) :
    Compares O R H l r ↔
      ¬ Missing R H l r ∧ (SameStructure R H l r → ∀ v v', H.Place l r v v' → ¬ Twins H v v') := by
  have hout := outcome (R := R) hH hl hr 0 (by omega)
  have hiff : Identical R H l r ↔ _ := equal_and_iff hH
  constructor
  · rintro ⟨b, hb, hsame⟩
    refine ⟨fun hmissing => ?_, fun hstructure => ?_⟩
    · cases hb.symm.trans (hout.thrown hmissing)
    · rw [hsame.mpr hstructure] at hb
      exact (hiff.mp (hout.iff.mp hb)).2
  · rintro ⟨hmissing, htwins⟩
    by_cases hidentical : Identical R H l r
    · exact ⟨true, hout.yes hidentical, iff_of_true rfl (hiff.mp hidentical).1⟩
    · refine ⟨false, hout.no hidentical hmissing, iff_of_false Bool.false_ne_true fun hstructure => ?_⟩
      exact hidentical (hiff.mpr ⟨hstructure, htwins hstructure⟩)

theorem Twins.symm {v v' : Value} (h : Twins H v v') : Twins H v' v := by
  rcases h with ⟨a, rfl, rfl, hnan⟩ | ⟨o, o', s, rfl, rfl, hne, hs, hs'⟩
  · exact .inl ⟨a, rfl, rfl, hnan⟩
  · exact .inr ⟨o', o, s, rfl, rfl, hne.symm, hs', hs⟩

theorem Identical.symm (h : Identical R H l r) : Identical R H r l :=
  Equal.symm (fun _ _ h => ⟨h.1.symm, fun htwins => h.2 htwins.symm⟩) h

/-- The answer is the same for the other order, if both miss a key or neither does. -/
theorem deepcompare_comm_iff (hH : H.Ok O) (hl : H.IsTree O S n l) (hr : H.IsTree O S' m r) (hn : n ≤ 1000)
    (hm : m ≤ 1000) :
    deepcompare O R H 0 l r = deepcompare O R H 0 r l ↔ (Missing R H l r ↔ Missing R H r l) := by
  have hlr := outcome (R := R) hH hl hr 0 (by omega)
  have hrl := outcome (R := R) hH hr hl 0 (by omega)
  by_cases hidentical : Identical R H l r
  · have hsame : deepcompare O R H 0 l r = deepcompare O R H 0 r l :=
      (hlr.yes hidentical).trans (hrl.yes hidentical.symm).symm
    refine iff_of_true hsame (iff_of_false (fun h => ?_) fun h => ?_)
    · cases (hlr.yes hidentical).symm.trans (hlr.thrown h)
    · cases (hrl.yes hidentical.symm).symm.trans (hrl.thrown h)
  · have hidentical' : ¬ Identical R H r l := fun h => hidentical h.symm
    by_cases hmissing : Missing R H l r <;> by_cases hmissing' : Missing R H r l
    · exact iff_of_true ((hlr.thrown hmissing).trans (hrl.thrown hmissing').symm) (iff_of_true hmissing hmissing')
    · rw [hlr.thrown hmissing, hrl.no hidentical' hmissing']
      exact iff_of_false (by rintro ⟨⟩) fun h => hmissing' (h.mp hmissing)
    · rw [hlr.no hidentical hmissing, hrl.thrown hmissing']
      exact iff_of_false (by rintro ⟨⟩) fun h => hmissing (h.mpr hmissing')
    · exact iff_of_true ((hlr.no hidentical hmissing).trans (hrl.no hidentical' hmissing').symm)
        (iff_of_false hmissing hmissing')

/-- Leaves in the same place of one tree are one leaf. -/
theorem IsTree.place_self (hH : H.Ok O) (hv : H.IsTree O S n v) {a b : Value} (h : H.Place v v a b) :
    a = b ∧ H.Within v a := by
  induction hv with
  | leaf hleaf _ =>
    cases h with
    | leaf => exact ⟨rfl, .refl⟩
    | array harray => exact absurd hleaf (hH.not_leaf_of_array harray)
    | table htable => exact absurd hleaf (hH.not_leaf_of_table htable)
  | array harray _ _ _ ih =>
    cases h with
    | leaf hleaf => exact absurd hleaf (hH.not_leaf_of_array harray)
    | array hl hr hu hu' h =>
      cases harray.symm.trans hl
      cases harray.symm.trans hr
      cases hu.symm.trans hu'
      obtain ⟨heq, hwithin⟩ := ih _ (List.mem_of_getElem? hu) h
      exact ⟨heq, .array harray (List.mem_of_getElem? hu) hwithin⟩
    | table htable => exact absurd htable (hH.no_table harray)
  | table htable _ hinv _ _ ih =>
    cases h with
    | leaf hleaf => exact absurd hleaf (hH.not_leaf_of_table htable)
    | array harray => exact absurd htable (hH.no_table harray)
    | table hl hr hu hu' h =>
      cases htable.symm.trans hl
      cases htable.symm.trans hr
      cases hinv.holds_unique hu hu'
      obtain ⟨heq, hwithin⟩ := ih _ _ hu h
      exact ⟨heq, .table htable hu hwithin⟩

theorem Within.place (hv : H.Within l v) (hleaf : H.IsLeaf v) : H.Place l l v v := by
  induction hv with
  | refl => exact .leaf hleaf hleaf
  | array harray hu _ ih =>
    obtain ⟨i, hi⟩ := List.getElem?_of_mem hu
    exact .array harray harray hi hi (ih hleaf)
  | table htable hu _ ih => exact .table htable htable hu hu (ih hleaf)

/-- A tree is equal to itself if all its numbers are. -/
theorem deepcompare_self_iff (hH : H.Ok O) (hl : H.IsTree O S n l) (hn : n ≤ 1000) :
    deepcompare O R H 0 l l = .ok true ↔ ∀ a, H.Within l (.real a) → Value.realEq a a = true := by
  rw [deepcompare_eq_true_iff hH hl hl hn]
  constructor
  · rintro ⟨-, htwins⟩ a ha
    by_contra hnan
    exact htwins _ _ (ha.place trivial) (.inl ⟨a, rfl, rfl, Bool.eq_false_iff.mpr hnan⟩)
  · intro hreal
    refine ⟨Equal.refl (fun v hv => Alike.refl hv) hl, fun v v' hplace htwins => ?_⟩
    obtain ⟨rfl, hwithin⟩ := hl.place_self hH hplace
    rcases htwins with ⟨a, rfl, -, hnan⟩ | ⟨o, o', s, rfl, h, hne, -⟩
    · rw [hreal a hwithin] at hnan
      cases hnan
    · cases h
      exact hne rfl

end Pieces

end ObjectHeap

end Eel
