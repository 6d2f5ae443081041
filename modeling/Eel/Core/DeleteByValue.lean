-- SUMMARY: Deleting the first reference to an object from an array, and the values that are taken for one.
import Eel.Core.Delete

/-!
# Deletion by value

`a_delete` looks for an address in all items, of whatever class they are. A value that is not a
reference has other bytes there, of a real or left over from what was there before.
-/

namespace Eel

open Buffer

/-- Where the first reference to an object is. -/
def firstReference (o : ObjId) (items : List Value) : Option Nat := items.findIdx? fun v => v.obj? = some o

/-- The first reference is removed, and the others are kept in their order. Without one, the array stays
as it is, and that is reported. -/
def DeletesFirst (E : Surroundings) (o : ObjId) (items : List Value) (b : Buffer Value)
    (result : Option (Xno × Buffer Value)) : Prop :=
  match firstReference o items with
  | none => result = some (Xno.wrongIndex, b)
  | some k => ∃ b', result = some (Xno.ok, b') ∧ b'.IsArray ((items.eraseIdx k).map (Value.killAll (E.dead k)))

/-- A value that is not a reference has the address in it, before any reference to the object. -/
def Deceptive (E : Surroundings) (o : ObjId) (items : List Value) : Prop :=
  ∃ (i : Nat) (v : Value), items[i]? = some v ∧ v.obj? = none ∧ E.stale i ∧
    ∀ (j : Nat) (w : Value), j < i → items[j]? = some w → w.obj? ≠ some o

section

variable {M : Memory} {X : Indexing} {E : Surroundings} {op1 op2 : Option Value} {o : ObjId} {items : List Value}
  {b : Buffer Value} {v : Value} {i k : Nat}

namespace Surroundings

theorem sameAddress_of_ref (h : v.obj? = some o) (i : Int) : E.sameAddress o i v = true := by
  unfold sameAddress
  rw [h]
  exact decide_eq_true rfl

theorem sameAddress_of_stale (h : v.obj? = none) {i : Int} (hi : E.stale i) : E.sameAddress o i v = true := by
  unfold sameAddress
  rw [h]
  exact hi

/-- The two kinds of values with the address. -/
theorem sameAddress_cases {i : Int} (h : E.sameAddress o i v = true) :
    v.obj? = some o ∨ v.obj? = none ∧ E.stale i = true := by
  unfold sameAddress at h
  cases hobj : v.obj? with
  | none =>
    rw [hobj] at h
    exact .inr ⟨rfl, h⟩
  | some o' =>
    rw [hobj] at h
    exact .inl (congrArg some (of_decide_eq_true h))

end Surroundings

theorem firstReference_eq_none (h : ∀ (i : Nat) (v : Value), items[i]? = some v → v.obj? ≠ some o) :
    firstReference o items = none := by
  refine List.findIdx?_eq_none_iff.mpr fun v hv => ?_
  obtain ⟨i, hi⟩ := List.mem_iff_getElem?.mp hv
  exact decide_eq_false (h i v hi)

theorem firstReference_eq_some_iff :
    firstReference o items = some k ↔
      (∃ v, items[k]? = some v ∧ v.obj? = some o) ∧ ∀ j w, j < k → items[j]? = some w → w.obj? ≠ some o := by
  unfold firstReference
  rw [List.findIdx?_eq_some_iff_getElem]
  constructor
  · rintro ⟨hk, hv, hbefore⟩
    refine ⟨⟨_, List.getElem?_eq_getElem hk, of_decide_eq_true hv⟩, fun j w hj hw hobj => ?_⟩
    obtain ⟨hlt, rfl⟩ := List.getElem?_eq_some_iff.mp hw
    exact hbefore j hj (decide_eq_true hobj)
  · rintro ⟨⟨v, hv, hobj⟩, hbefore⟩
    obtain ⟨hlt, rfl⟩ := List.getElem?_eq_some_iff.mp hv
    exact ⟨hlt, decide_eq_true hobj, fun j hj hj' =>
      hbefore j _ hj (List.getElem?_eq_getElem (Nat.lt_trans hj hlt)) (of_decide_eq_true hj')⟩

theorem Value.killAll_obj {os : List ObjId} (h : (v.killAll os).obj? = some o) : v.obj? = some o := by
  rcases Value.killAll_eq os v with heq | ⟨-, heq⟩
  · rwa [heq] at h
  · rw [heq] at h
    cases h

/-- What is left without a reference is not what is left without a value that is not one, before it. -/
theorem eraseIdx_ne (hv : items[k]? = some v) (hobj : v.obj? = some o) (hik : i < k)
    (hbefore : ∀ j w, j < k → items[j]? = some w → w.obj? ≠ some o) (os : List ObjId) :
    items.eraseIdx i ≠ (items.eraseIdx k).map (Value.killAll os) := by
  obtain ⟨n, rfl⟩ : ∃ n, k = n + 1 := Nat.exists_eq_add_one_of_ne_zero (Nat.ne_of_gt (Nat.zero_lt_of_lt hik))
  intro heq
  have hleft : (items.eraseIdx i)[n]? = some v := by
    rw [List.getElem?_eraseIdx_of_ge (Nat.le_of_lt_succ hik), hv]
  rw [heq, List.getElem?_map, List.getElem?_eraseIdx_of_lt (Nat.lt_succ_self n)] at hleft
  obtain ⟨w, hw, rfl⟩ := Option.map_eq_some_iff.mp hleft
  exact hbefore n w (Nat.lt_succ_self n) hw (Value.killAll_obj hobj)

namespace Buffer

/-- One item is removed. -/
theorem IsArray.deleteOne (hb : b.IsArray items) (hi : i < items.length) :
    ∃ b', b.aDeleteRange M E i i = some (Xno.ok, b') ∧
      b'.IsArray ((items.eraseIdx i).map (Value.killAll (E.dead i))) := by
  obtain ⟨b', hdel, hb'⟩ := hb.delete (M := M) (E := E) (Int.natCast_nonneg i) (show (i : Int) ≤ i + 1 by omega)
    (by omega)
  refine ⟨b', hdel, ?_⟩
  have hcount : ((i : Int) - i + 1).toNat = 1 := by
    omega
  have hnext : ((i : Int) + 1).toNat = i + 1 := by
    omega
  rw [hcount, hnext, Int.toNat_natCast, ← List.eraseIdx_eq_take_drop_succ] at hb'
  exact hb'

/-- What `a_delete` makes of an object: the first item with its address goes. -/
theorem IsArray.delete_object (hb : b.IsArray items) (hop : op1.bind Value.obj? = some o) (op2 : Option Value) :
    (b.aDelete M X E op1 op2 = some (Xno.wrongIndex, b) ∧
        ∀ (i : Nat) (v : Value), items[i]? = some v → E.sameAddress o i v = false) ∨
      ∃ (i : Nat) (v : Value) (b' : Buffer Value), items[i]? = some v ∧ E.sameAddress o i v ∧
        (∀ (j : Nat) (w : Value), j < i → items[j]? = some w → E.sameAddress o j w = false) ∧
        b.aDelete M X E op1 op2 = some (Xno.ok, b') ∧
        b'.IsArray ((items.eraseIdx i).map (Value.killAll (E.dead i))) := by
  have hlen : b.length.toNat = items.length := by
    rw [hb.length_eq]
    rfl
  obtain ⟨r, hr, hfound, hbefore⟩ := Surroundings.find_spec (E := E) (o := o) (n := b.length.toNat) hb.keeps.stored
    (le_refl 0) (by omega)
  unfold aDelete aRange
  rw [hop]
  dsimp only
  rw [hr]
  cases r with
  | none =>
    refine .inl ⟨rfl, fun i v hv => hbefore i v (Int.natCast_nonneg i) ?_ hv⟩
    have hlt := (List.getElem?_eq_some_iff.mp hv).1
    rw [Option.getD_none]
    omega
  | some j =>
    obtain ⟨hnonneg, hlt, v, hv, hsame⟩ := hfound j rfl
    obtain ⟨i, rfl⟩ := Int.eq_ofNat_of_zero_le hnonneg
    obtain ⟨b', hdel, hb'⟩ := hb.deleteOne (M := M) (E := E) (i := i) (by omega)
    refine .inr ⟨i, v, b', hv, hsame, fun j w hj hw => ?_, hdel, hb'⟩
    exact hbefore j w (Int.natCast_nonneg j) (Int.ofNat_lt.mpr hj) hw

end Buffer

/-- Exactly the first reference is deleted, unless a value that is not one is taken for it. Only references
keep objects alive. -/
theorem deletesFirst_iff (hb : b.IsArray items) (hop : op1.bind Value.obj? = some o)
    (hdead : ∀ (i : Nat) (v : Value), items[i]? = some v → v.obj? = none → E.dead i = []) :
    DeletesFirst E o items b (b.aDelete M X E op1 op2) ↔ ¬ Deceptive E o items := by
  rcases hb.delete_object (M := M) (X := X) (E := E) hop op2 with
    ⟨hresult, hnone⟩ | ⟨i, v, b', hv, hsame, hbefore, hresult, hb'⟩
  · refine iff_of_true ?_ ?_
    · unfold DeletesFirst
      rw [firstReference_eq_none fun i v hv hobj =>
        Bool.false_ne_true ((hnone i v hv).symm.trans (Surroundings.sameAddress_of_ref hobj i))]
      exact hresult
    · rintro ⟨i, v, hv, hobj, hstale, -⟩
      exact Bool.false_ne_true ((hnone i v hv).symm.trans (Surroundings.sameAddress_of_stale hobj hstale))
  · have hrefs (j : Nat) (w : Value) (hj : j < i) (hw : items[j]? = some w) : w.obj? ≠ some o := fun hobj =>
      Bool.false_ne_true ((hbefore j w hj hw).symm.trans (Surroundings.sameAddress_of_ref hobj j))
    rcases Surroundings.sameAddress_cases hsame with hobj | ⟨hobj, hstale⟩
    · -- what is found is the first reference
      refine iff_of_true ?_ ?_
      · unfold DeletesFirst
        rw [firstReference_eq_some_iff.mpr ⟨⟨v, hv, hobj⟩, hrefs⟩]
        exact ⟨b', hresult, hb'⟩
      · rintro ⟨j, w, hw, hwobj, hstale, hnot⟩
        rcases Nat.lt_trichotomy j i with hlt | rfl | hgt
        · exact Bool.false_ne_true ((hbefore j w hlt hw).symm.trans (Surroundings.sameAddress_of_stale hwobj hstale))
        · rw [Option.some.inj (hw.symm.trans hv), hobj] at hwobj
          cases hwobj
        · exact hnot i v hgt hv hobj
    · -- what is found is not a reference
      refine iff_of_false ?_ (not_not_intro ⟨i, v, hv, hobj, hstale, hrefs⟩)
      unfold DeletesFirst
      split
      · rw [hresult]
        intro heq
        exact absurd (Prod.mk.inj (Option.some.inj heq)).1 (by decide)
      · next k hk =>
        rintro ⟨b'', heq, hb''⟩
        obtain rfl : b' = b'' := (Prod.mk.inj (Option.some.inj (hresult.symm.trans heq))).2
        obtain ⟨⟨w, hw, hwobj⟩, hkbefore⟩ := firstReference_eq_some_iff.mp hk
        have hik : i < k := by
          refine Nat.lt_of_le_of_ne (Nat.le_of_not_lt fun hlt => hrefs k w hlt hw hwobj) ?_
          rintro rfl
          rw [Option.some.inj (hw.symm.trans hv), hobj] at hwobj
          cases hwobj
        refine eraseIdx_ne hw hwobj hik hkbefore (E.dead k) ?_
        have hlen := hb'.length_eq.symm.trans hb''.length_eq
        have hsame := hb'.keeps.unique hb''.keeps (Int.ofNat.inj hlen)
        rw [hdead i v hv hobj] at hsame
        exact (List.map_id _).symm.trans hsame

end

/-- The second of three references. -/
theorem deletesFirst_second :
    let X : Indexing := ⟨fun _ => 0, fun _ _ => 0, fun _ => 0⟩
    let E : Surroundings := ⟨fun _ => [], fun _ => false⟩
    let items : List Value := [.objref 1, .weakref 2 true, .objref 2]
    let b : Buffer Value := ⟨3, 3, items.map some⟩
    b.IsArray items ∧ DeletesFirst E 2 items b (b.aDelete .ample X E (some (.objref 2)) none) := by
  intro X E items b
  have hb : b.IsArray items := ⟨rfl, rfl, by decide, List.prefix_rfl⟩
  refine ⟨hb, (deletesFirst_iff hb rfl fun _ _ _ _ => rfl).mpr ?_⟩
  rintro ⟨i, v, -, -, hstale, -⟩
  cases hstale

/-- A `nil` that the address is left over in is deleted, and the object stays. -/
theorem not_deletesFirst_nil :
    let X : Indexing := ⟨fun _ => 0, fun _ _ => 0, fun _ => 0⟩
    let E : Surroundings := ⟨fun _ => [], fun i => i = 0⟩
    let items : List Value := [.nil, .objref 2]
    let b : Buffer Value := ⟨2, 2, items.map some⟩
    let result := b.aDelete .ample X E (some (.objref 2)) none
    b.IsArray items ∧ (∃ b', result = some (Xno.ok, b') ∧ b'.IsArray [.objref 2]) ∧
      ¬ DeletesFirst E 2 items b result := by
  intro X E items b result
  have hb : b.IsArray items := ⟨rfl, rfl, by decide, List.prefix_rfl⟩
  obtain ⟨b', hdel, hb'⟩ := hb.deleteOne (M := .ample) (E := E) (i := 0) (by decide)
  have hresult : result = some (Xno.ok, b') := hdel
  refine ⟨hb, ⟨b', hresult, hb'⟩, ?_⟩
  rintro ⟨b'', heq, hb''⟩
  obtain rfl : b' = b'' := (Prod.mk.inj (Option.some.inj (hresult.symm.trans heq))).2
  exact absurd (hb'.keeps.unique hb''.keeps rfl) (by decide)

end Eel
