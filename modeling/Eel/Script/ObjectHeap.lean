-- SUMMARY: The objects that a script can walk through, the trees they make up, and when two trees have the same structure.
import Eel.Core.Primitive
import Eel.Core.TableMap
import Eel.Core.TextOrder
import Eel.Script.Tree

/-!
# A heap of objects

Strings and dynamic strings, arrays and tables. What a value refers to may be shared; seen
from the value it is a tree, if it is not too deep.
-/

namespace Eel

structure ObjectHeap where
  texts : Texts
  array : ObjId → Option (List Value)
  table : ObjId → Option Table

namespace ObjectHeap

section Classes

variable (H : ObjectHeap)

/-- Where the next object goes. -/
def next : ObjId := H.texts.pool.next

/-- `v`, if `typeof v` is array. -/
def array? (v : Value) : Option (List Value) := v.obj?.bind H.array

/-- `v`, if `typeof v` is table. -/
def table? (v : Value) : Option Table := v.obj?.bind H.table

/-- `EEL_MM_EQ` of the object's class. Arrays and tables have `eel_cclass_default_eq`. -/
def eqMethod (o : ObjId) (op1 : Value) : Except Xno Value :=
  match H.texts.text o with
  | some _ => H.texts.eq o op1
  | none => .ok (.truth (op1.obj? = some o))

/-- The classes of these objects, as `==` sees them. -/
def classes (R : Reals) : Classes Unit where
  real := R
  metamethod o mm right w :=
    match mm with
    | .eq => (H.eqMethod o right).mapError (fun x => .thrown x w) |>.map fun v => (v, w)
    | _ => .error (.thrown Xno.notImplemented w)
  cast _ _ w := .error (.thrown Xno.notImplemented w)
  length _ w := .error (.thrown Xno.notImplemented w)
  classOf _ := 0

/-- `l == r`, which is a boolean. -/
def equal (R : Reals) (l r : Value) : Except Thrown Bool :=
  match (H.classes R).operators.opEq l r () with
  | .ok (.value (.boolean v), _) => .ok (v ≠ 0)
  | .error (.thrown x _) => .error (.xno x)
  | _ => .error (.xno Xno.internal)

end Classes

/-! ## Trees -/

section Trees

variable (H : ObjectHeap)

/-- Primitives, strings and dynamic strings. -/
def IsLeaf : Value → Prop
  | .nil | .real _ | .integer _ | .boolean _ | .classid _ => True
  | .objref o => (H.texts.text o).isSome
  | .weakref .. => False

/-- A tree with as many levels below its root, all of whose objects are among some. -/
inductive IsTree (O : Objects) (S : ObjId → Prop) : Nat → Value → Prop
  | leaf {n v} (hleaf : H.IsLeaf v) (hobj : ∀ o, v = .objref o → S o) : IsTree O S n v
  | array {n o vs} (harray : H.array o = some vs) (hobj : S o) (hdeep : vs = [] ∨ 0 < n)
      (hitems : ∀ v ∈ vs, IsTree O S (n - 1) v) : IsTree O S n (.objref o)
  | table {n o t} (htable : H.table o = some t) (hobj : S o) (hinv : t.Inv O) (hdeep : t.length = 0 ∨ 0 < n)
      (hitems : ∀ k v, t.Holds k v → IsTree O S (n - 1) v) : IsTree O S n (.objref o)

/-- A value in a tree. -/
inductive Within : Value → Value → Prop
  | refl {v} : Within v v
  | array {o vs u v} (harray : H.array o = some vs) (hu : u ∈ vs) (h : Within u v) : Within (.objref o) v
  | table {o t k u v} (htable : H.table o = some t) (hu : t.Holds k u) (h : Within u v) : Within (.objref o) v

/-- Trees of the same shape, with leaves that are equal in some sense: arrays of the same length, and tables with
the same keys. -/
inductive Equal (leaf : Value → Value → Prop) : Value → Value → Prop
  | leaf {l r} (hl : H.IsLeaf l) (hr : H.IsLeaf r) (h : leaf l r) : Equal leaf l r
  | array {o o' vs vs'} (hl : H.array o = some vs) (hr : H.array o' = some vs') (hlength : vs.length = vs'.length)
      (h : ∀ (i : Nat) v v', vs[i]? = some v → vs'[i]? = some v' → Equal leaf v v') : Equal leaf (.objref o) (.objref o')
  | table {o o' t t'} (hl : H.table o = some t) (hr : H.table o' = some t')
      (hkeys : ∀ k, (∃ v, t.Holds k v) ↔ ∃ v, t'.Holds k v)
      (h : ∀ k v v', t.Holds k v → t'.Holds k v' → Equal leaf v v') : Equal leaf (.objref o) (.objref o')

/-- Two leaves that are in the same place of two trees. -/
inductive Place : Value → Value → Value → Value → Prop
  | leaf {l r} (hl : H.IsLeaf l) (hr : H.IsLeaf r) : Place l r l r
  | array {o o' vs vs' u u' v v'} {i : Nat} (hl : H.array o = some vs) (hr : H.array o' = some vs') (hu : vs[i]? = some u)
      (hu' : vs'[i]? = some u') (h : Place u u' v v') : Place (.objref o) (.objref o') v v'
  | table {o o' t t' k u u' v v'} (hl : H.table o = some t) (hr : H.table o' = some t') (hu : t.Holds k u)
      (hu' : t'.Holds k u') (h : Place u u' v v') : Place (.objref o) (.objref o') v v'

/-- An object that scripts can change. -/
def Mutable (o : ObjId) : Prop :=
  (H.array o).isSome ∨ (H.table o).isSome ∨ ∃ bytes, H.texts.text o = some (.dstring bytes)

/-- What holds of the objects: each is of one class, and there is none where the next one goes. -/
structure Ok (O : Objects) : Prop where
  pool : H.texts.pool.Inv
  strings : ∀ o, O.isString o = (H.texts.pool.object o).isSome
  array : ∀ o vs, H.array o = some vs → H.table o = none ∧ H.texts.text o = none
  table : ∀ o t, H.table o = some t → H.texts.text o = none
  fresh : ∀ o, H.next ≤ o → H.array o = none ∧ H.table o = none ∧ H.texts.text o = none

end Trees

/-! ## Leaves -/

/-- Leaves with the same contents: the same texts, the same bits, or equal numbers. -/
def Alike (R : Reals) (H : ObjectHeap) : Value → Value → Prop
  | .nil, .nil => True
  | .integer a, .integer b => a = b
  | .boolean a, .boolean b => a = b
  | .classid a, .classid b => a = b
  | .real a, .real b => a = b ∨ Value.realEq a b = true
  | .real a, .integer b => Value.realEq a (R.ofInt b) = true
  | .integer a, .real b => Value.realEq (R.ofInt a) b = true
  | .objref o, .objref o' => ∃ s t, H.texts.text o = some s ∧ H.texts.text o' = some t ∧ s.buffer = t.buffer
  | _, _ => False

/-- Leaves with the same contents that are not equal: one real that is not a number, or two dynamic strings. -/
def Twins (H : ObjectHeap) (l r : Value) : Prop :=
  (∃ a, l = .real a ∧ r = .real a ∧ Value.realEq a a = false) ∨
    ∃ o o' s, l = .objref o ∧ r = .objref o' ∧ o ≠ o' ∧ H.texts.text o = some (.dstring s) ∧
      H.texts.text o' = some (.dstring s)

variable {O : Objects} {R : Reals} {H : ObjectHeap} {S : ObjId → Prop} {l r v : Value} {n : Nat} {o o' : ObjId}

/-- The answer of `==` is the boolean that it writes. -/
theorem equal_of_truth {b : Bool} (h : (H.classes R).operators.opEq l r () = .ok (.value (.truth b), ())) :
    H.equal R l r = .ok b := by
  unfold equal
  rw [h]
  cases b <;> rfl

/-- `==` on an object to the left is its metamethod. -/
theorem equal_objref {b : Bool} (h : H.eqMethod o r = .ok (.truth b)) : H.equal R (.objref o) r = .ok b := by
  have hcases : operands (.objref o) r = none := by
    unfold operands mk2types
    exact if_neg (Nat.not_lt.mpr (Nat.le_add_right 25 _))
  apply equal_of_truth
  unfold Meta.opEq Meta.fallback
  rw [hcases]
  show Op.method ((H.classes R).objectOp false (.objref o) .eq r) () = _
  have hmethod : (H.classes R).objectOp false (.objref o) .eq r () = .ok (.truth b, ()) := by
    show ((H.eqMethod o r).mapError _).map _ = _
    rw [h]
    rfl
  unfold Op.method
  rw [hmethod]
  rfl

/-- A class id to the left of an object is compared by the metamethod of the object. -/
theorem equal_classid {a : BitVec 32} {b : Bool} (h : H.eqMethod o (.classid a) = .ok (.truth b)) :
    H.equal R (.classid a) (.objref o) = .ok b := by
  apply equal_of_truth
  show Op.method ((H.classes R).objectRop false (.objref o) .eq (.classid a)) () = _
  have hmethod : (H.classes R).objectRop false (.objref o) .eq (.classid a) () = .ok (.truth b, ()) := by
    show ((H.eqMethod o (.classid a)).mapError _).map _ = _
    rw [h]
    rfl
  unfold Op.method
  rw [hmethod]
  rfl

/-- No object is equal to what is not one. -/
theorem eqMethod_of_none (hr : r.obj? = none) : H.eqMethod o r = .ok (.truth false) := by
  unfold eqMethod
  cases htext : H.texts.text o with
  | none =>
    rw [hr]
    rfl
  | some s =>
    dsimp only
    unfold Texts.eq
    rw [htext]
    cases s with
    | string buffer =>
      unfold sEq
      rw [hr]
    | dstring buffer =>
      unfold dsEq
      rw [hr]

/-- No text is equal to an array or a table. -/
theorem eqMethod_container {s : Text} (ho : H.texts.text o = some s) (ho' : H.texts.text o' = none) :
    H.eqMethod o (.objref o') = .ok (.truth false) := by
  unfold eqMethod
  rw [ho]
  dsimp only
  unfold Texts.eq
  rw [ho]
  cases s with
  | string buffer =>
    unfold sEq Value.obj?
    dsimp only
    rw [ho']
  | dstring buffer =>
    unfold dsEq Value.obj?
    dsimp only
    rw [ho']

theorem eqMethod_text (hH : H.Ok O) {s t : Text} (ho : H.texts.text o = some s) (ho' : H.texts.text o' = some t) :
    H.eqMethod o (.objref o') = .ok (.truth (s.buffer = t.buffer ∧ (Texts.bothDynamic s t → o = o'))) := by
  unfold eqMethod
  rw [ho]
  exact Texts.eq_eq hH.pool ho rfl ho'

/-- Twins are texts or reals. -/
theorem not_twins (hl : l.obj? = none) (hreal : ∀ a, l ≠ .real a) : ¬ Twins H l r := by
  rintro (⟨a, rfl, -⟩ | ⟨o, o', s, rfl, -⟩)
  · exact hreal a rfl
  · cases hl

theorem exists_prim (hl : l.obj? = none) : ∃ a : Prim (BitVec 64), l = a.value := by
  cases l with
  | nil => exact ⟨.nil, rfl⟩
  | real a => exact ⟨.real a, rfl⟩
  | integer a => exact ⟨.whole .integer a, rfl⟩
  | boolean a => exact ⟨.whole .boolean a, rfl⟩
  | classid a => exact ⟨.whole .classid a, rfl⟩
  | objref => cases hl
  | weakref => cases hl

/-- Of two values that are no objects, those that are alike are equal, but for a real that is not a number. -/
theorem equal_plain (hl : l.obj? = none) (hr : r.obj? = none) :
    ∃ b, H.equal R l r = .ok b ∧ (b = true ↔ Alike R H l r ∧ ¬ Twins H l r) := by
  obtain ⟨a, rfl⟩ := exists_prim hl
  obtain ⟨b, rfl⟩ := exists_prim hr
  refine ⟨R.numbers.opEq a b, equal_of_truth (Meta.opEq_value _ a b ()), ?_⟩
  cases a with
  | nil =>
    rw [and_iff_left (not_twins rfl (by rintro _ ⟨⟩))]
    rcases b with _ | _ | ⟨_ | _ | _, _⟩ <;> simp [Numbers.opEq, Alike, Prim.value]
  | whole k a =>
    have hreal : ∀ x, (Prim.whole k a).value ≠ .real x := by
      intro x h
      cases k <;> cases h
    rw [and_iff_left (not_twins (by cases k <;> rfl) hreal)]
    rcases k with _ | _ | _ <;> rcases b with _ | _ | ⟨_ | _ | _, _⟩ <;>
      simp [Numbers.opEq, Alike, Prim.value, Reals.numbers]
  | real a =>
    cases b with
    | real b =>
      show Value.realEq a b = true ↔ (a = b ∨ Value.realEq a b = true) ∧ ¬ Twins H (.real a) (.real b)
      constructor
      · intro heq
        refine ⟨.inr heq, ?_⟩
        rintro (⟨_, ⟨⟩, ⟨⟩, hnan⟩ | ⟨_, _, _, h, -⟩)
        · cases heq.symm.trans hnan
        · cases h
      · rintro ⟨rfl | heq, htwins⟩
        · rcases Bool.eq_false_or_eq_true (Value.realEq a a) with heq | hnan
          · exact heq
          · exact absurd (.inl ⟨a, rfl, rfl, hnan⟩) htwins
        · exact heq
    | nil => simp [Numbers.opEq, Alike, Prim.value]
    | whole k b =>
      have htwins : ¬ Twins H (Prim.real a).value (Prim.whole k b).value := by
        rintro (⟨_, -, h, -⟩ | ⟨_, _, _, h, -⟩)
        · cases k <;> cases h
        · cases h
      rw [and_iff_left htwins]
      cases k <;> simp [Numbers.opEq, Alike, Prim.value, Reals.numbers]

theorem not_alike_right (hl : l.obj? = none) : ¬ Alike R H l (.objref o) := by
  intro h
  cases l with
  | objref => cases hl
  | _ => exact h

theorem not_alike_left (hr : r.obj? = none) : ¬ Alike R H (.objref o) r := by
  intro h
  cases r with
  | objref => cases hr
  | _ => exact h

/-- What is not an object is not equal to one. -/
theorem equal_plain_object (hl : l.obj? = none) : H.equal R l (.objref o) = .ok false := by
  have hnil (h : operands l (.objref o) = some (l.as (l.cls + 1), .nil)) (hne : l.as (l.cls + 1) ≠ .nil) :
      H.equal R l (.objref o) = .ok false := by
    apply equal_of_truth
    unfold Meta.opEq
    rw [h]
    cases hcase : l.as (l.cls + 1) with
    | nil => exact absurd hcase hne
    | real => rfl
    | whole k => cases k <;> rfl
  cases l with
  | nil => exact hnil (by simp [operands, mk2types, Value.cls, Value.as]) (by rintro ⟨⟩)
  | real => exact hnil (by simp [operands, mk2types, Value.cls, Value.as]) (by rintro ⟨⟩)
  | integer => exact hnil (by simp [operands, mk2types, Value.cls, Value.as]) (by rintro ⟨⟩)
  | boolean => exact hnil (by simp [operands, mk2types, Value.cls, Value.as]) (by rintro ⟨⟩)
  | classid => exact equal_classid (eqMethod_of_none rfl)
  | objref => cases hl
  | weakref => cases hl

/-- A value of a tree that is not an object is a leaf. -/
theorem IsTree.isLeaf (hv : H.IsTree O S n v) (hobj : v.obj? = none) : H.IsLeaf v := by
  cases hv with
  | leaf hleaf _ => exact hleaf
  | array => cases hobj
  | table => cases hobj

/-- An object is a leaf if it is a text. -/
theorem IsTree.text_of_not_leaf (hH : H.Ok O) (hv : H.IsTree O S n (.objref o)) (hleaf : ¬ H.IsLeaf (.objref o)) :
    H.texts.text o = none := by
  cases hv with
  | leaf h _ => exact absurd h hleaf
  | array harray => exact (hH.array o _ harray).2
  | table htable => exact hH.table o _ htable

theorem twins_objref_iff {s t : Text} (ho : H.texts.text o = some s) (ho' : H.texts.text o' = some t)
    (hsame : s.buffer = t.buffer) : Twins H (.objref o) (.objref o') ↔ Texts.bothDynamic s t = true ∧ o ≠ o' := by
  constructor
  · rintro (⟨_, h, -⟩ | ⟨_, _, s', ⟨⟩, ⟨⟩, hne, hs, ht⟩)
    · cases h
    · rw [ho] at hs
      rw [ho'] at ht
      cases hs
      cases ht
      exact ⟨rfl, hne⟩
  · rintro ⟨hboth, hne⟩
    cases s with
    | string => cases hboth
    | dstring buffer =>
      cases t with
      | string => cases hboth
      | dstring buffer' =>
        obtain rfl : buffer = buffer' := hsame
        exact .inr ⟨o, o', buffer, rfl, rfl, hne, ho, ho'⟩

/-- A leaf is equal to another one if they are alike and no twins, and to nothing else. -/
theorem equal_leaf (hH : H.Ok O) (hl : H.IsLeaf l) (hr : H.IsTree O S n r) :
    ∃ b, H.equal R l r = .ok b ∧ (b = true ↔ H.IsLeaf r ∧ Alike R H l r ∧ ¬ Twins H l r) := by
  cases hlobj : l.obj? with
  | none =>
    cases hrobj : r.obj? with
    | none =>
      obtain ⟨b, hb, hiff⟩ := equal_plain (R := R) (H := H) hlobj hrobj
      exact ⟨b, hb, hiff.trans (and_iff_right (hr.isLeaf hrobj)).symm⟩
    | some o' =>
      cases r with
      | objref o' =>
        exact ⟨false, equal_plain_object hlobj,
          iff_of_false Bool.false_ne_true fun h => not_alike_right hlobj h.2.1⟩
      | weakref => cases hr with | leaf h _ => exact h.elim
      | _ => cases hrobj
  | some o =>
    cases l with
    | weakref => exact hl.elim
    | objref o =>
      obtain ⟨s, hs⟩ := Option.isSome_iff_exists.mp hl
      cases hrobj : r.obj? with
      | none =>
        exact ⟨false, equal_objref (eqMethod_of_none hrobj),
          iff_of_false Bool.false_ne_true fun h => not_alike_left hrobj h.2.1⟩
      | some o' =>
        cases r with
        | weakref => cases hr with | leaf h _ => exact h.elim
        | objref o' =>
          by_cases hleaf : H.IsLeaf (.objref o')
          · obtain ⟨t, ht⟩ := Option.isSome_iff_exists.mp hleaf
            refine ⟨_, equal_objref (eqMethod_text hH hs ht), ?_⟩
            rw [decide_eq_true_iff, and_iff_right hleaf]
            constructor
            · rintro ⟨hsame, hobj⟩
              refine ⟨⟨s, t, hs, ht, hsame⟩, ?_⟩
              rw [twins_objref_iff hs ht hsame]
              exact fun h => h.2 (hobj h.1)
            · rintro ⟨⟨s', t', hs', ht', hsame⟩, htwins⟩
              rw [hs] at hs'
              rw [ht] at ht'
              cases hs'
              cases ht'
              rw [twins_objref_iff hs ht hsame] at htwins
              exact ⟨hsame, fun hboth => by_contra fun hne => htwins ⟨hboth, hne⟩⟩
          · exact ⟨false, equal_objref (eqMethod_container hs (hr.text_of_not_leaf hH hleaf)),
              iff_of_false Bool.false_ne_true fun h => hleaf h.1⟩
        | _ => cases hrobj
    | _ => cases hlobj

/-! ## The same structure -/

theorem realEq_comm (a b : BitVec 64) : Value.realEq a b = Value.realEq b a := by
  unfold Value.realEq
  dsimp only
  rw [Bool.beq_comm (a := a), Bool.and_comm (x := !_) (y := !_), Bool.and_comm (x := _ == 0)]

theorem Alike.refl (hv : H.IsLeaf v) : Alike R H v v := by
  cases v with
  | nil => trivial
  | real a => exact .inl rfl
  | integer => rfl
  | boolean => rfl
  | classid => rfl
  | objref o =>
    obtain ⟨s, hs⟩ := Option.isSome_iff_exists.mp hv
    exact ⟨s, s, hs, hs, rfl⟩
  | weakref => exact hv

theorem Alike.symm (h : Alike R H l r) : Alike R H r l := by
  cases l with
  | nil => cases r with
    | nil => trivial
    | _ => exact h
  | real a => cases r with
    | real b => exact h.imp Eq.symm fun h => (realEq_comm b a).trans h
    | integer b => exact (realEq_comm (R.ofInt b) a).trans h
    | _ => exact h
  | integer a => cases r with
    | real b => exact (realEq_comm b (R.ofInt a)).trans h
    | integer => exact Eq.symm h
    | _ => exact h
  | boolean => cases r with
    | boolean => exact Eq.symm h
    | _ => exact h
  | classid => cases r with
    | classid => exact Eq.symm h
    | _ => exact h
  | objref => cases r with
    | objref =>
      obtain ⟨s, t, hs, ht, hsame⟩ := h
      exact ⟨t, s, ht, hs, hsame.symm⟩
    | _ => exact h
  | weakref => exact h.elim

variable {leaf leaf' : Value → Value → Prop}

theorem Equal.refl (hleaf : ∀ v, H.IsLeaf v → leaf v v) (hv : H.IsTree O S n v) : H.Equal leaf v v := by
  induction hv with
  | leaf h _ => exact .leaf h h (hleaf _ h)
  | array harray _ _ _ ih =>
    refine .array harray harray rfl fun i v v' hv hv' => ?_
    cases hv.symm.trans hv'
    exact ih v (List.mem_of_getElem? hv)
  | table htable _ hinv _ _ ih =>
    refine .table htable htable (fun k => Iff.rfl) fun k v v' hv hv' => ?_
    cases hinv.holds_unique hv hv'
    exact ih k v hv

theorem Equal.symm (hleaf : ∀ l r, leaf l r → leaf r l) (h : H.Equal leaf l r) : H.Equal leaf r l := by
  induction h with
  | leaf hl hr h => exact .leaf hr hl (hleaf _ _ h)
  | array hl hr hlength _ ih => exact .array hr hl hlength.symm fun i v v' hv hv' => ih i v' v hv' hv
  | table hl hr hkeys _ ih => exact .table hr hl (fun k => (hkeys k).symm) fun k v v' hv hv' => ih k v' v hv' hv

theorem Ok.not_leaf_of_array (hH : H.Ok O) {vs : List Value} (h : H.array o = some vs) : ¬ H.IsLeaf (.objref o) := by
  intro hleaf
  obtain ⟨s, hs⟩ := Option.isSome_iff_exists.mp hleaf
  cases hs.symm.trans (hH.array o vs h).2

theorem Ok.not_leaf_of_table (hH : H.Ok O) {t : Table} (h : H.table o = some t) : ¬ H.IsLeaf (.objref o) := by
  intro hleaf
  obtain ⟨s, hs⟩ := Option.isSome_iff_exists.mp hleaf
  cases hs.symm.trans (hH.table o t h)

theorem Ok.no_table (hH : H.Ok O) {vs : List Value} {t : Table} (h : H.array o = some vs) : H.table o ≠ some t := by
  intro htable
  cases htable.symm.trans (hH.array o vs h).1

/-- What holds of all leaves that are in the same places can be seen apart from the structure. -/
theorem equal_and_iff (hH : H.Ok O) {P Q : Value → Value → Prop} : H.Equal (fun l r => P l r ∧ Q l r) l r ↔
    H.Equal P l r ∧ ∀ v v', H.Place l r v v' → Q v v' := by
  constructor
  · intro h
    induction h with
    | leaf hl hr h =>
      refine ⟨.leaf hl hr h.1, fun v v' hplace => ?_⟩
      cases hplace with
      | leaf => exact h.2
      | array harray => exact absurd hl (hH.not_leaf_of_array harray)
      | table htable => exact absurd hl (hH.not_leaf_of_table htable)
    | array hl hr hlength h ih =>
      refine ⟨.array hl hr hlength fun i v v' hv hv' => (ih i v v' hv hv').1, fun v v' hplace => ?_⟩
      cases hplace with
      | leaf hleaf => exact absurd hleaf (hH.not_leaf_of_array hl)
      | array hl' hr' hu hu' hplace =>
        cases hl.symm.trans hl'
        cases hr.symm.trans hr'
        exact (ih _ _ _ hu hu').2 v v' hplace
      | table htable => exact absurd htable (hH.no_table hl)
    | table hl hr hkeys h ih =>
      refine ⟨.table hl hr hkeys fun k v v' hv hv' => (ih k v v' hv hv').1, fun v v' hplace => ?_⟩
      cases hplace with
      | leaf hleaf => exact absurd hleaf (hH.not_leaf_of_table hl)
      | array harray => exact absurd hl (hH.no_table harray)
      | table hl' hr' hu hu' hplace =>
        cases hl.symm.trans hl'
        cases hr.symm.trans hr'
        exact (ih _ _ _ hu hu').2 v v' hplace
  · rintro ⟨h, hQ⟩
    induction h with
    | leaf hl hr h => exact .leaf hl hr ⟨h, hQ _ _ (.leaf hl hr)⟩
    | array hl hr hlength _ ih =>
      exact .array hl hr hlength fun i v v' hv hv' =>
        ih i v v' hv hv' fun a b hplace => hQ a b (.array hl hr hv hv' hplace)
    | table hl hr hkeys _ ih =>
      exact .table hl hr hkeys fun k v v' hv hv' =>
        ih k v v' hv hv' fun a b hplace => hQ a b (.table hl hr hv hv' hplace)

/-! ## Trees in other heaps -/

/-- Two heaps with the same object. -/
structure SameObject (H H' : ObjectHeap) (o : ObjId) : Prop where
  array : H'.array o = H.array o
  table : H'.table o = H.table o
  text : H'.texts.text o = H.texts.text o

variable {H' : ObjectHeap} {S' : ObjId → Prop}

theorem IsLeaf.congr (hobj : ∀ o, v = .objref o → SameObject H H' o) (hv : H.IsLeaf v) : H'.IsLeaf v := by
  cases v with
  | objref o =>
    show (H'.texts.text o).isSome
    rw [(hobj o rfl).text]
    exact hv
  | _ => exact hv

/-- A tree is the same in a heap with its objects. -/
theorem IsTree.congr (hsame : ∀ o, S o → SameObject H H' o) (hS : ∀ o, S o → S' o) (hv : H.IsTree O S n v) :
    H'.IsTree O S' n v := by
  induction hv with
  | leaf hleaf hobj => exact .leaf (hleaf.congr fun o ho => hsame o (hobj o ho)) fun o ho => hS o (hobj o ho)
  | array harray hobj hdeep _ ih =>
    exact .array ((hsame _ hobj).array.trans harray) (hS _ hobj) hdeep ih
  | table htable hobj hinv hdeep _ ih =>
    exact .table ((hsame _ hobj).table.trans htable) (hS _ hobj) hinv hdeep ih

theorem IsTree.obj (hv : H.IsTree O S n v) (ho : v = .objref o) : S o := by
  cases hv with
  | leaf _ hobj => exact hobj o ho
  | array _ hobj =>
    cases ho
    exact hobj
  | table _ hobj =>
    cases ho
    exact hobj

/-- The items of an array in a tree. -/
theorem IsTree.items (hH : H.Ok O) {vs : List Value} (hv : H.IsTree O S n (.objref o)) (harray : H.array o = some vs) :
    (vs = [] ∨ 0 < n) ∧ ∀ v ∈ vs, H.IsTree O S (n - 1) v := by
  cases hv with
  | leaf hleaf => exact absurd hleaf (hH.not_leaf_of_array harray)
  | array harray' _ hdeep hitems =>
    cases harray.symm.trans harray'
    exact ⟨hdeep, hitems⟩
  | table htable => exact absurd htable (hH.no_table harray)

/-- The items of a table in a tree. -/
theorem IsTree.entries (hH : H.Ok O) {t : Table} (hv : H.IsTree O S n (.objref o)) (htable : H.table o = some t) :
    t.Inv O ∧ (t.length = 0 ∨ 0 < n) ∧ ∀ k v, t.Holds k v → H.IsTree O S (n - 1) v := by
  cases hv with
  | leaf hleaf => exact absurd hleaf (hH.not_leaf_of_table htable)
  | array harray => exact absurd htable (hH.no_table harray)
  | table htable' _ hinv hdeep hitems =>
    cases htable.symm.trans htable'
    exact ⟨hinv, hdeep, hitems⟩

/-- The structure of two trees is the same in a heap with their objects. -/
theorem Equal.congr (hH : H.Ok O) {m : Nat} (hsame : ∀ o, S o → SameObject H H' o)
    (hsame' : ∀ o, S' o → SameObject H H' o) (hl : H.IsTree O S n l) (hr : H.IsTree O S' m r)
    (hleaf : ∀ l r, (∀ o, l = .objref o → S o) → (∀ o, r = .objref o → S' o) → leaf l r → leaf' l r)
    (h : H.Equal leaf l r) : H'.Equal leaf' l r := by
  induction h generalizing n m with
  | leaf hl' hr' h =>
    exact .leaf (hl'.congr fun o ho => hsame o (hl.obj ho)) (hr'.congr fun o ho => hsame' o (hr.obj ho))
      (hleaf _ _ (fun o ho => hl.obj ho) (fun o ho => hr.obj ho) h)
  | array hl' hr' hlength _ ih =>
    exact .array ((hsame _ (hl.obj rfl)).array.trans hl') ((hsame' _ (hr.obj rfl)).array.trans hr') hlength
      fun i v v' hv hv' => ih i v v' hv hv' ((hl.items hH hl').2 v (List.mem_of_getElem? hv))
        ((hr.items hH hr').2 v' (List.mem_of_getElem? hv'))
  | table hl' hr' hkeys _ ih =>
    exact .table ((hsame _ (hl.obj rfl)).table.trans hl') ((hsame' _ (hr.obj rfl)).table.trans hr') hkeys
      fun k v v' hv hv' => ih k v v' hv hv' ((hl.entries hH hl').2.2 k v hv) ((hr.entries hH hr').2.2 k v' hv')

/-- What is within a tree is a tree. -/
theorem IsTree.within (hH : H.Ok O) (hv : H.IsTree O S n v) {u : Value} (hu : H.Within v u) :
    ∃ m, H.IsTree O S m u := by
  induction hu generalizing n with
  | refl => exact ⟨n, hv⟩
  | array harray hu _ ih => exact ih ((hv.items hH harray).2 _ hu)
  | table htable hu _ ih => exact ih ((hv.entries hH htable).2.2 _ _ hu)

end ObjectHeap

end Eel
