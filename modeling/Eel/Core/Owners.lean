-- SUMMARY: Reference counts that equal the number of owners, and that disowning keeps them so and destroys nothing that is owned.
import Eel.Core.Store
import Mathlib.Algebra.BigOperators.Group.Finset.Basic
import Mathlib.Algebra.Order.BigOperators.Group.Finset
import Mathlib.Data.Set.Basic

/-!
# Owners

The heap positions `P` that own what they refer to, and the references `L` that are
owned elsewhere, are parameters: which they are depends on the frames of the VM.
-/

namespace Eel

open scoped BigOperators

/-- The objects that an object owns. -/
def Object.refs (ob : Object) : List ObjId := ob.strong ++ ob.cls.toList

/-- What becomes of an object that is not destroyed. -/
structure Object.Stays (ob ob' : Object) : Prop where
  refs : ob'.refs = ob.refs
  freed : ob'.freed = ob.freed
  length : ob'.values.length = ob.values.length

theorem Object.Stays.refl {ob : Object} : ob.Stays ob := ⟨rfl, rfl, rfl⟩

theorem Object.Stays.trans {ob ob' ob'' : Object} (h : ob.Stays ob') (h' : ob'.Stays ob'') :
    ob.Stays ob'' :=
  ⟨h'.refs.trans h.refs, h'.freed.trans h.freed, h'.length.trans h.length⟩

/-! ## Fading -/

namespace Value

variable {v v' v'' : Value} {o : ObjId}

/-- What is left of a value when objects are destroyed. -/
def Faded (v v' : Value) : Prop := v' = v ∨ v' = .nil ∧ ∃ o, v = .weakref o true

theorem Faded.refl : Faded v v := .inl rfl

theorem Faded.trans (h : Faded v v') (h' : Faded v' v'') : Faded v v'' := by
  rcases h with rfl | ⟨rfl, hv⟩
  · exact h'
  · rcases h' with rfl | ⟨rfl, -⟩ <;> exact .inr ⟨rfl, hv⟩

theorem Faded.strong? (h : Faded v v') : v'.strong? = v.strong? := by
  rcases h with rfl | ⟨rfl, o, rfl⟩ <;> rfl

theorem Faded.eq_weakref (h : Faded v v') (hv : v' = .weakref o true) : v = .weakref o true := by
  rcases h with rfl | ⟨rfl, -⟩
  · exact hv
  · cases hv

theorem faded_kill : Faded v (v.kill o) := by
  cases v with
  | weakref o' wired =>
    cases wired with
    | false => exact .inl rfl
    | true =>
      by_cases h : o' = o
      · exact .inr ⟨by simp [kill, h], o', rfl⟩
      · exact .inl (by simp [kill, h])
  | _ => exact .inl rfl

@[simp] theorem kill_strong? : (v.kill o).strong? = v.strong? := faded_kill.strong?

theorem kill_ne_weakref : v.kill o ≠ .weakref o true := by
  cases v with
  | weakref o' wired =>
    cases wired with
    | false => simp [kill]
    | true =>
      by_cases h : o' = o
      · simp [kill, h]
      · simp [kill, h]
  | _ => simp [kill]

end Value

namespace Store

variable {s s' s'' : Store} {P : List Nat} {L : List ObjId} {o x : ObjId} {v : Value}

/-- The values the store holds. -/
def Holds (s : Store) (v : Value) : Prop :=
  (∃ i, s.heap i = v) ∨ s.exception = v ∨ ∃ o, v ∈ (s.object o).values

/-- The objects that the heap positions `P` own. -/
def heldAt (s : Store) (P : List Nat) : List ObjId := P.filterMap fun i => (s.heap i).strong?

/-- How often objects own `o`. -/
def slotCount (s : Store) (o : ObjId) : Nat :=
  ∑ o' ∈ Finset.range s.next, (s.object o').refs.count o

/-- The number of owners of `o`. -/
def owners (s : Store) (P : List Nat) (L : List ObjId) (o : ObjId) : Nat :=
  (s.heldAt P).count o + s.slotCount o + s.exception.strong?.toList.count o +
    (s.inLimbo o).toNat + L.count o

/-- Every reference count is the number of owners, and nothing refers to an object
that has been destroyed. -/
structure Exact (s : Store) (P : List Nat) (L : List ObjId) : Prop where
  count : ∀ o, (s.object o).freed = false → (s.object o).refcount = s.owners P L o
  dead : ∀ o, (s.object o).freed = true → s.owners P L o = 0
  /-- What has not been allocated yet counts as destroyed. -/
  unborn : ∀ o, s.next ≤ o → (s.object o).freed = true
  weak : ∀ o, s.Holds (.weakref o true) → (s.object o).freed = false

theorem owners_cons : s.owners P (o :: L) x = s.owners P L x + if o = x then 1 else 0 := by
  simp only [owners, List.count_cons, beq_iff_eq]
  omega

theorem owners_append {L' : List ObjId} :
    s.owners P (L' ++ L) x = L'.count x + s.owners P L x := by
  simp only [owners, List.count_append]
  omega

namespace Exact

variable (h : s.Exact P L)

include h

theorem alive_of_owners (ho : s.owners P L o ≠ 0) : (s.object o).freed = false := by
  cases hf : (s.object o).freed with
  | false => rfl
  | true => exact absurd (h.dead o hf) ho

theorem lt_next (ho : (s.object o).freed = false) : o < s.next :=
  Nat.lt_of_not_le fun hle => by simp [h.unborn o hle] at ho

end Exact

/-! ## Fewer owners -/

/-- What disowning may do to a store. -/
structure Shrinks (s s' : Store) : Prop where
  heap : ∀ i, (s.heap i).Faded (s'.heap i)
  exception : s.exception.Faded s'.exception
  limbo : s'.limbo = s.limbo
  linked : ∀ o, (s'.object o).limbo = (s.object o).limbo
  next : s'.next = s.next
  refuses : ∀ o, (s'.object o).refuses = (s.object o).refuses
  refs : ∀ o, (s'.object o).refs = (s.object o).refs ∨ (s'.object o).refs = []
  values : ∀ o, ∀ v ∈ (s'.object o).values, v = .nil ∨ v ∈ (s.object o).values
  refcount : ∀ o, (s'.object o).refcount ≤ (s.object o).refcount
  freed : ∀ o, (s.object o).freed = true → (s'.object o).freed = true

namespace Shrinks

theorem refl : Shrinks s s where
  heap _ := .refl
  exception := .refl
  limbo := rfl
  linked _ := rfl
  next := rfl
  refuses _ := rfl
  refs _ := .inl rfl
  values _ _ hv := .inr hv
  refcount _ := Int.le_refl _
  freed _ h := h

theorem trans (h : Shrinks s s') (h' : Shrinks s' s'') : Shrinks s s'' where
  heap i := (h.heap i).trans (h'.heap i)
  exception := h.exception.trans h'.exception
  limbo := h'.limbo.trans h.limbo
  linked o := (h'.linked o).trans (h.linked o)
  next := h'.next.trans h.next
  refuses o := (h'.refuses o).trans (h.refuses o)
  refs o := by
    rcases h'.refs o with h₁ | h₁
    · rw [h₁]
      exact h.refs o
    · exact .inr h₁
  values o v hv := by
    rcases h'.values o v hv with hnil | hv
    · exact .inl hnil
    · exact h.values o v hv
  refcount o := Int.le_trans (h'.refcount o) (h.refcount o)
  freed o hf := h'.freed o (h.freed o hf)

variable (h : Shrinks s s')

include h

theorem heldAt : s'.heldAt P = s.heldAt P := by
  unfold Store.heldAt
  congr 1
  funext i
  exact (h.heap i).strong?

theorem inLimbo : s'.inLimbo o = s.inLimbo o := by
  unfold Store.inLimbo
  rw [h.linked]

theorem slotCount_le : s'.slotCount o ≤ s.slotCount o := by
  unfold slotCount
  rw [h.next]
  refine Finset.sum_le_sum fun o' _ => ?_
  rcases h.refs o' with h' | h' <;> rw [h']
  simp

theorem owners_le : s'.owners P L o ≤ s.owners P L o := by
  have hslot := h.slotCount_le (o := o)
  unfold owners
  rw [h.heldAt, h.exception.strong?, h.inLimbo]
  omega

theorem holds (hv : s'.Holds (.weakref o true)) : s.Holds (.weakref o true) := by
  rcases hv with ⟨i, hv⟩ | hv | ⟨o', hv⟩
  · exact .inl ⟨i, (h.heap i).eq_weakref hv⟩
  · exact .inr (.inl (h.exception.eq_weakref hv))
  · rcases h.values o' _ hv with hnil | hv
    · cases hnil
    · exact .inr (.inr ⟨o', hv⟩)

end Shrinks

/-- The objects of `S` own what they owned. -/
def Keeps (S : Set ObjId) (s s' : Store) : Prop := ∀ o ∈ S, (s.object o).Stays (s'.object o)

theorem Keeps.refl {S : Set ObjId} : Keeps S s s := fun _ _ => .refl

theorem Keeps.trans {S : Set ObjId} (h : Keeps S s s') (h' : Keeps S s' s'') : Keeps S s s'' :=
  fun o ho => (h o ho).trans (h' o ho)

/-- Every object of `S` is there, and it has an owner that is no object or in `S` as
well, unless it refuses to be destroyed. -/
def Anchored (s : Store) (P : List Nat) (L : List ObjId) (S : Set ObjId) : Prop :=
  ∀ o ∈ S, (s.object o).freed = false ∧
    (o ∈ s.heldAt P ∨ s.exception.strong? = some o ∨ s.inLimbo o = true ∨ o ∈ L ∨
      (s.object o).refuses = true ∨ ∃ o' ∈ S, o ∈ (s.object o').refs)

namespace Anchored

variable {S : Set ObjId}

theorem mono {L' : List ObjId} (h : s.Anchored P L S) (hL : L ⊆ L') : s.Anchored P L' S := by
  intro o ho
  refine ⟨(h o ho).1, ?_⟩
  rcases (h o ho).2 with hP | hx | hl | hL' | h
  · exact .inl hP
  · exact .inr (.inl hx)
  · exact .inr (.inr (.inl hl))
  · exact .inr (.inr (.inr (.inl (hL hL'))))
  · exact .inr (.inr (.inr (.inr h)))

theorem shrinks (h : s.Anchored P L S) (hs : Shrinks s s') (hk : Keeps S s s') :
    s'.Anchored P L S := by
  intro o ho
  refine ⟨(hk o ho).freed.trans (h o ho).1, ?_⟩
  rw [hs.heldAt, hs.exception.strong?, hs.inLimbo, hs.refuses]
  rcases (h o ho).2 with hP | hx | hl | hL | hr | ⟨o', ho', hr⟩
  · exact .inl hP
  · exact .inr (.inl hx)
  · exact .inr (.inr (.inl hl))
  · exact .inr (.inr (.inr (.inl hL)))
  · exact .inr (.inr (.inr (.inr (.inl hr))))
  · exact .inr (.inr (.inr (.inr (.inr ⟨o', ho', (hk o' ho').refs ▸ hr⟩))))

/-- An anchored object without owners refuses to be destroyed. -/
theorem refuses_of_owners (h : s.Anchored P L S) (hex : s.Exact P L) (ho : o ∈ S)
    (hown : s.owners P L o = 0) : (s.object o).refuses = true := by
  unfold owners at hown
  rcases (h o ho).2 with hP | hx | hl | hL | hr | ⟨o', ho', hr⟩
  · have := List.count_pos_iff.mpr hP
    omega
  · simp [hx] at hown
  · simp [hl] at hown
  · have := List.count_pos_iff.mpr hL
    omega
  · exact hr
  · have hpos := List.count_pos_iff.mpr hr
    have hle : (s.object o').refs.count o ≤ s.slotCount o :=
      Finset.single_le_sum (f := fun o' => (s.object o').refs.count o) (fun _ _ => Nat.zero_le _)
        (Finset.mem_range.mpr (hex.lt_next (h o' ho').1))
    omega

end Anchored

/-! ## Single changes -/

theorem modify_apply {α : Sort*} (g : Object → α) {f : Object → Object}
    (hf : ∀ ob, g (f ob) = g ob) : g ((s.modify o f).object x) = g (s.object x) := by
  by_cases h : x = o
  · subst h
    simp [modify, hf]
  · simp [modify, h]

@[simp] theorem modify_self {f : Object → Object} :
    (s.modify o f).object o = f (s.object o) := Function.update_self ..

theorem modify_ne {f : Object → Object} (h : x ≠ o) : (s.modify o f).object x = s.object x :=
  Function.update_of_ne h ..

theorem sum_modify {n : Nat} {f : Object → Object} (g : Object → Nat) (ho : o < n) :
    ∑ i ∈ Finset.range n, g ((s.modify o f).object i) + g (s.object o) =
      ∑ i ∈ Finset.range n, g (s.object i) + g (f (s.object o)) := by
  have hmem := Finset.mem_range.mpr ho
  have hold := Finset.add_sum_erase _ (fun i : Nat => g (s.object i)) hmem
  have hnew := Finset.add_sum_erase _ (fun i : Nat => g ((s.modify o f).object i)) hmem
  rw [Finset.sum_congr rfl fun i hi => by rw [modify_ne (Finset.ne_of_mem_erase hi)]] at hnew
  simp only [modify_self] at hnew
  omega

theorem slotCount_modify {f : Object → Object} (ho : o < s.next) :
    (s.modify o f).slotCount x + (s.object o).refs.count x =
      s.slotCount x + (f (s.object o)).refs.count x :=
  sum_modify (fun ob => ob.refs.count x) ho

/-- Owners do not depend on the counts. -/
theorem owners_modify {f : Object → Object} (hf : ∀ ob, (f ob).refs = ob.refs)
    (hl : ∀ ob, (f ob).limbo = ob.limbo) : (s.modify o f).owners P L x = s.owners P L x := by
  have hslot : (s.modify o f).slotCount x = s.slotCount x :=
    Finset.sum_congr rfl fun o' _ => by rw [modify_apply Object.refs hf]
  have hlimbo : (s.modify o f).inLimbo x = s.inLimbo x := by
    unfold inLimbo
    rw [modify_apply Object.limbo hl]
  unfold owners
  rw [hslot, hlimbo]
  rfl

theorem holds_modify {f : Object → Object} (hf : ∀ v ∈ (f (s.object o)).values,
    v ∈ (s.object o).values) (hv : (s.modify o f).Holds v) : s.Holds v := by
  rcases hv with hv | hv | ⟨o', hv⟩
  · exact .inl hv
  · exact .inr (.inl hv)
  · by_cases h : o' = o
    · subst h
      rw [modify_self] at hv
      exact .inr (.inr ⟨o', hf v hv⟩)
    · rw [modify_ne h] at hv
      exact .inr (.inr ⟨o', hv⟩)

/-- A change to a count. -/
theorem Exact.modify {f : Object → Object} {L' : List ObjId} (h : s.Exact P L)
    (hrefs : ∀ ob, (f ob).refs = ob.refs) (hl : ∀ ob, (f ob).limbo = ob.limbo)
    (hv : ∀ ob, (f ob).values = ob.values) (hf : ∀ ob, (f ob).freed = ob.freed)
    (hself : (s.object o).freed = false → (f (s.object o)).refcount = s.owners P L' o)
    (hother : ∀ x, x ≠ o → s.owners P L' x = s.owners P L x)
    (hdead : (s.object o).freed = true → s.owners P L' o = 0) : (s.modify o f).Exact P L' := by
  have hfreed : ∀ x, ((s.modify o f).object x).freed = (s.object x).freed :=
    fun x => modify_apply Object.freed hf
  refine ⟨fun x hx => ?_, fun x hx => ?_, fun x hx => ?_, fun x hx => ?_⟩
  · rw [hfreed] at hx
    rw [owners_modify hrefs hl]
    by_cases hxo : x = o
    · subst hxo
      rw [modify_self]
      exact hself hx
    · rw [modify_ne hxo, hother x hxo]
      exact h.count x hx
  · rw [hfreed] at hx
    rw [owners_modify hrefs hl]
    by_cases hxo : x = o
    · subst hxo
      exact hdead hx
    · rw [hother x hxo]
      exact h.dead x hx
  · rw [hfreed]
    exact h.unborn x hx
  · rw [hfreed]
    exact h.weak x (holds_modify (fun v hv' => hv _ ▸ hv') hx)

/-- One owner less. -/
theorem Exact.decr (h : s.Exact P (o :: L)) :
    (s.modify o fun ob => { ob with refcount := ob.refcount - 1 }).Exact P L := by
  have hself : s.owners P (o :: L) o = s.owners P L o + 1 := by simp [owners_cons]
  refine h.modify (fun _ => rfl) (fun _ => rfl) (fun _ => rfl) (fun _ => rfl) (fun ho => ?_)
    (fun x hx => ?_) fun ho => ?_
  · have hcount := h.count o ho
    simp only
    omega
  · rw [owners_cons, if_neg (Ne.symm hx), Nat.add_zero]
  · have hdead := h.dead o ho
    omega

/-- An object that nobody gave up does not count one owner less. -/
theorem Exact.not_decr (h : s.Exact P L) (ho : (s.object o).freed = false) :
    ¬ (s.modify o fun ob => { ob with refcount := ob.refcount - 1 }).Exact P L := by
  intro hdecr
  have hcount := h.count o ho
  have hless := hdecr.count o
  rw [modify_self, owners_modify (f := fun ob => { ob with refcount := ob.refcount - 1 })
    (fun _ => rfl) (fun _ => rfl)] at hless
  have hless := hless ho
  simp only at hless
  omega

/-- One owner more. -/
theorem Exact.ownObject (h : s.Exact P L) (ho : (s.object o).freed = false) :
    (s.ownObject o).Exact P (o :: L) := by
  have hself : s.owners P (o :: L) o = s.owners P L o + 1 := by simp [owners_cons]
  refine h.modify (fun _ => rfl) (fun _ => rfl) (fun _ => rfl) (fun _ => rfl) (fun _ => ?_)
    (fun x hx => ?_) fun hf => ?_
  · have hcount := h.count o ho
    simp only
    omega
  · rw [owners_cons, if_neg (Ne.symm hx), Nat.add_zero]
  · rw [ho] at hf
    cases hf

theorem modify_shrinks {f : Object → Object} (hrc : ∀ ob, (f ob).refcount ≤ ob.refcount)
    (hl : ∀ ob, (f ob).limbo = ob.limbo) (hr : ∀ ob, (f ob).refuses = ob.refuses)
    (hrefs : ∀ ob, (f ob).refs = ob.refs ∨ (f ob).refs = [])
    (hv : ∀ ob, ∀ v ∈ (f ob).values, v ∈ ob.values)
    (hf : ∀ ob, ob.freed = true → (f ob).freed = true) : Shrinks s (s.modify o f) := by
  have hall : ∀ (C : Object → Object → Prop), (∀ ob, C ob ob) → (∀ ob, C ob (f ob)) →
      ∀ x, C (s.object x) ((s.modify o f).object x) := by
    intro C hrefl hC x
    by_cases hx : x = o
    · subst hx
      rw [modify_self]
      exact hC _
    · rw [modify_ne hx]
      exact hrefl _
  exact
    { heap := fun _ => .refl
      exception := .refl
      limbo := rfl
      linked := fun _ => modify_apply Object.limbo hl
      next := rfl
      refuses := fun _ => modify_apply Object.refuses hr
      refs := hall (fun ob ob' => ob'.refs = ob.refs ∨ ob'.refs = []) (fun _ => .inl rfl) hrefs
      values := hall (fun ob ob' => ∀ v ∈ ob'.values, v = .nil ∨ v ∈ ob.values)
        (fun _ _ hv => .inr hv) fun ob v hv' => .inr (hv ob v hv')
      refcount := hall (fun ob ob' => ob'.refcount ≤ ob.refcount) (fun _ => Int.le_refl _) hrc
      freed := hall (fun ob ob' => ob.freed = true → ob'.freed = true) (fun _ h => h) hf }

end Store

end Eel
