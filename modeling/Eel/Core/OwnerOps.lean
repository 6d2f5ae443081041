-- SUMMARY: What copying, receiving, grabbing and the limbo lists do to exact counts.
import Eel.Core.Disown

/-!
# Changes of ownership
-/

namespace Eel

open scoped BigOperators

namespace Value

variable {v : Value} {o : ObjId}

@[simp] theorem strong?_weakref {b : Bool} : (Value.weakref o b).strong? = none := rfl

theorem strong?_eq_some : v.strong? = some o ↔ v = .objref o := by
  cases v <;> simp [strong?]

theorem obj?_of_strong? (h : v.strong? = some o) : v.obj? = some o := by
  rw [strong?_eq_some.mp h]
  rfl

theorem obj?_of_copy (h : v.copy.obj? = some o) : v.obj? = some o := by
  cases v with
  | weakref o' wired => cases wired <;> exact h
  | _ => exact h

end Value

namespace Store

variable {s s' : Store} {P P' : List Nat} {L L' : List ObjId} {S : Set ObjId} {o x : ObjId}
  {v : Value} {i b : Nat}

/-- The object that a value refers to is there. -/
def Live (s : Store) (v : Value) : Prop := ∀ o, v.obj? = some o → (s.object o).freed = false

/-! ## Owners by another name -/

theorem Exact.congr (h : s.Exact P L) (ho : ∀ x, s.owners P' L' x = s.owners P L x) :
    s.Exact P' L' :=
  ⟨fun x hx => (ho x).symm ▸ h.count x hx, fun x hx => (ho x).trans (h.dead x hx), h.unborn,
    h.weak⟩

theorem heldAt_cons : s.heldAt (i :: P) = (s.heap i).strong?.toList ++ s.heldAt P := by
  unfold heldAt
  rw [List.filterMap_cons]
  cases (s.heap i).strong? <;> rfl

/-- What a position owns can count as owned elsewhere. -/
theorem exact_cons : s.Exact (i :: P) L ↔ s.Exact P ((s.heap i).strong?.toList ++ L) := by
  have ho : ∀ x, s.owners (i :: P) L x = s.owners P ((s.heap i).strong?.toList ++ L) x := by
    intro x
    rw [owners_append]
    unfold owners
    rw [heldAt_cons, List.count_append]
    omega
  exact ⟨fun h => h.congr fun x => (ho x).symm, fun h => h.congr ho⟩

theorem Exact.perm (h : s.Exact P L) (hP : P'.Perm P) : s.Exact P' L :=
  h.congr fun x => by
    unfold owners
    rw [show (s.heldAt P').count x = (s.heldAt P).count x from (hP.filterMap _).count_eq x]

/-! ## Writing to the heap -/

@[simp] theorem setHeap_self : (s.setHeap i v).heap i = v := Function.update_self ..

theorem setHeap_ne {j : Nat} (h : j ≠ i) : (s.setHeap i v).heap j = s.heap j :=
  Function.update_of_ne h ..

theorem holds_setHeap {v' : Value} (h : (s.setHeap i v).Holds v') : v' = v ∨ s.Holds v' := by
  rcases h with ⟨j, hj⟩ | hx | hs
  · by_cases hji : j = i
    · subst hji
      exact .inl (hj.symm.trans (Function.update_self ..))
    · exact .inr (.inl ⟨j, (Function.update_of_ne hji ..).symm.trans hj⟩)
  · exact .inr (.inr (.inl hx))
  · exact .inr (.inr (.inr hs))

theorem Exact.setHeap (h : s.Exact P L)
    (hi : i ∉ P ∨ (s.heap i).strong? = none ∧ v.strong? = none)
    (hv : ∀ o, v = .weakref o true → (s.object o).freed = false) : (s.setHeap i v).Exact P L := by
  have hheld : (s.setHeap i v).heldAt P = s.heldAt P := by
    refine List.filterMap_congr fun j hj => ?_
    by_cases hji : j = i
    · subst hji
      rcases hi with hi | ⟨hold, hnew⟩
      · exact absurd hj hi
      · exact (congrArg Value.strong? (Function.update_self ..)).trans (hnew.trans hold.symm)
    · exact congrArg Value.strong? (Function.update_of_ne hji ..)
  have howners : ∀ x, (s.setHeap i v).owners P L x = s.owners P L x := by
    intro x
    unfold owners
    rw [hheld]
    rfl
  refine ⟨fun x hx => ?_, fun x hx => ?_, h.unborn, fun x hx => ?_⟩
  · rw [howners]
    exact h.count x hx
  · rw [howners]
    exact h.dead x hx
  · rcases holds_setHeap hx with hx | hx
    · exact hv x hx.symm
    · exact h.weak x hx

/-! ## Copying -/

theorem Exact.own (h : s.Exact P L) (hv : s.Live v) : (s.own v).Exact P (v.strong?.toList ++ L) := by
  cases v with
  | objref o => exact h.ownObject (hv o rfl)
  | _ => exact h

@[simp] theorem own_heap : (s.own v).heap = s.heap := by
  cases v <;> rfl

/-- The copy is owned by nobody yet. -/
theorem Exact.copy (h : s.Exact P L) (hv : s.Live v)
    (hi : i ∉ P ∨ (s.heap i).strong? = none ∧ v.copy.strong? = none) :
    (s.copy i v).Exact P (v.copy.strong?.toList ++ L) := by
  refine (h.setHeap hi fun o ho => hv o (Value.obj?_of_copy ?_)).own fun o ho => ?_
  · rw [ho]
    rfl
  · exact hv o (Value.obj?_of_copy ho)

@[simp] theorem copy_self : (s.copy i v).heap i = v.copy := by
  unfold Store.copy Store.setHeap
  rw [own_heap]
  exact Function.update_self ..

/-- The copy is owned by its position. -/
theorem Exact.copy_cons (h : s.Exact P L) (hv : s.Live v) (hi : i ∉ P) :
    (s.copy i v).Exact (i :: P) L := by
  rw [exact_cons, copy_self]
  exact h.copy hv (.inl hi)

theorem Exact.qcopy (h : s.Exact P L) (hi : i ∉ P) : (s.qcopy i v).Exact P L := by
  refine h.setHeap (.inl hi) fun o ho => ?_
  split at ho
  · cases ho
  · rename_i hne
    exact absurd ho (hne o true)

/-! ## Disowning -/

theorem Exact.disown (h : s.Exact P (v.strong?.toList ++ L)) (hS : s.Anchored P L S) :
    Disowned P L S s (s.disown v) := by
  cases v with
  | objref o => exact disownObject_disowned h hS
  | _ => exact ⟨h, .refl, .refl⟩

theorem anchored_empty : s.Anchored P L ∅ := fun _ h => h.elim

/-- What a position owned is disowned. -/
theorem Exact.disown_cons (h : s.Exact (i :: P) L) (hS : s.Anchored P L S) :
    Disowned P L S s (s.disown (s.heap i)) :=
  (exact_cons.mp h).disown hS

/-! ## Limbo lists -/

/-- The limbo lists and the links of the objects agree. -/
structure Linked (s : Store) : Prop where
  mem : ∀ b o, o ∈ s.limbo b ↔ (s.object o).limbo = some b
  nodup : ∀ b, (s.limbo b).Nodup

/-- The limbo lists are as they were. -/
structure SameLimbo (s s' : Store) : Prop where
  limbo : s'.limbo = s.limbo
  linked : ∀ o, (s'.object o).limbo = (s.object o).limbo

theorem Shrinks.sameLimbo (h : Shrinks s s') : SameLimbo s s' := ⟨h.limbo, h.linked⟩

theorem SameLimbo.refl : SameLimbo s s := ⟨rfl, fun _ => rfl⟩

theorem SameLimbo.trans {s'' : Store} (h : SameLimbo s s') (h' : SameLimbo s' s'') :
    SameLimbo s s'' :=
  ⟨h'.limbo.trans h.limbo, fun o => (h'.linked o).trans (h.linked o)⟩

theorem SameLimbo.own : SameLimbo s (s.own v) := by
  cases v with
  | objref o =>
    have hl : ∀ ob : Object, { ob with refcount := ob.refcount + 1 }.limbo = ob.limbo := fun _ => rfl
    exact ⟨rfl, fun _ => modify_apply Object.limbo hl⟩
  | _ => exact .refl

theorem SameLimbo.copy : SameLimbo s (s.copy i v) :=
  have hset : SameLimbo s (s.setHeap i v.copy) := ⟨rfl, fun _ => rfl⟩
  hset.trans .own

theorem SameLimbo.keeps (h : SameLimbo s s') (hl : s.Linked) : s'.Linked :=
  ⟨fun b o => by rw [h.limbo, h.linked]; exact hl.mem b o, fun b => by rw [h.limbo]; exact hl.nodup b⟩

/-- An object enters or leaves a limbo list, and an owner elsewhere makes up for it. -/
theorem Exact.relink (h : s.Exact P L) (hheap : s'.heap = s.heap)
    (hx : s'.exception = s.exception) (hn : s'.next = s.next)
    (hob : ∀ x, ∃ l, s'.object x = { s.object x with limbo := l })
    (hl : ∀ x, (s'.inLimbo x).toNat + L'.count x = (s.inLimbo x).toNat + L.count x) :
    s'.Exact P L' := by
  have hrefs : ∀ x, (s'.object x).refs = (s.object x).refs := fun x => by
    obtain ⟨l, hx⟩ := hob x
    rw [hx]
    rfl
  have howners : ∀ x, s'.owners P L' x = s.owners P L x := by
    intro x
    have hslot : s'.slotCount x = s.slotCount x := by
      unfold slotCount
      rw [hn]
      exact Finset.sum_congr rfl fun o' _ => by rw [hrefs]
    have hbalance := hl x
    unfold owners heldAt
    rw [hslot, hheap, hx]
    omega
  have hfreed : ∀ x, (s'.object x).freed = (s.object x).freed := fun x => by
    obtain ⟨l, hx⟩ := hob x
    rw [hx]
  have hrc : ∀ x, (s'.object x).refcount = (s.object x).refcount := fun x => by
    obtain ⟨l, hx⟩ := hob x
    rw [hx]
  refine ⟨fun x hf => ?_, fun x hf => ?_, fun x hle => ?_, fun x hw => ?_⟩
  · rw [howners, hrc]
    exact h.count x ((hfreed x).symm.trans hf)
  · rw [howners]
    exact h.dead x ((hfreed x).symm.trans hf)
  · rw [hfreed]
    exact h.unborn x (hn ▸ hle)
  · rw [hfreed]
    refine h.weak x ?_
    rcases hw with ⟨i, hi⟩ | hw | ⟨o', ho'⟩
    · exact .inl ⟨i, hheap ▸ hi⟩
    · exact .inr (.inl (hx ▸ hw))
    · obtain ⟨l', ho''⟩ := hob o'
      rw [ho''] at ho'
      exact .inr (.inr ⟨o', ho'⟩)

theorem modify_limbo {l : Option Nat} (x : ObjId) :
    ∃ l', (s.modify o fun ob => { ob with limbo := l }).object x = { s.object x with limbo := l' } := by
  by_cases hx : x = o
  · subst hx
    exact ⟨l, modify_self⟩
  · exact ⟨_, modify_ne hx⟩

theorem modify_limbo_eq {l : Option Nat} :
    ((s.modify o fun ob => { ob with limbo := l }).object x).limbo =
      if x = o then l else (s.object x).limbo := by
  by_cases hx : x = o
  · subst hx
    rw [modify_self, if_pos rfl]
  · rw [modify_ne hx, if_neg hx]

theorem limboPush_limbo : (s.limboPush b o).limbo = Function.update s.limbo b (o :: s.limbo b) := rfl

theorem limboPush_linked :
    ((s.limboPush b o).object x).limbo = if x = o then some b else (s.object x).limbo :=
  modify_limbo_eq

theorem limboUnlink_eq (ho : (s.object o).limbo = some b) :
    s.limboUnlink o = { s.modify o fun ob => { ob with limbo := none } with
      limbo := Function.update s.limbo b ((s.limbo b).erase o) } := by
  unfold limboUnlink
  rw [ho]

theorem limboUnlink_limbo (ho : (s.object o).limbo = some b) :
    (s.limboUnlink o).limbo = Function.update s.limbo b ((s.limbo b).erase o) := by
  rw [limboUnlink_eq ho]

theorem limboUnlink_linked (ho : (s.object o).limbo = some b) :
    ((s.limboUnlink o).object x).limbo = if x = o then none else (s.object x).limbo := by
  rw [limboUnlink_eq ho]
  exact modify_limbo_eq

/-- The limbo list becomes the owner. -/
theorem Exact.limboPush (h : s.Exact P (o :: L)) (ho : s.inLimbo o = false) :
    (s.limboPush b o).Exact P L := by
  refine h.relink rfl rfl rfl modify_limbo fun x => ?_
  unfold inLimbo
  rw [limboPush_linked]
  by_cases hx : x = o
  · subst hx
    have hnone : (s.object x).limbo.isSome = false := ho
    simp [hnone, Nat.add_comm]
  · simp [hx, Ne.symm hx]

/-- What owned the object was the limbo list. -/
theorem Exact.limboUnlink (h : s.Exact P L) (ho : (s.object o).limbo = some b) :
    (s.limboUnlink o).Exact P (o :: L) := by
  have hl : ∀ x, ((s.limboUnlink o).inLimbo x).toNat + (o :: L).count x =
      (s.inLimbo x).toNat + L.count x := by
    intro x
    unfold inLimbo
    rw [limboUnlink_linked ho]
    by_cases hx : x = o
    · subst hx
      simp [ho, Nat.add_comm]
    · simp [hx, Ne.symm hx]
  rw [limboUnlink_eq ho] at hl ⊢
  exact h.relink rfl rfl rfl modify_limbo hl

theorem Linked.limboPush (h : s.Linked) (ho : s.inLimbo o = false) : (s.limboPush b o).Linked := by
  have hout : ∀ b, o ∉ s.limbo b := fun b hmem => by
    unfold inLimbo at ho
    rw [(h.mem b o).mp hmem] at ho
    cases ho
  refine ⟨fun b' x => ?_, fun b' => ?_⟩
  · rw [limboPush_limbo, limboPush_linked]
    by_cases hb : b' = b
    · subst hb
      rw [Function.update_self, List.mem_cons, h.mem]
      by_cases hx : x = o <;> simp [hx]
    · rw [Function.update_of_ne hb]
      by_cases hx : x = o
      · subst hx
        simp [hout b', Ne.symm hb]
      · simp [hx, h.mem]
  · rw [limboPush_limbo]
    by_cases hb : b' = b
    · subst hb
      rw [Function.update_self]
      exact List.nodup_cons.mpr ⟨hout b', h.nodup b'⟩
    · rw [Function.update_of_ne hb]
      exact h.nodup b'

theorem Linked.limboUnlink (h : s.Linked) (ho : (s.object o).limbo = some b) :
    (s.limboUnlink o).Linked := by
  refine ⟨fun b' x => ?_, fun b' => ?_⟩
  · rw [limboUnlink_limbo ho, limboUnlink_linked ho]
    by_cases hb : b' = b
    · subst hb
      rw [Function.update_self, (h.nodup b').mem_erase_iff, h.mem]
      by_cases hx : x = o <;> simp [hx]
    · rw [Function.update_of_ne hb, h.mem]
      by_cases hx : x = o
      · subst hx
        simp [ho, Ne.symm hb]
      · simp [hx]
  · rw [limboUnlink_limbo ho]
    by_cases hb : b' = b
    · subst hb
      rw [Function.update_self]
      exact (h.nodup b').erase o
    · rw [Function.update_of_ne hb]
      exact h.nodup b'

/-! ## Stores in order -/

/-- Counts are exact, the limbo lists are in order, and only those of the frames at `B`
are in use. -/
structure Tidy (s : Store) (B : List Nat) (P : List Nat) (L : List ObjId) : Prop where
  exact : s.Exact P L
  linked : s.Linked
  unused : ∀ b, b ∉ B → s.limbo b = []

namespace Tidy

variable {B : List Nat}

/-- A change that leaves the limbo lists alone. -/
theorem same (h : s.Tidy B P L) (hex : s'.Exact P' L') (hl : SameLimbo s s') : s'.Tidy B P' L' :=
  ⟨hex, hl.keeps h.linked, fun b hb => by rw [hl.limbo]; exact h.unused b hb⟩

theorem setHeap (h : s.Tidy B P L) (hi : i ∉ P ∨ (s.heap i).strong? = none ∧ v.strong? = none)
    (hv : ∀ o, v = .weakref o true → (s.object o).freed = false) : (s.setHeap i v).Tidy B P L :=
  h.same (h.exact.setHeap hi hv) ⟨rfl, fun _ => rfl⟩

theorem qcopy (h : s.Tidy B P L) (hi : i ∉ P) : (s.qcopy i v).Tidy B P L :=
  h.same (h.exact.qcopy hi) ⟨rfl, fun _ => rfl⟩

theorem copy (h : s.Tidy B P L) (hv : s.Live v)
    (hi : i ∉ P ∨ (s.heap i).strong? = none ∧ v.copy.strong? = none) :
    (s.copy i v).Tidy B P (v.copy.strong?.toList ++ L) :=
  h.same (h.exact.copy hv hi) .copy

theorem copy_cons (h : s.Tidy B P L) (hv : s.Live v) (hi : i ∉ P) :
    (s.copy i v).Tidy B (i :: P) L :=
  h.same (h.exact.copy_cons hv hi) .copy

/-- What a position owned is disowned, and what is anchored elsewhere stays. -/
theorem disown_cons (h : s.Tidy B (i :: P) L) (hS : s.Anchored P L S) :
    (s.disown (s.heap i)).Tidy B P L ∧ Shrinks s (s.disown (s.heap i)) ∧
      Keeps S s (s.disown (s.heap i)) := by
  obtain ⟨hex, hsh, hk⟩ := h.exact.disown_cons hS
  exact ⟨h.same hex hsh.sameLimbo, hsh, hk⟩

theorem perm (h : s.Tidy B P L) (hP : P'.Perm P) : s.Tidy B P' L :=
  ⟨h.exact.perm hP, h.linked, h.unused⟩

theorem limboPush (h : s.Tidy B P (o :: L)) (ho : s.inLimbo o = false) (hb : b ∈ B) :
    (s.limboPush b o).Tidy B P L where
  exact := h.exact.limboPush ho
  linked := h.linked.limboPush ho
  unused b' hb' := by
    have hne : b' ≠ b := fun he => hb' (he ▸ hb)
    rw [limboPush_limbo, Function.update_of_ne hne]
    exact h.unused b' hb'

/-- The new owner of a result is a limbo list. -/
theorem receive (h : s.Tidy B P (v.strong?.toList ++ L)) (hv : v.obj? = v.strong?) (hb : b ∈ B) :
    (s.receive b v).Tidy B P L := by
  unfold Store.receive
  rw [hv]
  cases ho : v.strong? with
  | none =>
    rw [ho] at h
    exact h
  | some o =>
    rw [ho] at h
    dsimp only
    split
    · have hl : ∀ ob : Object, { ob with refcount := ob.refcount - 1 }.limbo = ob.limbo :=
        fun _ => rfl
      exact h.same h.exact.decr ⟨rfl, fun _ => modify_apply Object.limbo hl⟩
    · rename_i hnot
      exact h.limboPush (Bool.not_eq_true _ ▸ hnot) hb

theorem grab (h : s.Tidy B P L) (hv : s.Live v) (hb : b ∈ B) : (s.grab b v).Tidy B P L := by
  unfold Store.grab
  cases ho : v.obj? with
  | none => exact h
  | some o =>
    dsimp only
    split
    · exact h
    · rename_i hnot
      have hl : ∀ ob : Object, { ob with refcount := ob.refcount + 1 }.limbo = ob.limbo :=
        fun _ => rfl
      have hlink : ∀ x, ((s.ownObject o).object x).limbo = (s.object x).limbo :=
        fun _ => modify_apply Object.limbo hl
      have hown : (s.ownObject o).Tidy B P (o :: L) :=
        h.same (h.exact.ownObject (hv o ho)) ⟨rfl, hlink⟩
      refine hown.limboPush ?_ hb
      unfold inLimbo at hnot ⊢
      rw [hlink]
      exact Bool.not_eq_true _ ▸ hnot

theorem limboUnlink (h : s.Tidy B P L) (ho : (s.object o).limbo = some b) :
    (s.limboUnlink o).Tidy B P (o :: L) where
  exact := h.exact.limboUnlink ho
  linked := h.linked.limboUnlink ho
  unused b' hb' := by
    rw [limboUnlink_limbo ho]
    by_cases hbb : b' = b
    · subst hbb
      rw [Function.update_self, h.unused b' hb']
      rfl
    · rw [Function.update_of_ne hbb]
      exact h.unused b' hb'

end Tidy

/-! ## Static variables -/

/-- Slot `i` of object `o` is written, and nothing else. -/
def setSlot (s : Store) (o : ObjId) (i : Nat) (v : Value) : Store :=
  s.modify o fun ob => { ob with values := ob.values.set i v }

/-- Slot `i` of object `o` owns nothing any more. -/
def clearSlot (s : Store) (o : ObjId) (i : Nat) : Store := s.setSlot o i .nil

theorem modify_comm {f g : Object → Object} (h : x ≠ o ∨ ∀ ob, f (g ob) = g (f ob)) :
    (s.modify o f).modify x g = (s.modify x g).modify o f := by
  by_cases hx : x = o
  · subst hx
    have hcomm := h.resolve_left fun hne => hne rfl
    unfold modify
    simp only [Function.update_self, Function.update_idem, hcomm]
  · unfold modify
    simp only [Function.update_of_ne hx, Function.update_of_ne (Ne.symm hx)]
    rw [Function.update_comm hx]

theorem clearSlot_modify {f : Object → Object}
    (h : x ≠ o ∨ ∀ ob, f { ob with values := ob.values.set i .nil } =
      { f ob with values := (f ob).values.set i .nil }) :
    (s.clearSlot o i).modify x f = (s.modify x f).clearSlot o i :=
  modify_comm (h.imp id fun h ob => (h ob).symm)

theorem setSlot_limbo : ((s.setSlot o i v).object x).limbo = (s.object x).limbo :=
  modify_apply Object.limbo fun _ => rfl

theorem setSlot_freed : ((s.setSlot o i v).object x).freed = (s.object x).freed :=
  modify_apply Object.freed fun _ => rfl

theorem setSlot_refcount : ((s.setSlot o i v).object x).refcount = (s.object x).refcount :=
  modify_apply Object.refcount fun _ => rfl

theorem setSlot_refuses : ((s.setSlot o i v).object x).refuses = (s.object x).refuses :=
  modify_apply Object.refuses fun _ => rfl

theorem setSlot_ne (h : x ≠ o) : (s.setSlot o i v).object x = s.object x := modify_ne h

theorem own_values : ((s.own v).object x).values = (s.object x).values := by
  cases v with
  | objref o => exact modify_apply Object.values (f := fun ob => { ob with refcount := _ }) fun _ => rfl
  | _ => rfl

theorem own_freed : ((s.own v).object x).freed = (s.object x).freed := by
  cases v with
  | objref o => exact modify_apply Object.freed (f := fun ob => { ob with refcount := _ }) fun _ => rfl
  | _ => rfl

theorem clearSlot_limboUnlink : (s.clearSlot o i).limboUnlink x = (s.limboUnlink x).clearSlot o i := by
  have hl : ((s.clearSlot o i).object x).limbo = (s.object x).limbo := setSlot_limbo
  cases h : (s.object x).limbo with
  | none =>
    unfold limboUnlink
    rw [hl, h]
  | some b =>
    rw [limboUnlink_eq h, limboUnlink_eq (hl.trans h)]
    have hcomm : (s.clearSlot o i).modify x (fun ob => { ob with limbo := none }) =
        (s.modify x fun ob => { ob with limbo := none }).clearSlot o i :=
      clearSlot_modify (.inr fun _ => rfl)
    rw [hcomm]
    rfl

theorem clearSlot_killWeakrefs :
    (s.clearSlot o i).killWeakrefs x = (s.killWeakrefs x).clearSlot o i := by
  unfold clearSlot setSlot modify killWeakrefs
  simp only [Store.mk.injEq, true_and, and_true]
  funext y
  by_cases hy : y = o
  · subst hy
    simp only [Function.update_self, List.map_set]
    rfl
  · simp only [Function.update_of_ne hy]

/-- Destroyed objects stay destroyed. -/
theorem freed_disownObject {n : Nat} (h : (s.object x).freed = true) :
    ((disownObject n s o).object x).freed = true := by
  induction n generalizing s o with
  | zero => exact h
  | succ n ih =>
    have hmod : ∀ {s : Store} {o : ObjId} {f : Object → Object},
        (∀ ob, ob.freed = true → (f ob).freed = true) →
        (s.object x).freed = true → ((s.modify o f).object x).freed = true := by
      intro s o f hf h
      by_cases hx : x = o
      · subst hx
        rw [modify_self]
        exact hf _ h
      · rw [modify_ne hx]
        exact h
    have hfold : ∀ {os : List ObjId} {s : Store}, (s.object x).freed = true →
        ((os.foldl (disownObject n) s).object x).freed = true := by
      intro os
      induction os with
      | nil => exact id
      | cons o os iho => exact fun h => iho (ih h)
    have hdecr := hmod (s := s) (o := o) (f := fun ob => { ob with refcount := ob.refcount - 1 })
      (fun _ h => h) h
    unfold disownObject
    dsimp only
    split
    · exact hdecr
    · have hunlink : (((s.modify o fun ob =>
          { ob with refcount := ob.refcount - 1 }).limboUnlink o).object x).freed = true := by
        unfold limboUnlink
        split
        · exact hdecr
        · exact hmod (f := fun ob => { ob with limbo := none }) (fun _ h => h) hdecr
      split
      · exact hunlink
      · exact hmod (fun _ _ => rfl) (hfold (hfold (hmod (fun _ h => h) hunlink)))

theorem freed_foldl {os : List ObjId} {n : Nat} (h : (s.object x).freed = true) :
    ((os.foldl (disownObject n) s).object x).freed = true := by
  induction os generalizing s with
  | nil => exact h
  | cons o os ih => exact ih (freed_disownObject h)

theorem alive_of_foldl {os : List ObjId} {n : Nat}
    (h : ((os.foldl (disownObject n) s).object x).freed = false) : (s.object x).freed = false := by
  cases hx : (s.object x).freed with
  | false => rfl
  | true => exact (Bool.noConfusion ((freed_foldl hx).symm.trans h))

theorem alive_of_dealloc (h : ((s.dealloc o).object x).freed = false) :
    (s.object x).freed = false := by
  cases hx : (s.object x).freed with
  | false => rfl
  | true => exact Bool.noConfusion ((dealloc_shrinks.freed x hx).symm.trans h)

/-- What a slot holds does not matter while objects other than its own are disowned. -/
theorem disownObject_clearSlot {n : Nat}
    (h : ((disownObject n (s.clearSlot o i) x).object o).freed = false) :
    disownObject n (s.clearSlot o i) x = (disownObject n s x).clearSlot o i := by
  induction n generalizing s x with
  | zero => rfl
  | succ n ih =>
    have hfold : ∀ {os : List ObjId} {s : Store},
        ((os.foldl (disownObject n) (s.clearSlot o i)).object o).freed = false →
        os.foldl (disownObject n) (s.clearSlot o i) = (os.foldl (disownObject n) s).clearSlot o i := by
      intro os
      induction os with
      | nil => exact fun _ => rfl
      | cons x os iho =>
        intro s h
        have hx := alive_of_foldl (List.foldl_cons .. ▸ h)
        rw [List.foldl_cons, ih hx] at h ⊢
        exact iho h
    have hdecr : (s.clearSlot o i).modify x (fun ob => { ob with refcount := ob.refcount - 1 }) =
        (s.modify x fun ob => { ob with refcount := ob.refcount - 1 }).clearSlot o i :=
      clearSlot_modify (.inr fun _ => rfl)
    unfold disownObject at h ⊢
    dsimp only at h ⊢
    rw [hdecr] at h ⊢
    generalize s.modify x (fun ob => { ob with refcount := ob.refcount - 1 }) = t at h ⊢
    have hrc : ((t.clearSlot o i).object x).refcount = (t.object x).refcount := setSlot_refcount
    rw [hrc] at h ⊢
    split at h
    · rename_i hpos
      rw [if_pos hpos, if_pos hpos]
    · rename_i hzero
      rw [if_neg hzero, if_neg hzero]
      rw [clearSlot_limboUnlink] at h ⊢
      generalize t.limboUnlink x = u at h ⊢
      have hrefuses : ((u.clearSlot o i).object x).refuses = (u.object x).refuses :=
        setSlot_refuses
      rw [hrefuses] at h ⊢
      split at h
      · rename_i hr
        rw [if_pos hr, if_pos hr]
      · rename_i hr
        rw [if_neg hr, if_neg hr]
        -- The object of the slot is not the one that is destroyed.
        have hne : x ≠ o := by
          rintro rfl
          rw [dealloc, modify_self] at h
          cases h
        have hx : (u.clearSlot o i).object x = u.object x := setSlot_ne hne
        have hempty : (u.clearSlot o i).empty x = (u.empty x).clearSlot o i :=
          clearSlot_modify (.inl hne)
        rw [hx, hempty] at h ⊢
        have hclass := alive_of_dealloc h
        have hstrong := alive_of_foldl hclass
        rw [hfold hstrong, clearSlot_killWeakrefs] at hclass ⊢
        rw [hfold hclass]
        exact clearSlot_modify (.inl hne)

theorem count_set {vs : List Value} (hi : i < vs.length) :
    ((vs.set i v).filterMap Value.strong?).count x + (vs[i]?.getD .nil).strong?.toList.count x =
      (vs.filterMap Value.strong?).count x + v.strong?.toList.count x := by
  have hcons : ∀ (w : Value) (ws : List Value), ((w :: ws).filterMap Value.strong?).count x =
      w.strong?.toList.count x + (ws.filterMap Value.strong?).count x := by
    intro w ws
    rw [List.filterMap_cons]
    cases w.strong? with
    | none => simp
    | some o => simp [List.count_cons, Nat.add_comm]
  induction vs generalizing i with
  | nil => cases hi
  | cons w ws ih =>
    cases i with
    | zero =>
      simp only [List.set_cons_zero, hcons, List.getElem?_cons_zero, Option.getD_some]
      omega
    | succ i =>
      have hrest := ih (Nat.lt_of_succ_lt_succ hi)
      simp only [List.set_cons_succ, hcons, List.getElem?_cons_succ]
      omega

/-- What the slot owned is owned elsewhere, and it owns what `v` refers to. -/
theorem Exact.setSlot (h : s.Exact P (v.strong?.toList ++ L)) (ho : (s.object o).freed = false)
    (hi : i < (s.object o).values.length)
    (hv : ∀ x, v = .weakref x true → (s.object x).freed = false) :
    (s.setSlot o i v).Exact P
      (((s.object o).values[i]?.getD .nil).strong?.toList ++ L) := by
  obtain ⟨f, hf⟩ : ∃ f : Object → Object, f = fun ob => { ob with values := ob.values.set i v } :=
    ⟨_, rfl⟩
  unfold Store.setSlot
  rw [← hf]
  have hfreed : ∀ x, ((s.modify o f).object x).freed = (s.object x).freed :=
    fun x => modify_apply Object.freed fun ob => by rw [hf]
  have hrc : ∀ x, ((s.modify o f).object x).refcount = (s.object x).refcount :=
    fun x => modify_apply Object.refcount fun ob => by rw [hf]
  have hlimbo : ∀ x, (s.modify o f).inLimbo x = s.inLimbo x :=
    fun x => congrArg Option.isSome (modify_apply Object.limbo fun ob => by rw [hf])
  have howners : ∀ x, (s.modify o f).owners P
      (((s.object o).values[i]?.getD .nil).strong?.toList ++ L) x =
        s.owners P (v.strong?.toList ++ L) x := by
    intro x
    have hslot := slotCount_modify (f := f) (x := x) (h.lt_next ho)
    have hset := count_set (v := v) (x := x) hi
    have hrefs : (f (s.object o)).refs =
        ((s.object o).values.set i v).filterMap Value.strong? ++ (s.object o).cls.toList := by
      rw [hf]
      rfl
    rw [hrefs] at hslot
    unfold Object.refs Object.strong at hslot
    rw [List.count_append, List.count_append] at hslot
    rw [owners_append, owners_append]
    unfold owners
    rw [hlimbo]
    change _ + ((s.heldAt P).count x + _ + s.exception.strong?.toList.count x + _ + _) = _
    omega
  refine ⟨fun x hx => ?_, fun x hx => ?_, fun x hx => ?_, fun x hx => ?_⟩
  · rw [howners, hrc]
    exact h.count x ((hfreed x).symm.trans hx)
  · rw [howners]
    exact h.dead x ((hfreed x).symm.trans hx)
  · rw [hfreed]
    exact h.unborn x hx
  · rw [hfreed]
    rcases hx with hx | hx | ⟨o', hx⟩
    · exact h.weak x (.inl hx)
    · exact h.weak x (.inr (.inl hx))
    · by_cases hoo : o' = o
      · subst hoo
        rw [modify_self, hf] at hx
        rcases List.mem_or_eq_of_mem_set hx with hx | hx
        · exact h.weak x (.inr (.inr ⟨o', hx⟩))
        · exact hv x hx.symm
      · rw [modify_ne hoo] at hx
        exact h.weak x (.inr (.inr ⟨o', hx⟩))

theorem own_setSlot {w : Value} : (s.setSlot o i v).own w = (s.own w).setSlot o i v := by
  cases w with
  | objref x =>
    exact modify_comm (f := fun ob => { ob with values := ob.values.set i v })
      (g := fun ob => { ob with refcount := ob.refcount + 1 }) (.inr fun _ => rfl)
  | _ => rfl

theorem setSlot_sameLimbo : SameLimbo s (s.setSlot o i v) := ⟨rfl, fun _ => setSlot_limbo⟩

theorem Tidy.clearSlot {B : List Nat} (h : s.Tidy B P L) (ho : (s.object o).freed = false)
    (hi : i < (s.object o).values.length) :
    (s.clearSlot o i).Tidy B P (((s.object o).values[i]?.getD .nil).strong?.toList ++ L) :=
  h.same (Exact.setSlot (v := .nil) h.exact ho hi fun _ hv => nomatch hv) setSlot_sameLimbo

/-- Disowning works on the slot's value as if the slot were clear, while its object is
kept. -/
theorem disown_clearSlot (hx : (((s.clearSlot o i).disown v).object o).freed = false) :
    (s.clearSlot o i).disown v = (s.disown v).clearSlot o i := by
  cases v with
  | objref x => exact disownObject_clearSlot hx
  | _ => rfl

/-- A static variable is overwritten with what register `j` holds by then. -/
theorem Tidy.setStatic {B : List Nat} {j : Nat} (h : s.Tidy B P L)
    (hi : i < (s.object o).values.length) (hS : (s.clearSlot o i).Anchored P L S) (ho : o ∈ S)
    (hj : ∀ x, (s.heap j).obj? = some x → x ∈ S) :
    let s' := s.disown ((s.object o).values[i]?.getD .nil)
    let v := (s'.heap j).copy
    ((s'.setSlot o i v).own v).Tidy B P L := by
  intro s' v
  have hfreed : (s.object o).freed = false := setSlot_freed.symm.trans (hS o ho).1
  have hclear := h.clearSlot hfreed hi
  obtain ⟨hex, hsh, hk⟩ := hclear.exact.disown hS
  have hout : (((s.clearSlot o i).disown ((s.object o).values[i]?.getD .nil)).object o).freed =
      false := (hk o ho).freed.trans (hS o ho).1
  have htidy := hclear.same hex hsh.sameLimbo
  rw [disown_clearSlot hout] at htidy hsh hk hout
  change (s'.clearSlot o i).Tidy B P L at htidy
  change Shrinks _ (s'.clearSlot o i) at hsh
  change Keeps S _ (s'.clearSlot o i) at hk
  change ((s'.clearSlot o i).object o).freed = false at hout
  have hlive : (s'.clearSlot o i).Live v := by
    intro x hx
    have hx := Value.obj?_of_copy hx
    rcases hsh.heap j with hsame | ⟨hnil, -⟩
    · have hxS : x ∈ S := hj x ((congrArg Value.obj? hsame).symm.trans hx)
      exact (hk x hxS).freed.trans (hS x hxS).1
    · rw [show s'.heap j = .nil from hnil] at hx
      cases hx
  -- Seen from the cleared slot, the value is owned first and then written.
  have hfill : (s'.setSlot o i v).own v = ((s'.clearSlot o i).own v).setSlot o i v := by
    rw [← own_setSlot]
    congr 1
    unfold Store.clearSlot setSlot modify
    simp only [Function.update_self, Function.update_idem, List.set_set]
  have hvalues : (((s'.clearSlot o i).own v).object o).values = (s'.object o).values.set i .nil := by
    rw [own_values, Store.clearSlot, setSlot, modify_self]
  have hlength : i < (s'.object o).values.length := by
    have hlen := (hk o ho).length
    unfold Store.clearSlot setSlot at hlen
    simp only [modify_self, List.length_set] at hlen
    omega
  have hfinal := (htidy.exact.own hlive).setSlot (v := v) (own_freed.trans hout)
    (by rw [hvalues, List.length_set]; exact hlength)
    fun x hx => own_freed.trans (hlive x (by rw [hx]; rfl))
  rw [hvalues, List.getElem?_set_self hlength] at hfinal
  rw [hfill]
  exact htidy.same hfinal (SameLimbo.own.trans setSlot_sameLimbo)

end Store

end Eel
