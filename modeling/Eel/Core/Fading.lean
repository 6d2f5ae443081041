-- SUMMARY: What disowning leaves of the registers, of what objects hold, and of the exception.
import Eel.Core.OwnerOps

/-!
# Fading
-/

namespace Eel

namespace Store

variable {s s' : Store} {P : List Nat} {L : List ObjId} {S : Set ObjId} {o x : ObjId}
  {v : Value} {i : Nat}

/-- Value `i` of object `o`. -/
def slot (s : Store) (o : ObjId) (i : Nat) : Value := (s.object o).values[i]?.getD .nil

/-- What the registers and the objects hold is what they held, or faded. -/
structure Fades (s s' : Store) : Prop where
  heap : ∀ i, (s.heap i).Faded (s'.heap i)
  slot : ∀ o i, (s.slot o i).Faded (s'.slot o i) ∨ s'.slot o i = .nil

theorem Fades.refl : Fades s s := ⟨fun _ => .refl, fun _ _ => .inl .refl⟩

theorem Fades.trans {s'' : Store} (h : Fades s s') (h' : Fades s' s'') : Fades s s'' where
  heap i := (h.heap i).trans (h'.heap i)
  slot o i := by
    rcases h'.slot o i with hf' | hnil
    · rcases h.slot o i with hf | hnil
      · exact .inl (hf.trans hf')
      · rw [hnil] at hf'
        rcases hf' with hf' | ⟨hf', -⟩ <;> exact .inr hf'
    · exact .inr hnil

/-- What a value refers to that has faded, it referred to before. -/
theorem Fades.slot_obj? (h : Fades s s') (hv : (s'.slot o i).obj? = some x) :
    (s.slot o i).obj? = some x := by
  rcases h.slot o i with (hf | ⟨hf, -⟩) | hf
  · rw [← hf]
    exact hv
  · rw [hf] at hv
    cases hv
  · rw [hf] at hv
    cases hv

theorem Fades.heap_obj? (h : Fades s s') (hv : (s'.heap i).obj? = some x) :
    (s.heap i).obj? = some x := by
  rcases h.heap i with hf | ⟨hf, -⟩
  · rw [← hf]
    exact hv
  · rw [hf] at hv
    cases hv

theorem fades_of_values (hh : s'.heap = s.heap)
    (hv : ∀ o, (s'.object o).values = (s.object o).values ∨ (s'.object o).values = []) :
    Fades s s' where
  heap i := by
    rw [hh]
    exact .refl
  slot o i := by
    unfold Store.slot
    rcases hv o with hv | hv
    · rw [hv]
      exact .inl .refl
    · rw [hv]
      exact .inr rfl

theorem fades_modify {f : Object → Object} (hf : ∀ ob, (f ob).values = ob.values ∨ (f ob).values = []) :
    Fades s (s.modify o f) := by
  refine fades_of_values rfl fun x => ?_
  by_cases hx : x = o
  · subst hx
    rw [modify_self]
    exact hf _
  · rw [modify_ne hx]
    exact .inl rfl

theorem fades_limboUnlink : Fades s (s.limboUnlink o) := by
  unfold limboUnlink
  split
  · exact .refl
  · refine fades_of_values rfl fun x => .inl ?_
    exact modify_apply Object.values (f := fun ob => { ob with limbo := none }) fun _ => rfl

theorem fades_killWeakrefs : Fades s (s.killWeakrefs o) where
  heap _ := Value.faded_kill
  slot x i := by
    have hslot : (s.killWeakrefs o).slot x i = (s.slot x i).kill o := by
      unfold slot killWeakrefs
      simp only [List.getElem?_map]
      cases (s.object x).values[i]? <;> rfl
    rw [hslot]
    exact .inl Value.faded_kill

theorem fades_disownObject {n : Nat} : Fades s (disownObject n s o) := by
  induction n generalizing s o with
  | zero => exact .refl
  | succ n ih =>
    have hfold : ∀ (os : List ObjId) (s : Store), Fades s (os.foldl (disownObject n) s) := by
      intro os
      induction os with
      | nil => exact fun _ => .refl
      | cons x os iho => exact fun s => ih.trans (iho _)
    have hdecr : Fades s (s.modify o fun ob => { ob with refcount := ob.refcount - 1 }) :=
      fades_modify fun _ => .inl rfl
    have hempty : ∀ s : Store, Fades s (s.empty o) := fun s => fades_modify fun _ => .inr rfl
    unfold disownObject
    dsimp only
    split
    · exact hdecr
    · have hunlink := hdecr.trans (fades_limboUnlink (o := o))
      split
      · exact hunlink
      · refine Fades.trans ?_ (fades_modify fun _ => .inl rfl)
        exact ((hunlink.trans (hempty _)).trans (hfold _ _)).trans (fades_killWeakrefs.trans (hfold _ _))

theorem fades_disown : Fades s (s.disown v) := by
  cases v with
  | objref o => exact fades_disownObject
  | _ => exact .refl

/-! ## The exception -/

/-- The exception owns nothing any more. -/
def clearException (s : Store) : Store := { s with exception := .nil }

theorem clearException_limboUnlink : s.clearException.limboUnlink x = (s.limboUnlink x).clearException := by
  cases h : (s.object x).limbo with
  | none =>
    have hl : (s.clearException.object x).limbo = none := h
    unfold limboUnlink
    rw [hl, h]
  | some b =>
    have hl : (s.clearException.object x).limbo = some b := h
    rw [limboUnlink_eq hl, limboUnlink_eq h]
    rfl

/-- What the exception is does not matter while objects are disowned. -/
theorem disownObject_clearException {n : Nat} :
    disownObject n s.clearException x = (disownObject n s x).clearException := by
  induction n generalizing s x with
  | zero => rfl
  | succ n ih =>
    have hfold : ∀ {os : List ObjId} {s : Store},
        os.foldl (disownObject n) s.clearException = (os.foldl (disownObject n) s).clearException := by
      intro os
      induction os with
      | nil => exact rfl
      | cons x os iho =>
        intro s
        rw [List.foldl_cons, ih]
        exact iho
    have hdecr : s.clearException.modify x (fun ob => { ob with refcount := ob.refcount - 1 }) =
        (s.modify x fun ob => { ob with refcount := ob.refcount - 1 }).clearException := rfl
    unfold disownObject
    dsimp only
    rw [hdecr]
    generalize s.modify x (fun ob => { ob with refcount := ob.refcount - 1 }) = t
    change (if (t.object x).refcount ≠ 0 then t.clearException else _) = _
    split
    · rfl
    · rw [clearException_limboUnlink]
      generalize t.limboUnlink x = u
      change (if (u.object x).refuses = true then u.clearException else _) = _
      split
      · rfl
      · have hempty : u.clearException.empty x = (u.empty x).clearException := rfl
        have hobject : u.clearException.object = u.object := rfl
        rw [hempty, hobject, hfold]
        generalize (u.object x).strong.foldl (disownObject n) (u.empty x) = w
        have hkill : w.clearException.killWeakrefs x = (w.killWeakrefs x).clearException := rfl
        rw [hkill, hfold]
        rfl

/-- What the exception owns can count as owned elsewhere. -/
theorem Exact.clearException (h : s.Exact P L) :
    s.clearException.Exact P (s.exception.strong?.toList ++ L) := by
  have howners : ∀ x, s.clearException.owners P (s.exception.strong?.toList ++ L) x = s.owners P L x := by
    intro x
    rw [owners_append]
    unfold owners
    change _ + ((s.heldAt P).count x + s.slotCount x + 0 + (s.inLimbo x).toNat + _) = _
    omega
  refine ⟨fun x hx => ?_, fun x hx => ?_, h.unborn, fun x hx => h.weak x ?_⟩
  · rw [howners]
    exact h.count x hx
  · rw [howners]
    exact h.dead x hx
  · rcases hx with hx | hx | hx
    · exact .inl hx
    · cases hx
    · exact .inr (.inr hx)

/-- The exception becomes the owner. -/
theorem Exact.setException (h : s.clearException.Exact P (v.strong?.toList ++ L))
    (hv : ∀ x, v = .weakref x true → (s.object x).freed = false) :
    Exact { s with exception := v } P L := by
  have howners : ∀ x, owners { s with exception := v } P L x =
      s.clearException.owners P (v.strong?.toList ++ L) x := by
    intro x
    rw [owners_append]
    unfold owners
    change (s.heldAt P).count x + s.slotCount x + v.strong?.toList.count x + (s.inLimbo x).toNat + _ =
      _ + ((s.heldAt P).count x + s.slotCount x + 0 + (s.inLimbo x).toNat + _)
    omega
  refine ⟨fun x hx => ?_, fun x hx => ?_, h.unborn, fun x hx => ?_⟩
  · rw [howners]
    exact h.count x hx
  · rw [howners]
    exact h.dead x hx
  · rcases hx with hx | hx | hx
    · exact h.weak x (.inl hx)
    · exact hv x hx
    · exact h.weak x (.inr (.inr hx))

/-- The exception is disowned and replaced. -/
theorem Tidy.setException {B : List Nat} (h : s.Tidy B P L) (hS : s.clearException.Anchored P L S)
    (hv : ∀ x, v.obj? = some x → x ∈ S) :
    (Store.own { s.disown s.exception with exception := v.copy } v.copy).Tidy B P L := by
  obtain ⟨hex, hsh, hk⟩ := h.exact.clearException.disown hS
  have hcomm : s.clearException.disown s.exception = (s.disown s.exception).clearException := by
    cases s.exception with
    | objref o => exact disownObject_clearException
    | _ => rfl
  have htidy := Tidy.same (s := s.clearException) ⟨h.exact.clearException, ⟨h.linked.mem, h.linked.nodup⟩,
    h.unused⟩ hex hsh.sameLimbo
  rw [hcomm] at htidy hk
  generalize s.disown s.exception = t at htidy hk
  have hlive : t.clearException.Live v.copy := fun x hx => by
    have hxS := hv x (Value.obj?_of_copy hx)
    exact (hk x hxS).freed.trans (hS x hxS).1
  have hown := htidy.same (htidy.exact.own hlive) .own
  have hset : Store.own { t with exception := v.copy } v.copy =
      { t.clearException.own v.copy with exception := v.copy } := by
    cases v.copy <;> rfl
  have hclear : Store.clearException (t.clearException.own v.copy) = t.clearException.own v.copy := by
    cases v.copy <;> rfl
  rw [hset]
  refine ⟨Exact.setException (by rw [hclear]; exact hown.exact) fun x hx => ?_,
    ⟨hown.linked.mem, hown.linked.nodup⟩, hown.unused⟩
  exact own_freed.trans (hlive x (by rw [hx]; rfl))

/-- The exception moves to position `i`, which becomes its owner. -/
theorem Tidy.moveException {B : List Nat} (h : s.Tidy B P L) (hi : i ∉ P) :
    (s.clearException.setHeap i s.exception).Tidy B (i :: P) L := by
  have hclear := h.exact.clearException
  have hset := hclear.setHeap (i := i) (v := s.exception) (.inl hi) fun x hx =>
    h.exact.weak x (.inr (.inl hx))
  refine ⟨exact_cons.mpr ?_, ⟨h.linked.mem, h.linked.nodup⟩, h.unused⟩
  rw [setHeap_self]
  exact hset

end Store

end Eel
