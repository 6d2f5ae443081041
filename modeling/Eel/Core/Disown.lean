-- SUMMARY: Disowning keeps reference counts exact and destroys nothing that is still owned.
import Eel.Core.Owners

/-!
# Disowning
-/

namespace Eel

open scoped BigOperators

namespace Store

variable {s s' : Store} {P : List Nat} {L : List ObjId} {S : Set ObjId} {o x : ObjId} {n : Nat}

/-! ## Destroying an object -/

/-- What the object owned is owned by the destructor for the moment. -/
theorem owners_empty (ho : o < s.next) :
    (s.empty o).owners P ((s.object o).refs ++ L) x = s.owners P L x := by
  have hslot : (s.empty o).slotCount x + (s.object o).refs.count x = s.slotCount x :=
    slotCount_modify ho
  have hlimbo : (s.empty o).inLimbo x = s.inLimbo x :=
    congrArg Option.isSome (modify_apply Object.limbo fun _ => rfl)
  rw [owners_append]
  unfold owners
  rw [hlimbo]
  change (s.object o).refs.count x + ((s.heldAt P).count x + _ + _ + _ + _) = _
  rw [← hslot]
  change _ + ((s.heldAt P).count x + _ + s.exception.strong?.toList.count x + _ + _) = _
  omega

theorem empty_shrinks : Shrinks s (s.empty o) :=
  modify_shrinks (fun _ => Int.le_refl _) (fun _ => rfl) (fun _ => rfl) (fun _ => .inr rfl)
    (fun _ _ hv => nomatch hv) fun _ h => h

theorem Exact.empty (h : s.Exact P L) (ho : (s.object o).freed = false) :
    (s.empty o).Exact P ((s.object o).refs ++ L) := by
  have hfreed : ∀ x, ((s.empty o).object x).freed = (s.object x).freed :=
    fun x => modify_apply Object.freed fun _ => rfl
  have hrc : ∀ x, ((s.empty o).object x).refcount = (s.object x).refcount :=
    fun x => modify_apply Object.refcount fun _ => rfl
  refine ⟨fun x hx => ?_, fun x hx => ?_, fun x hx => ?_, fun x hx => ?_⟩
  · rw [hrc, owners_empty (h.lt_next ho)]
    exact h.count x ((hfreed x).symm.trans hx)
  · rw [owners_empty (h.lt_next ho)]
    exact h.dead x ((hfreed x).symm.trans hx)
  · rw [hfreed]
    exact h.unborn x hx
  · rw [hfreed]
    exact h.weak x (empty_shrinks.holds hx)

theorem killWeakrefs_refs : ((s.killWeakrefs o).object x).refs = (s.object x).refs := by
  have hstrong : Value.strong? ∘ Value.kill o = Value.strong? := funext fun _ => Value.kill_strong?
  unfold Object.refs Object.strong killWeakrefs
  simp only [List.filterMap_map, hstrong]

theorem killWeakrefs_shrinks : Shrinks s (s.killWeakrefs o) where
  heap _ := Value.faded_kill
  exception := Value.faded_kill
  limbo := rfl
  linked _ := rfl
  next := rfl
  refuses _ := rfl
  refs _ := .inl killWeakrefs_refs
  values x v hv := by
    obtain ⟨v', hv', rfl⟩ := List.mem_map.mp hv
    rcases Value.faded_kill (v := v') (o := o) with h | ⟨h, -⟩
    · rw [h]
      exact .inr hv'
    · exact .inl h
  refcount _ := Int.le_refl _
  freed _ h := h

theorem killWeakrefs_owners : (s.killWeakrefs o).owners P L x = s.owners P L x := by
  have hslot : (s.killWeakrefs o).slotCount x = s.slotCount x :=
    Finset.sum_congr rfl fun o' _ => by rw [killWeakrefs_refs]
  unfold owners
  rw [killWeakrefs_shrinks.heldAt, killWeakrefs_shrinks.exception.strong?,
    killWeakrefs_shrinks.inLimbo, hslot]

theorem Exact.killWeakrefs (h : s.Exact P L) : (s.killWeakrefs o).Exact P L where
  count x hx := by
    rw [killWeakrefs_owners]
    exact h.count x hx
  dead x hx := by
    rw [killWeakrefs_owners]
    exact h.dead x hx
  unborn := h.unborn
  weak x hx := h.weak x (killWeakrefs_shrinks.holds hx)

/-- No weak reference to the object is left. -/
theorem not_holds_killWeakrefs : ¬ (s.killWeakrefs o).Holds (.weakref o true) := by
  rintro (⟨i, hi⟩ | hx | ⟨x, hx⟩)
  · exact Value.kill_ne_weakref hi
  · exact Value.kill_ne_weakref hx
  · obtain ⟨v, -, hv⟩ := List.mem_map.mp hx
    exact Value.kill_ne_weakref hv

theorem dealloc_shrinks : Shrinks s (s.dealloc o) :=
  modify_shrinks (fun _ => Int.le_refl _) (fun _ => rfl) (fun _ => rfl) (fun _ => .inl rfl)
    (fun _ _ hv => hv) fun _ _ => rfl

theorem Exact.dealloc (h : s.Exact P L) (hown : s.owners P L o = 0)
    (hweak : ¬ s.Holds (.weakref o true)) : (s.dealloc o).Exact P L := by
  have howners : ∀ x, (s.dealloc o).owners P L x = s.owners P L x :=
    fun x => owners_modify (fun _ => rfl) fun _ => rfl
  have hself : ((s.dealloc o).object o).freed = true := congrArg Object.freed modify_self
  have hother : ∀ x, x ≠ o → (s.dealloc o).object x = s.object x := fun x hx => modify_ne hx
  refine ⟨fun x hx => ?_, fun x hx => ?_, fun x hx => ?_, fun x hx => ?_⟩
  · have hne : x ≠ o := fun he => by simp [he, hself] at hx
    rw [hother x hne] at hx ⊢
    rw [howners]
    exact h.count x hx
  · rw [howners]
    by_cases hxo : x = o
    · rw [hxo]
      exact hown
    · rw [hother x hxo] at hx
      exact h.dead x hx
  · by_cases hxo : x = o
    · rw [hxo]
      exact hself
    · rw [hother x hxo]
      exact h.unborn x hx
  · have hx' := dealloc_shrinks.holds hx
    have hne : x ≠ o := fun he => hweak (he ▸ hx')
    rw [hother x hne]
    exact h.weak x hx'

/-! ## Disowning an object -/

/-- The number of objects that have owners, going by their counts. -/
def positives (s : Store) : Nat :=
  ((Finset.range s.next).filter fun o => 0 < (s.object o).refcount).card

theorem positives_le : s.positives ≤ s.next :=
  (Finset.card_filter_le _ _).trans_eq (Finset.card_range _)

theorem Shrinks.positives_le (h : Shrinks s s') : s'.positives ≤ s.positives := by
  refine Finset.card_le_card fun o ho => ?_
  rw [Finset.mem_filter] at ho ⊢
  exact ⟨h.next ▸ ho.1, Int.lt_of_lt_of_le ho.2 (h.refcount o)⟩

theorem Shrinks.positives_lt (h : Shrinks s s') (ho : o < s.next) (hpos : 0 < (s.object o).refcount)
    (hzero : (s'.object o).refcount = 0) : s'.positives < s.positives := by
  refine Finset.card_lt_card ⟨fun x hx => ?_, fun hsub => ?_⟩
  · rw [Finset.mem_filter] at hx ⊢
    exact ⟨h.next ▸ hx.1, Int.lt_of_lt_of_le hx.2 (h.refcount x)⟩
  · have hmem := hsub (Finset.mem_filter.mpr ⟨Finset.mem_range.mpr ho, hpos⟩)
    have := (Finset.mem_filter.mp hmem).2
    rw [hzero] at this
    exact Int.lt_irrefl _ this

/-- What disowning does when `L` stays owned elsewhere: counts stay exact, and what is
anchored stays. -/
def Disowned (P : List Nat) (L : List ObjId) (S : Set ObjId) (s s' : Store) : Prop :=
  s'.Exact P L ∧ Shrinks s s' ∧ Keeps S s s'

/-- A way to disown objects that can be relied on while at most `n` objects have owners. -/
def Disowns (P : List Nat) (S : Set ObjId) (n : Nat) (g : Store → ObjId → Store) : Prop :=
  ∀ s o L, s.Exact P (o :: L) → s.positives ≤ n → s.Anchored P L S → Disowned P L S s (g s o)

theorem Disowns.foldl {g : Store → ObjId → Store} (hg : Disowns P S n g) {os : List ObjId}
    (h : s.Exact P (os ++ L)) (hn : s.positives ≤ n) (hS : s.Anchored P L S) :
    Disowned P L S s (os.foldl g s) := by
  induction os generalizing s with
  | nil => exact ⟨h, .refl, .refl⟩
  | cons o os ih =>
    obtain ⟨hex, hsh, hk⟩ := hg s o (os ++ L) h hn (hS.mono (List.subset_append_right _ _))
    obtain ⟨hex', hsh', hk'⟩ := ih hex (hsh.positives_le.trans hn) (hS.shrinks hsh hk)
    exact ⟨hex', hsh.trans hsh', hk.trans hk'⟩

theorem disownObject_disowns : Disowns P S n (disownObject n) := by
  induction n with
  | zero =>
    intro s o L h hn hS
    have hown : s.owners P (o :: L) o ≠ 0 := by simp [owners_cons]
    have ho := h.alive_of_owners hown
    have hmem : o ∈ (Finset.range s.next).filter fun o => 0 < (s.object o).refcount := by
      refine Finset.mem_filter.mpr ⟨Finset.mem_range.mpr (h.lt_next ho), ?_⟩
      have := h.count o ho
      omega
    exact absurd (Finset.card_pos.mpr ⟨o, hmem⟩) (Nat.not_lt.mpr hn)
  | succ n ih =>
    intro s o L h hn hS
    have hown : s.owners P (o :: L) o ≠ 0 := by simp [owners_cons]
    have ho := h.alive_of_owners hown
    have hpos : 0 < (s.object o).refcount := by
      have := h.count o ho
      omega
    -- One owner less.
    obtain ⟨t, ht⟩ : ∃ t, t = s.modify o fun ob => { ob with refcount := ob.refcount - 1 } := ⟨_, rfl⟩
    have hext : t.Exact P L := ht ▸ h.decr
    have hsht : Shrinks s t := ht ▸ modify_shrinks (fun _ => by simp only; omega) (fun _ => rfl)
      (fun _ => rfl) (fun _ => .inl rfl) (fun _ _ hv => hv) fun _ h => h
    have hrefs : ∀ x, (t.object x).refs = (s.object x).refs :=
      fun x => ht ▸ modify_apply Object.refs fun _ => rfl
    have hfreed : ∀ x, (t.object x).freed = (s.object x).freed :=
      fun x => ht ▸ modify_apply Object.freed fun _ => rfl
    have hlength : ∀ x, (t.object x).values.length = (s.object x).values.length :=
      fun x => ht ▸ modify_apply (fun ob => ob.values.length) fun _ => rfl
    have hkt : Keeps S s t := fun x _ => ⟨hrefs x, hfreed x, hlength x⟩
    have hSt : t.Anchored P L S := hS.shrinks hsht hkt
    unfold disownObject
    rw [← ht]
    dsimp only
    split
    · exact ⟨hext, hsht, hkt⟩
    · rename_i hzero
      have hzero : (t.object o).refcount = 0 := by simpa using hzero
      have hot : (t.object o).freed = false := (hfreed o).trans ho
      have hnone : t.owners P L o = 0 := by
        have := hext.count o hot
        omega
      -- An object in limbo would have an owner.
      have hunlink : t.limboUnlink o = t := by
        have hlimbo : (t.object o).limbo = none := by
          unfold owners inLimbo at hnone
          cases hl : (t.object o).limbo with
          | none => rfl
          | some b => simp [hl] at hnone
        unfold limboUnlink
        rw [hlimbo]
      rw [hunlink]
      split
      · exact ⟨hext, hsht, hkt⟩
      · rename_i hrefuses
        have hoS : o ∉ S := fun hoS => hrefuses (hSt.refuses_of_owners hext hoS hnone)
        have hkeeps : ∀ {f : Object → Object} {u : Store}, Keeps S u (u.modify o f) := by
          intro f u x hx
          have hne : x ≠ o := fun he => hoS (he ▸ hx)
          rw [modify_ne hne]
          exact .refl
        have hlt : t.positives ≤ n :=
          Nat.le_of_lt_succ ((hsht.positives_lt (h.lt_next ho) hpos hzero).trans_le hn)
        -- What the object owns goes first, ...
        have hexe : (t.empty o).Exact P
            ((t.object o).strong ++ ((t.object o).cls.toList ++ L)) := by
          rw [← List.append_assoc]
          exact hext.empty hot
        have hSe : (t.empty o).Anchored P L S := hSt.shrinks empty_shrinks hkeeps
        obtain ⟨hexf, hshf, hkf⟩ := ih.foldl hexe (empty_shrinks.positives_le.trans hlt)
          (hSe.mono (List.subset_append_right _ _))
        have hSf := hSe.shrinks hshf hkf
        generalize (t.object o).strong.foldl (disownObject n) (t.empty o) = u at hexf hshf hkf hSf
        -- ... then its class.
        have hkk : Keeps S u (u.killWeakrefs o) := fun x _ => ⟨killWeakrefs_refs, rfl, List.length_map ..⟩
        have hshk := empty_shrinks.trans (hshf.trans (killWeakrefs_shrinks (o := o)))
        obtain ⟨hexc, hshc, hkc⟩ := ih.foldl hexf.killWeakrefs (hshk.positives_le.trans hlt)
          (hSf.shrinks killWeakrefs_shrinks hkk)
        have hsh := hshk.trans hshc
        have hown' : (List.foldl (disownObject n) (u.killWeakrefs o)
            (t.object o).cls.toList).owners P L o = 0 :=
          Nat.le_zero.mp (hnone ▸ hsh.owners_le)
        have hweak := fun hv => not_holds_killWeakrefs (hshc.holds hv)
        exact ⟨hexc.dealloc hown' hweak, hsht.trans (hsh.trans dealloc_shrinks),
          hkt.trans (hkeeps.trans (hkf.trans (hkk.trans (hkc.trans hkeeps))))⟩

/-- `eel_o_disown_nz`. -/
theorem disownObject_disowned (h : s.Exact P (o :: L)) (hS : s.Anchored P L S) :
    Disowned P L S s (s.disownObject s.depth o) :=
  disownObject_disowns s o L h (positives_le.trans (Nat.le_succ _)) hS

end Store

end Eel
