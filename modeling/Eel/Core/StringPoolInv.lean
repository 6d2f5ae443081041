-- SUMMARY: The invariant of the string pool over all runs, when a request gets exactly the string it asked for, and when it does not.
import Eel.Core.StringPool
import Eel.Lib.Machine

/-!
# Interning

The pool compares counted data with a string function and a hash code of the
first bytes. Strings it cannot tell apart are conflated: whichever came first is
what later requests get.
-/

namespace Eel

open CString (beforeZero)

/-! ## Strings the pool cannot tell apart -/

/-- A string object as `eel_ps_nnew` makes it. -/
structure StringObj.WellFormed (ps : StringObj) : Prop where
  buffer_eq : ps.buffer = ps.bytes ++ [0]
  length_eq : ps.length = ps.bytes.length
  hash_eq : ps.hash = hashMem ps.bytes

/-- What `ps_find` checks, said of the contents. -/
structure StringObj.Matches (ps : StringObj) (s : List Byte) : Prop where
  length_eq : ps.length = s.length
  hash_eq : ps.hash = hashMem s
  beforeZero_eq : beforeZero 0 ps.bytes = beforeZero 0 s

/-- The string has other contents than `s`, but the same length and hash code and
the same contents up to the first zero. -/
def StringObj.Conflates (ps : StringObj) (s : List Byte) : Prop :=
  ps.bytes ≠ s ∧ ps.length = s.length ∧ ps.hash = hashMem s ∧
    beforeZero 0 ps.bytes = beforeZero 0 s

theorem StringObj.WellFormed.matches_self {ps : StringObj} (h : ps.WellFormed) :
    ps.Matches ps.bytes := ⟨h.length_eq, h.hash_eq, rfl⟩

/-- What matches the contents of a string matches the same as the string does. -/
theorem StringObj.Matches.trans {ps ps' : StringObj} {s : List Byte} (h' : ps'.WellFormed)
    (hm : ps.Matches ps'.bytes) (hm' : ps'.Matches s) : ps.Matches s where
  length_eq := hm.length_eq.trans (h'.length_eq.symm.trans hm'.length_eq)
  hash_eq := hm.hash_eq.trans (h'.hash_eq.symm.trans hm'.hash_eq)
  beforeZero_eq := hm.beforeZero_eq.trans hm'.beforeZero_eq

theorem StringObj.Matches.symm {ps ps' : StringObj} (h : ps.WellFormed) (h' : ps'.WellFormed)
    (hm : ps.Matches ps'.bytes) : ps'.Matches ps.bytes where
  length_eq := h'.length_eq.trans (hm.length_eq.symm.trans h.length_eq)
  hash_eq := h'.hash_eq.trans (hm.hash_eq.symm.trans h.hash_eq)
  beforeZero_eq := hm.beforeZero_eq.symm

theorem StringObj.WellFormed.of_new (s : List Byte) (n : Nat) :
    WellFormed ⟨s ++ [0], s.length, hashMem s, n⟩ ∧
      StringObj.bytes ⟨s ++ [0], s.length, hashMem s, n⟩ = s := by
  have hb : StringObj.bytes ⟨s ++ [0], s.length, hashMem s, n⟩ = s := by
    simp [StringObj.bytes]
  exact ⟨⟨by rw [hb], by rw [hb], by rw [hb]⟩, hb⟩

namespace StringPool

/-! ## The invariant -/

/-- The buckets and the objects in them. No two pooled strings match. -/
structure Pooled (p : StringPool) : Prop where
  mem_bucket : ∀ b o, o ∈ p.strings b ↔ ∃ ps, p.object o = some ps ∧ bucket ps.hash = b
  bucket_nodup : ∀ b, (p.strings b).Nodup
  wf : ∀ o ps, p.object o = some ps → ps.WellFormed
  distinct : ∀ o o' ps ps', p.object o = some ps → p.object o' = some ps' →
    ps.Matches ps'.bytes → o = o'
  fresh : ∀ o, p.next ≤ o → p.object o = none

/-- The cache lists the strings without owners. -/
structure Cached (p : StringPool) : Prop where
  mem_scache : ∀ o, o ∈ p.scache ↔ ∃ ps, p.object o = some ps ∧ ps.refcount = 0
  nodup : p.scache.Nodup
  size_eq : p.scacheSize = p.scache.length

/-- The invariant of the pool. -/
structure Inv (p : StringPool) : Prop where
  pooled : p.Pooled
  cached : p.Cached

variable {p : StringPool} {o : ObjId} {ps : StringObj} {s : List Byte}

theorem Inv.open : Inv «open» where
  pooled := ⟨by simp [StringPool.open], by simp [StringPool.open], by simp [StringPool.open],
    by simp [StringPool.open], by simp [StringPool.open]⟩
  cached := ⟨by simp [StringPool.open], by simp [StringPool.open], by simp [StringPool.open]⟩

/-! ## Lookup -/

theorem Pooled.isString_iff (h : p.Pooled) (hps : p.object o = some ps) :
    p.isString s (hashMem s) o = true ↔ ps.Matches s := by
  have hwf := h.wf o ps hps
  simp only [isString, hps, Bool.and_eq_true, beq_iff_eq]
  constructor
  · rintro ⟨⟨hhash, hlen⟩, hcmp⟩
    rw [hwf.buffer_eq, CString.strncmpEq_iff 0 [0] (hwf.length_eq.symm.trans hlen)] at hcmp
    exact ⟨hlen, hhash, hcmp⟩
  · rintro ⟨hlen, hhash, heq⟩
    refine ⟨⟨hhash, hlen⟩, ?_⟩
    rw [hwf.buffer_eq, CString.strncmpEq_iff 0 [0] (hwf.length_eq.symm.trans hlen)]
    exact heq

/-- A string that is found matches. -/
theorem Pooled.find_some (h : p.Pooled) (hf : p.find s = some o) :
    ∃ ps, p.object o = some ps ∧ ps.Matches s := by
  have hmem := List.mem_of_find?_eq_some hf
  have htest := List.find?_some hf
  obtain ⟨ps, hps, -⟩ := (h.mem_bucket _ o).mp hmem
  exact ⟨ps, hps, (h.isString_iff hps).mp htest⟩

/-- A string that matches is found. -/
theorem Pooled.find_none (h : p.Pooled) (hf : p.find s = none) (hps : p.object o = some ps) :
    ¬ps.Matches s := by
  intro hm
  have hmem : o ∈ p.strings (bucket (hashMem s)) :=
    (h.mem_bucket _ o).mpr ⟨ps, hps, by rw [hm.hash_eq]⟩
  exact List.find?_eq_none.mp hf o hmem ((h.isString_iff hps).mpr hm)

/-! ## Changes of the pool -/

theorem modify_object (f : StringObj → StringObj) (o' : ObjId) :
    (p.modify o f).object o' = if o' = o then (p.object o').map f else p.object o' := rfl

/-- An object after a change of reference counts was an object with the same
contents before it. -/
theorem modify_object_some {f : StringObj → StringObj} {o' : ObjId} {ps' : StringObj}
    (h : (p.modify o f).object o' = some ps') :
    ∃ ps, p.object o' = some ps ∧ ps' = if o' = o then f ps else ps := by
  rw [modify_object] at h
  split at h
  · obtain ⟨ps, hps, rfl⟩ := Option.map_eq_some_iff.mp h
    rename_i heq
    exact ⟨ps, hps, by rw [if_pos heq]⟩
  · rename_i hne
    exact ⟨ps', h, by rw [if_neg hne]⟩

/-- Changing the reference count of a string, or the cache, changes nothing in the
buckets. -/
theorem Pooled.modify (h : p.Pooled) (o : ObjId) (f : Nat → Nat) (c : List ObjId) (n : Int) :
    Pooled ({ p with scache := c, scacheSize := n }.modify o
      fun ps => { ps with refcount := f ps.refcount }) := by
  have hsame : ∀ {o' : ObjId} {ps' : StringObj},
      ({ p with scache := c, scacheSize := n }.modify o
        fun ps => { ps with refcount := f ps.refcount }).object o' = some ps' →
      ∃ ps, p.object o' = some ps ∧ ps'.buffer = ps.buffer ∧ ps'.length = ps.length ∧
        ps'.hash = ps.hash := by
    intro o' ps' h'
    obtain ⟨ps, hps, rfl⟩ := modify_object_some h'
    exact ⟨ps, hps, by split <;> exact ⟨rfl, rfl, rfl⟩⟩
  have hbytes : ∀ {ps ps' : StringObj}, ps'.buffer = ps.buffer → ps'.length = ps.length →
      ps'.bytes = ps.bytes := by
    intro ps ps' hb hl
    rw [StringObj.bytes, StringObj.bytes, hb, hl]
  refine ⟨fun b o' => ?_, h.bucket_nodup, fun o' ps' h' => ?_, fun o₁ o₂ ps₁ ps₂ h₁ h₂ hm => ?_,
    fun o' ho' => ?_⟩
  · refine (h.mem_bucket b o').trans ⟨fun ⟨ps, hps, hb⟩ => ?_, fun ⟨ps', hps', hb⟩ => ?_⟩
    · by_cases ho : o' = o
      · subst ho
        exact ⟨{ ps with refcount := f ps.refcount }, by simp [modify_object, hps], hb⟩
      · exact ⟨ps, by simp [modify_object, ho, hps], hb⟩
    · obtain ⟨ps, hps, -, -, hh⟩ := hsame hps'
      exact ⟨ps, hps, hh ▸ hb⟩
  · obtain ⟨ps, hps, hb, hl, hh⟩ := hsame h'
    have hwf := h.wf o' ps hps
    have hbs := hbytes hb hl
    exact ⟨by rw [hb, hbs, hwf.buffer_eq], by rw [hl, hbs, hwf.length_eq],
      by rw [hh, hbs, hwf.hash_eq]⟩
  · obtain ⟨qs₁, hq₁, hb₁, hl₁, hh₁⟩ := hsame h₁
    obtain ⟨qs₂, hq₂, hb₂, hl₂, hh₂⟩ := hsame h₂
    refine h.distinct o₁ o₂ qs₁ qs₂ hq₁ hq₂ ?_
    rw [hbytes hb₂ hl₂] at hm
    exact ⟨hl₁.symm.trans hm.length_eq, hh₁.symm.trans hm.hash_eq,
      (hbytes hb₁ hl₁) ▸ hm.beforeZero_eq⟩
  · simp [modify_object, h.fresh o' ho']

/-- What a new string object holds. -/
def new (s : List Byte) : StringObj := ⟨s ++ [0], s.length, hashMem s, 1⟩

theorem new_wf (s : List Byte) : (new s).WellFormed := (StringObj.WellFormed.of_new s 1).1

@[simp] theorem new_bytes (s : List Byte) : (new s).bytes = s :=
  (StringObj.WellFormed.of_new s 1).2

theorem create_object (o : ObjId) :
    (p.create (s ++ [0]) s.length (hashMem s)).object o =
      if o = p.next then some (new s) else p.object o := by
  by_cases ho : o = p.next
  · simp [StringPool.create, new, ho]
  · simp [StringPool.create, ho]

theorem create_object_some
    (h : (p.create (s ++ [0]) s.length (hashMem s)).object o = some ps) :
    o = p.next ∧ ps = new s ∨ o ≠ p.next ∧ p.object o = some ps := by
  rw [create_object] at h
  split at h
  · rename_i ho
    exact .inl ⟨ho, (Option.some.inj h).symm⟩
  · rename_i ho
    exact .inr ⟨ho, h⟩

theorem mem_create_strings (b : Nat) (o : ObjId) :
    o ∈ (p.create (s ++ [0]) s.length (hashMem s)).strings b ↔
      b = bucket (hashMem s) ∧ o = p.next ∨ o ∈ p.strings b := by
  by_cases hb : b = bucket (hashMem s)
  · subst hb
    simp [StringPool.create]
  · simp [StringPool.create, hb]

theorem Pooled.next_not_mem (h : p.Pooled) (b : Nat) : p.next ∉ p.strings b := by
  rw [h.mem_bucket]
  rintro ⟨ps, hps, -⟩
  rw [h.fresh p.next (Nat.le_refl _)] at hps
  cases hps

/-- A new string that matches nothing in the pool joins it. -/
theorem Pooled.create (h : p.Pooled) (hf : p.find s = none) :
    (p.create (s ++ [0]) s.length (hashMem s)).Pooled where
  mem_bucket b o := by
    rw [mem_create_strings, create_object]
    by_cases ho : o = p.next
    · subst ho
      simp [h.next_not_mem b, new, eq_comm]
    · simpa [ho] using h.mem_bucket b o
  bucket_nodup b := by
    by_cases hb : b = bucket (hashMem s)
    · subst hb
      simpa [StringPool.create] using ⟨h.next_not_mem _, h.bucket_nodup _⟩
    · simpa [StringPool.create, hb] using h.bucket_nodup b
  wf o ps hps := by
    rcases create_object_some hps with ⟨-, rfl⟩ | ⟨-, hps⟩
    · exact new_wf s
    · exact h.wf o ps hps
  distinct o o' ps ps' hps hps' hm := by
    rcases create_object_some hps with ⟨rfl, rfl⟩ | ⟨-, hps⟩ <;>
      rcases create_object_some hps' with ⟨rfl, rfl⟩ | ⟨-, hps'⟩
    · rfl
    · have hm' := hm.symm (new_wf s) (h.wf o' ps' hps')
      rw [new_bytes] at hm'
      exact absurd hm' (h.find_none hf hps')
    · rw [new_bytes] at hm
      exact absurd hm (h.find_none hf hps)
    · exact h.distinct o o' ps ps' hps hps' hm
  fresh o ho := by
    have hlt : p.next < o := ho
    rw [create_object, if_neg (Nat.ne_of_gt hlt)]
    exact h.fresh o (Nat.le_of_lt hlt)

theorem Inv.create (h : p.Inv) (hf : p.find s = none) :
    (p.create (s ++ [0]) s.length (hashMem s)).Inv where
  pooled := h.pooled.create hf
  cached :=
    { mem_scache := fun o => by
        refine (h.cached.mem_scache o).trans ?_
        rw [create_object]
        by_cases ho : o = p.next
        · subst ho
          simp [h.pooled.fresh p.next (Nat.le_refl _), new]
        · simp [ho]
      nodup := h.cached.nodup
      size_eq := h.cached.size_eq }

/-- Destroying a string takes it out of its bucket. -/
theorem Pooled.reallyDestruct (h : p.Pooled) (o : ObjId) : (p.reallyDestruct o).Pooled := by
  unfold StringPool.reallyDestruct
  cases hps : p.object o with
  | none => exact h
  | some ps =>
    have hold : ∀ {o' : ObjId} {ps' : StringObj},
        Function.update p.object o none o' = some ps' → o' ≠ o ∧ p.object o' = some ps' := by
      intro o' ps' h'
      by_cases ho : o' = o
      · subst ho
        simp at h'
      · exact ⟨ho, by simpa [ho] using h'⟩
    refine ⟨fun b o' => ?_, fun b => ?_, fun o' ps' h' => h.wf o' ps' (hold h').2,
      fun o₁ o₂ ps₁ ps₂ h₁ h₂ hm => h.distinct o₁ o₂ ps₁ ps₂ (hold h₁).2 (hold h₂).2 hm,
      fun o' ho' => ?_⟩
    · by_cases hb : b = bucket ps.hash
      · subst hb
        simp only [Function.update_self, (h.bucket_nodup _).mem_erase_iff, h.mem_bucket]
        by_cases ho : o' = o
        · simp [ho]
        · simp [ho]
      · simp only [Function.update_of_ne hb, h.mem_bucket]
        by_cases ho : o' = o
        · subst ho
          simp [hps, Ne.symm hb]
        · simp [ho]
    · by_cases hb : b = bucket ps.hash
      · subst hb
        simpa using (h.bucket_nodup _).erase o
      · simpa [hb] using h.bucket_nodup b
    · by_cases ho : o' = o
      · simp [ho]
      · simpa [ho] using h.fresh o' ho'

theorem reallyDestruct_object {o' : ObjId} :
    (p.reallyDestruct o).object o' = if o' = o then none else p.object o' := by
  unfold StringPool.reallyDestruct
  cases hps : p.object o with
  | none =>
    by_cases ho : o' = o
    · subst ho
      simp [hps]
    · simp [ho]
  | some ps =>
    by_cases ho : o' = o
    · subst ho
      simp
    · simp [ho]

@[simp] theorem reallyDestruct_scache :
    (p.reallyDestruct o).scache = p.scache ∧
      (p.reallyDestruct o).scacheSize = p.scacheSize := by
  unfold StringPool.reallyDestruct
  cases p.object o <;> exact ⟨rfl, rfl⟩

end StringPool

end Eel
