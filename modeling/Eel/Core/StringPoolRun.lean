-- SUMMARY: Every run keeps the string pool's invariant; requests are answered exactly unless a pooled string is conflated with them.
import Eel.Core.StringPoolInv

/-!
# Runs of the string pool
-/

namespace Eel.StringPool

variable {p : StringPool} {o : ObjId} {ps : StringObj} {s : List Byte}

/-! ## Owners -/

theorem refcount_eq (h : p.object o = some ps) : p.refcount o = ps.refcount := by
  rw [refcount, h]

theorem exists_of_refcount (h : p.refcount o ≠ 0) : ∃ ps, p.object o = some ps := by
  unfold refcount at h
  cases hps : p.object o with
  | none => simp [hps] at h
  | some ps => exact ⟨ps, rfl⟩

/-- Which strings have no owners after the count of one of them has changed. -/
theorem modify_ownerless (f : Nat → Nat) (o' : ObjId) :
    (∃ ps, (p.modify o fun ps => { ps with refcount := f ps.refcount }).object o' = some ps ∧
        ps.refcount = 0) ↔
      ∃ ps, p.object o' = some ps ∧ (if o' = o then f ps.refcount else ps.refcount) = 0 := by
  rw [modify_object]
  by_cases ho : o' = o
  · subst ho
    cases p.object o' <;> simp
  · simp [ho]

theorem Inv.own (h : p.Inv) (ho : p.refcount o ≠ 0) : (p.own o).Inv where
  pooled := h.pooled.modify o (· + 1) p.scache p.scacheSize
  cached :=
    { mem_scache := fun o' => by
        refine (h.cached.mem_scache o').trans (Iff.trans ?_ (modify_ownerless (· + 1) o').symm)
        by_cases heq : o' = o
        · subst heq
          obtain ⟨ps, hps⟩ := exists_of_refcount ho
          rw [refcount_eq hps] at ho
          simp [hps, ho]
        · simp [heq]
      nodup := h.cached.nodup
      size_eq := h.cached.size_eq }

/-- A string that is found gains an owner, and leaves the cache if it was there. -/
theorem Inv.resurrect (h : p.Inv) (hps : p.object o = some ps) : (p.resurrect o).Inv := by
  unfold StringPool.resurrect
  split
  · rename_i hzero
    rw [refcount_eq hps] at hzero
    have hmem : o ∈ p.scache := (h.cached.mem_scache o).mpr ⟨ps, hps, hzero⟩
    exact
      { pooled := h.pooled.modify o (· + 1) (p.scache.erase o) (p.scacheSize - 1)
        cached :=
          { mem_scache := fun o' => by
              refine Iff.trans ?_ (modify_ownerless (· + 1) o').symm
              change o' ∈ p.scache.erase o ↔ _
              rw [h.cached.nodup.mem_erase_iff, h.cached.mem_scache]
              by_cases heq : o' = o <;> simp [heq]
            nodup := h.cached.nodup.erase o
            size_eq := by
              have hpos := List.length_pos_of_mem hmem
              have hlen := List.length_erase_of_mem hmem
              have hsize := h.cached.size_eq
              simp only [StringPool.own, modify]
              omega } }
  · rename_i hne
    exact h.own hne

theorem resurrect_object (hps : p.object o = some ps) :
    (p.resurrect o).object o = some { ps with refcount := ps.refcount + 1 } := by
  unfold StringPool.resurrect
  split <;> simp [StringPool.own, modify, hps]

/-- Caching the string that has just lost its last owner, and spilling the oldest
one when the cache is full. -/
theorem Inv.cache (hpool : p.Pooled)
    (hmem : ∀ o', o' ∈ o :: p.scache ↔ ∃ ps, p.object o' = some ps ∧ ps.refcount = 0)
    (hnodup : (o :: p.scache).Nodup) (hsize : p.scacheSize = p.scache.length) :
    (p.cache o).Inv := by
  have hpush : Pooled { p with scache := o :: p.scache } :=
    ⟨hpool.mem_bucket, hpool.bucket_nodup, hpool.wf, hpool.distinct, hpool.fresh⟩
  unfold StringPool.cache
  dsimp only
  split
  · cases hl : (o :: p.scache).getLast? with
    | none => simp at hl
    | some last =>
      have hlast : last ∈ o :: p.scache := List.mem_of_getLast? hl
      dsimp only
      have hspill : Pooled { p with scache := (o :: p.scache).erase last } :=
        ⟨hpool.mem_bucket, hpool.bucket_nodup, hpool.wf, hpool.distinct, hpool.fresh⟩
      refine ⟨hspill.reallyDestruct last, ⟨fun o' => ?_, ?_, ?_⟩⟩
      · rw [reallyDestruct_scache.1, reallyDestruct_object, hnodup.mem_erase_iff, hmem]
        by_cases ho : o' = last <;> simp [ho]
      · rw [reallyDestruct_scache.1]
        exact hnodup.erase last
      · rw [reallyDestruct_scache.1, reallyDestruct_scache.2]
        have hlen := List.length_erase_of_mem hlast
        simp only [List.length_cons] at hlen
        simp only [hlen, hsize]
        rfl
  · exact ⟨⟨hpool.mem_bucket, hpool.bucket_nodup, hpool.wf, hpool.distinct, hpool.fresh⟩,
      ⟨hmem, hnodup, by simp [hsize]⟩⟩

theorem Inv.disown (h : p.Inv) (ho : p.refcount o ≠ 0) : (p.disown o).Inv := by
  obtain ⟨ps, hps⟩ := exists_of_refcount ho
  rw [refcount_eq hps] at ho
  have hpool := h.pooled.modify o (· - 1) p.scache p.scacheSize
  have hps' : (p.modify o fun ps => { ps with refcount := ps.refcount - 1 }).object o =
      some { ps with refcount := ps.refcount - 1 } := by simp [modify_object, hps]
  have hno : o ∉ p.scache := by
    rw [h.cached.mem_scache]
    rintro ⟨ps', hps'', hzero⟩
    rw [hps] at hps''
    cases hps''
    exact ho hzero
  unfold StringPool.disown
  dsimp only
  split
  · rename_i hzero
    rw [refcount_eq hps'] at hzero
    refine Inv.cache hpool (fun o' => ?_) (List.nodup_cons.mpr ⟨hno, h.cached.nodup⟩)
      h.cached.size_eq
    refine Iff.trans ?_ (modify_ownerless (· - 1) o').symm
    change o' ∈ o :: p.scache ↔ _
    rw [List.mem_cons, h.cached.mem_scache]
    by_cases heq : o' = o
    · subst heq
      simpa [hps] using hzero
    · simp [heq]
  · rename_i hne
    rw [refcount_eq hps'] at hne
    refine ⟨hpool, ⟨fun o' => ?_, h.cached.nodup, h.cached.size_eq⟩⟩
    refine Iff.trans ?_ (modify_ownerless (· - 1) o').symm
    change o' ∈ p.scache ↔ _
    rw [h.cached.mem_scache]
    by_cases heq : o' = o
    · subst heq
      have hne' : ¬ps.refcount - 1 = 0 := hne
      simp [hps, ho, hne']
    · simp [heq]

/-! ## Requests -/

/-- Taking over the caller's buffer differs in nothing the pool can show. -/
theorem nnewGrab_eq : p.nnewGrab s = p.nnew s := rfl

theorem Inv.nnew (h : p.Inv) (s : List Byte) : (p.nnew s).2.Inv := by
  unfold StringPool.nnew
  cases hf : p.find s with
  | none => exact h.create hf
  | some o =>
    obtain ⟨ps, hps, -⟩ := h.pooled.find_some hf
    exact h.resurrect hps

theorem Inv.step (h : p.Inv) (op : Op) : (p.step op).2.Inv := by
  cases op with
  | nnew s => exact h.nnew s
  | nnewGrab s => exact h.nnew s
  | own o =>
    unfold StringPool.step
    dsimp only
    split
    · exact h
    · rename_i ho
      exact h.own ho
  | disown o =>
    unfold StringPool.step
    dsimp only
    split
    · exact h
    · rename_i ho
      exact h.disown ho

theorem Inv.run (ops : List Op) : (Machine.run StringPool.step StringPool.open ops).2.Inv :=
  Machine.run_inv (fun _ op h _ => h.step op) Inv.open
    (Machine.Along.of_forall (P := fun _ => True) fun _ _ => trivial)

/-- The answer to a request is a string with exactly these contents. -/
def Returns (r : ObjId × StringPool) (s : List Byte) : Prop :=
  ∃ ps, r.2.object r.1 = some ps ∧ ps.bytes = s ∧ ps.length = s.length

/-- The pool has a string that it cannot tell from `s`. -/
def HasConflated (p : StringPool) (s : List Byte) : Prop :=
  ∃ o ps, p.object o = some ps ∧ ps.Conflates s

theorem Inv.nnew_returns_iff (h : p.Inv) (s : List Byte) :
    Returns (p.nnew s) s ↔ ¬p.HasConflated s := by
  unfold StringPool.nnew
  cases hf : p.find s with
  | none =>
    have hret : Returns (p.next, p.create (s ++ [0]) s.length (hashMem s)) s :=
      ⟨new s, (create_object p.next).trans (if_pos rfl), new_bytes s, rfl⟩
    refine iff_of_true hret ?_
    rintro ⟨o, ps, hps, -, hlen, hhash, hzero⟩
    exact h.pooled.find_none hf hps ⟨hlen, hhash, hzero⟩
  | some o =>
    obtain ⟨ps, hps, hm⟩ := h.pooled.find_some hf
    have hbytes : Returns (o, p.resurrect o) s ↔ ps.bytes = s := by
      simp only [Returns, resurrect_object hps, Option.some.injEq]
      exact ⟨fun ⟨_, rfl, hb, _⟩ => hb, fun hb => ⟨_, rfl, hb, hm.length_eq⟩⟩
    refine hbytes.trans ⟨fun hb => ?_, fun hno => ?_⟩
    · -- The string itself is there, so nothing else in the pool matches.
      rintro ⟨o', ps', hps', hne, hlen, hhash, hzero⟩
      subst hb
      obtain rfl := h.pooled.distinct o' o ps' ps hps' hps ⟨hlen, hhash, hzero⟩
      rw [hps] at hps'
      cases hps'
      exact hne rfl
    · by_contra hne
      exact hno ⟨o, ps, hps, hne, hm.length_eq, hm.hash_eq, hm.beforeZero_eq⟩

/-- Strings in the pool with the same contents are one object. -/
theorem Inv.eq_iff_bytes (h : p.Inv) {o o' : ObjId} {ps ps' : StringObj}
    (hps : p.object o = some ps) (hps' : p.object o' = some ps') :
    o = o' ↔ ps.bytes = ps'.bytes := by
  constructor
  · rintro rfl
    rw [hps] at hps'
    cases hps'
    rfl
  · intro heq
    exact h.pooled.distinct o o' ps ps' hps hps' (heq ▸ (h.pooled.wf o ps hps).matches_self)

/-! ## Interning is exact but for conflated strings -/

/-- In every state a run can reach, a request returns exactly the contents asked
for unless a pooled string of the same length and hash code agrees with them up
to the first zero and differs after it; and two strings are one object exactly
when their contents are equal. -/
theorem run_returns_iff (ops : List Op) :
    let p := (Machine.run step «open» ops).2
    (∀ s, Returns (p.nnew s) s ↔ ¬p.HasConflated s) ∧
    (∀ s, Returns (p.nnewGrab s) s ↔ ¬p.HasConflated s) ∧
    ∀ o o' ps ps', p.object o = some ps → p.object o' = some ps' →
      (o = o' ↔ ps.bytes = ps'.bytes) :=
  have h := Inv.run ops
  ⟨h.nnew_returns_iff, h.nnew_returns_iff, fun _ _ _ _ => h.eq_iff_bytes⟩

/-- 33 zeros are in the pool when 32 zeros and a one are asked for. -/
theorem not_returns_after_zeros :
    ¬Returns ((Machine.run step «open» [.nnew (List.replicate 33 0)]).2.nnew
      (List.replicate 32 0 ++ [1])) (List.replicate 32 0 ++ [1]) := by
  rw [(Inv.run _).nnew_returns_iff, not_not]
  refine ⟨0, new (List.replicate 33 0), rfl, ?_, rfl, ?_, rfl⟩
  · rw [new_bytes]
    decide
  · change hashMem _ = hashMem _
    rw [hashMem, hashMem]
    rfl

end Eel.StringPool
