-- SUMMARY: What collecting modules keeps: exact counts, and no references to what is gone, as long as modules keep the references they had.
import Eel.Core.Modules
import Mathlib.Data.List.Count

/-!
# Runs of module collection
-/

namespace Eel

namespace ObjGraph

variable {s s' : ObjGraph} {X : Option ObjId} {m o : ObjId} {r : Ref} {h : Holder} {d : Dispose} {n : Nat}

/-! ## Counting -/

theorem countP_target_cons {refs : List Ref} {os : List ObjId} (ho : o ∉ os) :
    refs.countP (fun r => r.target ∈ o :: os) =
      refs.countP (fun r => r.target = o) + refs.countP fun r => r.target ∈ os := by
  induction refs with
  | nil => rfl
  | cons r refs ih =>
    rw [List.countP_cons, List.countP_cons, List.countP_cons, ih]
    simp only [List.mem_cons, decide_eq_true_eq]
    by_cases hr : r.target = o
    · rw [hr, if_pos (.inl rfl), if_pos rfl, if_neg ho]
      omega
    · by_cases hm : r.target ∈ os
      · rw [if_pos (.inr hm), if_neg hr, if_pos hm]
        omega
      · rw [if_neg (not_or.mpr ⟨hr, hm⟩), if_neg hr, if_neg hm]
        rfl

theorem foldl_refcount (hexact : ∀ o, s.refcount o = s.refs.countP fun r => r.target = o) {os : List ObjId}
    (hnodup : os.Nodup) (rc : Int) :
    os.foldl (fun rc o => rc + s.refcount o) rc = rc + s.refs.countP fun r => r.target ∈ os := by
  induction os generalizing rc with
  | nil => simp
  | cons o os ih =>
    obtain ⟨ho, hos⟩ := List.nodup_cons.mp hnodup
    rw [List.foldl_cons, ih hos, hexact, countP_target_cons ho]
    omega

/-- The sum of the reference counts is the number of references. -/
theorem moduleCountref_eq (hexact : ∀ o, s.refcount o = s.refs.countP fun r => r.target = o)
    (hnodup : (s.objects m).Nodup) :
    s.moduleCountref m = s.refs.countP fun r => r.target ∈ s.objects m := by
  have hsum := foldl_refcount hexact hnodup 0
  rw [Int.zero_add] at hsum
  exact hsum

/-- References to the functions of a module that are not its own. -/
def outside (s : ObjGraph) (m : ObjId) : Nat :=
  s.refs.countP fun r => ¬ r.holder.InModule m ∧ r.target ∈ s.objects m

theorem countP_objects :
    s.refs.countP (fun r => r.target ∈ s.objects m) = s.inside m + s.outside m := by
  unfold inside outside
  generalize s.refs = refs
  induction refs with
  | nil => rfl
  | cons r refs ih =>
    simp only [List.countP_cons, ih, decide_eq_true_eq]
    by_cases hm : r.target ∈ s.objects m <;> by_cases hh : r.holder.InModule m <;> simp [hm, hh] <;> omega

/-! ## Invariant -/

/-- What holds between operations. The module `X`, if any, is being destructed. -/
structure Inv (X : Option ObjId) (s : ObjGraph) : Prop where
  exact : ∀ o, s.refcount o = s.refs.countP fun r => r.target = o
  alive : ∀ r ∈ s.refs, s.freed r.target = false
  dead : ∀ m ∈ s.deadmods, s.isModule m ∧ s.freed m = false ∧ s.refcount m = 0
  nodup : s.deadmods.Nodup
  kept : ∀ m, some m ≠ X → s.isModule m → s.freed m = false → s.refsum m ≤ s.inside m
  distinct : ∀ m, (s.objects m).Nodup
  noneLeft : s.NoneLeft
  logged : ∀ c ∈ s.log, c.Unreferenced
  locked : X ≠ none → s.moduleLock ≠ 0
  fresh : ∀ o, s.next ≤ o →
    s.isModule o = false ∧ s.freed o = false ∧ s.objects o = [] ∧ s.refsum o = 0
  target_lt : ∀ r ∈ s.refs, r.target < s.next
  objects_lt : ∀ m, ∀ o ∈ s.objects m, o < s.next
  functions : ∀ m, ∀ o ∈ s.objects m, s.isModule o = false

/-- Destructors drop references and free objects. -/
structure Settles (s s' : ObjGraph) : Prop where
  refs : s'.refs.Sublist s.refs
  isModule : s'.isModule = s.isModule
  objects : s'.objects = s.objects
  refsum : s'.refsum = s.refsum
  moduleLock : s'.moduleLock = s.moduleLock
  next : s'.next = s.next

theorem Settles.refl : Settles s s := ⟨.refl _, rfl, rfl, rfl, rfl, rfl⟩

theorem Settles.trans {s'' : ObjGraph} (h : Settles s s') (h' : Settles s' s'') : Settles s s'' where
  refs := h'.refs.trans h.refs
  isModule := h'.isModule.trans h.isModule
  objects := h'.objects.trans h.objects
  refsum := h'.refsum.trans h.refsum
  moduleLock := h'.moduleLock.trans h.moduleLock
  next := h'.next.trans h.next

/-- While collection is locked, no module is freed. -/
def ModulesStay (s s' : ObjGraph) : Prop :=
  s.moduleLock ≠ 0 → ∀ m, s.isModule m → s'.freed m = s.freed m

theorem ModulesStay.trans {s'' : ObjGraph} (h : ModulesStay s s') (hs : Settles s s')
    (h' : ModulesStay s' s'') : ModulesStay s s'' := by
  intro hlock m hm
  rw [h' (by rw [hs.moduleLock]; exact hlock) m (by rw [hs.isModule]; exact hm)]
  exact h hlock m hm

/-- Without references before, without references after. -/
theorem Settles.refcount_zero {Y : Option ObjId} (hs : Settles s s') (h : s.Inv X) (h' : s'.Inv Y)
    (ho : s.refcount o = 0) :
    s'.refcount o = 0 := by
  have hle := hs.refs.countP_le (p := fun r => decide (r.target = o))
  have hold := h.exact o
  rw [h'.exact o]
  omega

theorem Inv.not_target (h : s.Inv X) (ho : s.refcount o = 0) (hr : r ∈ s.refs) : r.target ≠ o := by
  intro heq
  have hpos : 0 < s.refs.countP fun r => r.target = o :=
    List.countP_pos_iff.mpr ⟨r, hr, decide_eq_true heq⟩
  have hex := h.exact o
  omega

/-! ## Disowning -/

/-- Something that may dispose of objects. -/
def Disposes (d : Dispose) : Prop :=
  ∀ X s o, s.Inv X → s.refcount o = 0 → s.freed o = false → o ∉ s.deadmods → o < s.next →
    (d s o).Inv X ∧ Settles s (d s o) ∧ ModulesStay s (d s o)

/-- A reference goes away. -/
theorem Inv.erase (h : s.Inv X) (hr : r ∈ s.refs)
    (hkeeps : ∀ m, some m ≠ X → r.holder.InModule m → r.target ∈ s.objects m → s.refsum m < s.inside m) :
    Inv X { s with
      refs := s.refs.erase r
      refcount := Function.update s.refcount r.target (s.refcount r.target - 1) } where
  exact := by
    intro o
    have hex := h.exact o
    dsimp only
    by_cases ho : r.target = o
    · have hpos : 0 < s.refs.countP fun r => r.target = o :=
        List.countP_pos_iff.mpr ⟨r, hr, decide_eq_true ho⟩
      rw [ho, Function.update_self, List.countP_erase, if_pos ⟨hr, decide_eq_true ho⟩]
      omega
    · rw [Function.update_of_ne (Ne.symm ho), List.countP_erase, if_neg, hex]
      · rfl
      · simp [ho]
  alive := fun r' hr' => h.alive r' (List.mem_of_mem_erase hr')
  dead := by
    intro m hm
    obtain ⟨hmod, hfreed, hzero⟩ := h.dead m hm
    refine ⟨hmod, hfreed, ?_⟩
    dsimp only
    rw [Function.update_of_ne (Ne.symm (h.not_target hzero hr))]
    exact hzero
  nodup := h.nodup
  kept := by
    intro m hm hmod hfreed
    have hold := h.kept m hm hmod hfreed
    have hlt := hkeeps m hm
    unfold inside at hold hlt ⊢
    dsimp only
    rw [List.countP_erase]
    split
    · rename_i hin
      have hin := of_decide_eq_true hin.2
      have := hlt hin.1 hin.2
      omega
    · omega
  distinct := h.distinct
  noneLeft := fun m hm hf r' hr' => h.noneLeft m hm hf r' (List.mem_of_mem_erase hr')
  logged := h.logged
  locked := h.locked
  fresh := h.fresh
  target_lt := fun r' hr' => h.target_lt r' (List.mem_of_mem_erase hr')
  objects_lt := h.objects_lt
  functions := h.functions

theorem Inv.disown (h : s.Inv X) (hd : Disposes d) (hr : r ∈ s.refs)
    (hkeeps : ∀ m, some m ≠ X → r.holder.InModule m → r.target ∈ s.objects m → s.refsum m < s.inside m) :
    (s.disown d r).Inv X ∧ (s.disown d r).refs.Sublist (s.refs.erase r) ∧ Settles s (s.disown d r) ∧
      ModulesStay s (s.disown d r) := by
  have herase := h.erase hr hkeeps
  have hsettles : Settles s { s with
      refs := s.refs.erase r
      refcount := Function.update s.refcount r.target (s.refcount r.target - 1) } :=
    ⟨List.erase_sublist, rfl, rfl, rfl, rfl, rfl⟩
  unfold ObjGraph.disown
  dsimp only
  split
  · exact ⟨herase, .refl _, hsettles, fun _ _ _ => rfl⟩
  · rename_i hzero
    have hdead : r.target ∉ s.deadmods := fun hm => h.not_target (h.dead _ hm).2.2 hr rfl
    obtain ⟨hinv, hset, hstay⟩ := hd X _ r.target herase (not_not.mp hzero) (h.alive r hr) hdead
      (h.target_lt r hr)
    exact ⟨hinv, hset.refs, hsettles.trans hset, fun hlock m hm => hstay hlock m hm⟩


/-- A holder lets go of all it has. -/
theorem Inv.disownAll (hd : Disposes d) (hh : ∀ m, some m ≠ X → ¬ h.InModule m) (hinv : s.Inv X) :
    (ObjGraph.disownAll d h n s).Inv X ∧ Settles s (ObjGraph.disownAll d h n s) ∧
      ModulesStay s (ObjGraph.disownAll d h n s) ∧
      (s.refs.length ≤ n → ∀ r ∈ (ObjGraph.disownAll d h n s).refs, r.holder ≠ h) := by
  induction n generalizing s with
  | zero =>
    refine ⟨hinv, .refl, fun _ _ _ => rfl, fun hlen r hr => ?_⟩
    have hpos := List.length_pos_of_mem hr
    exact absurd hlen (Nat.not_le_of_gt hpos)
  | succ n ih =>
    rw [ObjGraph.disownAll]
    split
    · rename_i hnone
      refine ⟨hinv, .refl, fun _ _ _ => rfl, fun _ r hr heq => ?_⟩
      exact List.find?_eq_none.mp hnone r hr (decide_eq_true heq)
    · rename_i r hsome
      have hr := List.mem_of_find?_eq_some hsome
      have hheld : decide (r.holder = h) = true := @List.find?_some _ (fun r : Ref => r.holder = h) _ _ hsome
      have hheld := of_decide_eq_true hheld
      obtain ⟨hinv', herase, hset, hstay⟩ :=
        hinv.disown hd hr fun m hm hin => absurd (hheld ▸ hin) (hh m hm)
      obtain ⟨hinv'', hset', hstay', hnone⟩ := ih hinv'
      refine ⟨hinv'', hset.trans hset', hstay.trans hset hstay', fun hlen => hnone ?_⟩
      have hle := herase.length_le
      rw [List.length_erase_of_mem hr] at hle
      omega

/-! ## Collecting -/

theorem outside_eq_zero (h : s.Inv none) (hmod : s.isModule m) (hfreed : s.freed m = false)
    (hsum : s.moduleCountref m = s.refsum m) : s.outside m = 0 := by
  have hkept := h.kept m (Option.some_ne_none m) hmod hfreed
  rw [moduleCountref_eq h.exact (h.distinct m), countP_objects] at hsum
  omega

/-- A module that is collected is not referenced from outside. -/
theorem unreferenced (h : s.Inv none) (hmod : s.isModule m) (hfreed : s.freed m = false)
    (hzero : s.refcount m = 0) (hsum : s.moduleCountref m = s.refsum m) :
    Collection.Unreferenced ⟨m, s.objects m, s.refs⟩ := by
  intro r hr
  refine ⟨h.not_target hzero hr, fun hobj => ?_⟩
  have hnone := List.countP_eq_zero.mp (outside_eq_zero h hmod hfreed hsum) r hr
  by_contra hout
  exact hnone (decide_eq_true ⟨hout, hobj⟩)

/-- The module to be destructed lets go of what one of its parts holds. -/
theorem Inv.disownPart {p : Part} (h : s.Inv (some m)) (hd : Disposes d) :
    (ObjGraph.disownAll d (.part m p) s.refs.length s).Inv (some m) ∧
      Settles s (ObjGraph.disownAll d (.part m p) s.refs.length s) ∧
      ModulesStay s (ObjGraph.disownAll d (.part m p) s.refs.length s) ∧
      ∀ r ∈ (ObjGraph.disownAll d (.part m p) s.refs.length s).refs, r.holder ≠ .part m p := by
  have hh : ∀ m', some m' ≠ some m → ¬ (Holder.part m p).InModule m' :=
    fun m' hm' hin => hm' (congrArg some (Eq.symm hin))
  obtain ⟨hinv, hset, hstay, hnone⟩ := h.disownAll (n := s.refs.length) hd hh
  exact ⟨hinv, hset, hstay, hnone (Nat.le_refl _)⟩

theorem Inv.disownParts (h : s.Inv (some m)) (hd : Disposes d) :
    (s.disownParts d m).Inv (some m) ∧ Settles s (s.disownParts d m) ∧
      ModulesStay s (s.disownParts d m) ∧ ∀ r ∈ (s.disownParts d m).refs, ¬ r.holder.InModule m := by
  unfold ObjGraph.disownParts
  dsimp only
  obtain ⟨hinv₁, hset₁, hstay₁, hnone₁⟩ := h.disownPart (p := .variables) hd
  generalize ObjGraph.disownAll d (.part m .variables) _ _ = s₁ at hinv₁ hset₁ hstay₁ hnone₁ ⊢
  obtain ⟨hinv₂, hset₂, hstay₂, hnone₂⟩ := hinv₁.disownPart (p := .exports) hd
  generalize ObjGraph.disownAll d (.part m .exports) _ _ = s₂ at hinv₂ hset₂ hstay₂ hnone₂ ⊢
  obtain ⟨hinv₃, hset₃, hstay₃, hnone₃⟩ := hinv₂.disownPart (p := .objects) hd
  refine ⟨hinv₃, hset₁.trans (hset₂.trans hset₃), hstay₁.trans hset₁ (hstay₂.trans hset₂ hstay₃),
    fun r hr hin => ?_⟩
  obtain ⟨⟨⟩ | o | ⟨m', p⟩, target⟩ := r
  · exact hin
  · exact hin
  · cases hin
    cases p with
    | «variables» => exact hnone₁ _ ((hset₂.trans hset₃).refs.subset hr) rfl
    | exports => exact hnone₂ _ (hset₃.refs.subset hr) rfl
    | objects => exact hnone₃ _ hr rfl

theorem Inv.log (h : s.Inv none) (hlock : s.moduleLock ≠ 0) (hmod : s.isModule m)
    (hfreed : s.freed m = false) (hzero : s.refcount m = 0) (hsum : s.moduleCountref m = s.refsum m) :
    Inv (some m) { s with log := ⟨m, s.objects m, s.refs⟩ :: s.log } where
  exact := h.exact
  alive := h.alive
  dead := h.dead
  nodup := h.nodup
  kept := fun m' _ => h.kept m' (Option.some_ne_none m')
  distinct := h.distinct
  noneLeft := h.noneLeft
  logged := by
    intro c hc
    rcases List.mem_cons.mp hc with rfl | hc
    · exact unreferenced h hmod hfreed hzero hsum
    · exact h.logged c hc
  locked := fun _ => hlock
  fresh := h.fresh
  target_lt := h.target_lt
  objects_lt := h.objects_lt
  functions := h.functions

/-- All that the module held is gone, and it is freed. -/
theorem Inv.free (h : s.Inv (some m)) (hmod : s.isModule m) (hzero : s.refcount m = 0)
    (hnone : ∀ r ∈ s.refs, r.target ∉ s.objects m) :
    Inv none { s with
      deadmods := s.deadmods.erase m
      freed := Function.update s.freed m true } where
  exact := h.exact
  alive := by
    intro r hr
    dsimp only
    rw [Function.update_of_ne (h.not_target hzero hr)]
    exact h.alive r hr
  dead := by
    intro m' hm'
    obtain ⟨hne, hold⟩ := (List.Nodup.mem_erase_iff h.nodup).mp hm'
    obtain ⟨hmod', hfreed', hzero'⟩ := h.dead m' hold
    refine ⟨hmod', ?_, hzero'⟩
    dsimp only
    rw [Function.update_of_ne hne]
    exact hfreed'
  nodup := h.nodup.erase m
  kept := by
    intro m' _ hmod' hfreed'
    by_cases hm' : m' = m
    · change Function.update s.freed m true m' = false at hfreed'
      rw [hm', Function.update_self] at hfreed'
      cases hfreed'
    · change Function.update s.freed m true m' = false at hfreed'
      rw [Function.update_of_ne hm'] at hfreed'
      exact h.kept m' (fun heq => hm' (Option.some.inj heq)) hmod' hfreed'
  distinct := h.distinct
  noneLeft := by
    intro m' hmod' hfreed' r hr
    by_cases hm' : m' = m
    · rw [hm']
      exact ⟨h.not_target hzero hr, hnone r hr⟩
    · change Function.update s.freed m true m' = true at hfreed'
      rw [Function.update_of_ne hm'] at hfreed'
      exact h.noneLeft m' hmod' hfreed' r hr
  logged := h.logged
  locked := fun hX => absurd rfl hX
  fresh := by
    intro o ho
    obtain ⟨hmod', hfreed', hobj⟩ := h.fresh o ho
    refine ⟨hmod', ?_, hobj⟩
    have hne : o ≠ m := by
      intro heq
      rw [heq, hmod] at hmod'
      cases hmod'
    dsimp only
    rw [Function.update_of_ne hne]
    exact hfreed'
  target_lt := h.target_lt
  objects_lt := h.objects_lt
  functions := h.functions

/-- A dead module: nothing refers to it. -/
def Dead (s : ObjGraph) (m : ObjId) : Prop := s.isModule m ∧ s.freed m = false ∧ s.refcount m = 0

theorem Inv.realDestruct (h : s.Inv none) (hd : Disposes d) (hlock : s.moduleLock ≠ 0)
    (hdead : s.Dead m) :
    (s.realDestruct d m).Inv none ∧ Settles s (s.realDestruct d m) ∧
      ∀ m', m' ≠ m → s.isModule m' → (s.realDestruct d m).freed m' = s.freed m' := by
  obtain ⟨hmod, hfreed, hzero⟩ := hdead
  unfold ObjGraph.realDestruct
  split
  · exact ⟨h, .refl, fun _ _ _ => rfl⟩
  · rename_i hsum
    have hsum := not_not.mp hsum
    have hun := unreferenced h hmod hfreed hzero hsum
    have hlog := h.log hlock hmod hfreed hzero hsum
    obtain ⟨hinv, hset, hstay, hnone⟩ := hlog.disownParts hd
    dsimp only
    generalize ObjGraph.disownParts _ d m = s' at hinv hset hstay hnone ⊢
    have hzero' : s'.refcount m = 0 := hset.refcount_zero hlog hinv hzero
    have hleft : ∀ r ∈ s'.refs, r.target ∉ s'.objects m := by
      intro r hr hobj
      rw [hset.objects] at hobj
      exact hnone r hr ((hun r (hset.refs.subset hr)).2 hobj)
    refine ⟨hinv.free (by rw [hset.isModule]; exact hmod) hzero' hleft, ?_, fun m' hm' hmod' => ?_⟩
    · exact ⟨hset.refs, hset.isModule, hset.objects, hset.refsum, hset.moduleLock, hset.next⟩
    · change Function.update s'.freed m true m' = _
      rw [Function.update_of_ne hm']
      exact hstay hlock m' hmod'

theorem lnext_spec {ms : List ObjId} (hnodup : ms.Nodup) (h : lnext m ms = some o) : o ∈ ms ∧ o ≠ m := by
  induction ms with
  | nil => cases h
  | cons m' ms ih =>
    obtain ⟨hnot, hms⟩ := List.nodup_cons.mp hnodup
    rw [lnext] at h
    split at h
    · rename_i heq
      have hmem := List.mem_of_head? h
      refine ⟨List.mem_cons_of_mem _ hmem, fun ho => hnot ?_⟩
      rw [heq, ← ho]
      exact hmem
    · exact ⟨List.mem_cons_of_mem _ (ih hms h).1, (ih hms h).2⟩

theorem Inv.cleanFrom {mo : Option ObjId} (h : s.Inv none) (hd : Disposes d) (hlock : s.moduleLock ≠ 0)
    (hmo : ∀ m, mo = some m → s.Dead m) :
    (ObjGraph.cleanFrom d n mo s).Inv none ∧ Settles s (ObjGraph.cleanFrom d n mo s) := by
  induction n generalizing s mo with
  | zero => exact ⟨h, .refl⟩
  | succ n ih =>
    cases mo with
    | none => exact ⟨h, .refl⟩
    | some m =>
      obtain ⟨hinv, hset, hstay⟩ := h.realDestruct hd hlock (hmo m rfl)
      have hnext : ∀ m', lnext m s.deadmods = some m' → (s.realDestruct d m).Dead m' := by
        intro m' hm'
        obtain ⟨hmem, hne⟩ := lnext_spec h.nodup hm'
        obtain ⟨hmod, hfreed, hzero⟩ := h.dead m' hmem
        refine ⟨by rw [hset.isModule, hmod], ?_, hset.refcount_zero h hinv hzero⟩
        rw [hstay m' hne hmod]
        exact hfreed
      obtain ⟨hinv', hset'⟩ := ih hinv (by rw [hset.moduleLock]; exact hlock) hnext
      exact ⟨hinv', hset.trans hset'⟩

theorem Inv.setLock {k : Nat} (h : s.Inv none) : Inv none { s with moduleLock := k } :=
  ⟨h.exact, h.alive, h.dead, h.nodup, h.kept, h.distinct, h.noneLeft, h.logged,
    fun hX => absurd rfl hX, h.fresh, h.target_lt, h.objects_lt, h.functions⟩

/-- Collection does nothing while it is locked, as it is while a module is destructed. -/
theorem Inv.cleanModules (h : s.Inv X) (hd : Disposes d) :
    (s.cleanModules d n).Inv X ∧ Settles s (s.cleanModules d n) ∧ ModulesStay s (s.cleanModules d n) := by
  unfold ObjGraph.cleanModules
  split
  · exact ⟨h, .refl, fun _ _ _ => rfl⟩
  · rename_i hlock
    have hlock := not_not.mp hlock
    cases X with
    | some m => exact absurd hlock (h.locked (Option.some_ne_none m))
    | none =>
      have hinc : Inv none { s with moduleLock := s.moduleLock + 1 } := h.setLock
      have hdead : ∀ m, s.deadmods.head? = some m →
          Dead { s with moduleLock := s.moduleLock + 1 } m :=
        fun m hm => h.dead m (List.mem_of_head? hm)
      obtain ⟨hinv, hset⟩ := hinc.cleanFrom (n := n) hd (Nat.succ_ne_zero _) hdead
      refine ⟨hinv.setLock, ?_, fun hne => absurd hlock hne⟩
      refine ⟨hset.refs, hset.isModule, hset.objects, hset.refsum, ?_, hset.next⟩
      dsimp only
      rw [hset.moduleLock]
      rfl

/-- A module goes on the list of dead ones. -/
theorem Inv.pushDead (h : s.Inv X) (hmod : s.isModule o) (hzero : s.refcount o = 0)
    (hfreed : s.freed o = false) (hnot : o ∉ s.deadmods) :
    Inv X { s with deadmods := o :: s.deadmods } where
  exact := h.exact
  alive := h.alive
  dead := by
    intro m hm
    rcases List.mem_cons.mp hm with rfl | hm
    · exact ⟨hmod, hfreed, hzero⟩
    · exact h.dead m hm
  nodup := List.nodup_cons.mpr ⟨hnot, h.nodup⟩
  kept := h.kept
  distinct := h.distinct
  noneLeft := h.noneLeft
  logged := h.logged
  locked := h.locked
  fresh := h.fresh
  target_lt := h.target_lt
  objects_lt := h.objects_lt
  functions := h.functions

/-- An object that is not a module is freed. -/
theorem Inv.freeObject (h : s.Inv X) (hmod : s.isModule o = false) (hzero : s.refcount o = 0)
    (hlt : o < s.next) : Inv X { s with freed := Function.update s.freed o true } := by
  have hne : ∀ m, s.isModule m → m ≠ o := by
    intro m hm heq
    rw [heq, hmod] at hm
    cases hm
  refine ⟨h.exact, fun r hr => ?_, fun m hm => ?_, h.nodup, fun m hm hmod' hfreed => ?_, h.distinct,
    fun m hmod' hfreed => ?_, h.logged, h.locked, fun x hx => ?_, h.target_lt, h.objects_lt, h.functions⟩
  · dsimp only
    rw [Function.update_of_ne (h.not_target hzero hr)]
    exact h.alive r hr
  · obtain ⟨hmod', hfreed', hzero'⟩ := h.dead m hm
    refine ⟨hmod', ?_, hzero'⟩
    dsimp only
    rw [Function.update_of_ne (hne m hmod')]
    exact hfreed'
  · change Function.update s.freed o true m = false at hfreed
    rw [Function.update_of_ne (hne m hmod')] at hfreed
    exact h.kept m hm hmod' hfreed
  · change Function.update s.freed o true m = true at hfreed
    rw [Function.update_of_ne (hne m hmod')] at hfreed
    exact h.noneLeft m hmod' hfreed
  · obtain ⟨hmod', hfreed', hobj⟩ := h.fresh x hx
    refine ⟨hmod', ?_, hobj⟩
    dsimp only
    rw [Function.update_of_ne (Nat.ne_of_gt (Nat.lt_of_lt_of_le hlt hx))]
    exact hfreed'

theorem disposes_dispose : Disposes (dispose n) := by
  induction n with
  | zero => exact fun _ _ _ h _ _ _ _ => ⟨h, .refl, fun _ _ _ => rfl⟩
  | succ n ih =>
    intro X s o h hzero hfreed hnot hlt
    rw [dispose, List.erase_of_not_mem hnot]
    dsimp only
    split
    · rename_i hmod
      obtain ⟨hinv, hset, hstay⟩ := (h.pushDead hmod hzero hfreed hnot).cleanModules (n := n) ih
      exact ⟨hinv, ⟨hset.refs, hset.isModule, hset.objects, hset.refsum, hset.moduleLock, hset.next⟩, hstay⟩
    · rename_i hmod
      have hmod := eq_false_of_ne_true hmod
      obtain ⟨hinv, hset, hstay, -⟩ := @Inv.disownAll s X (.object o) (dispose n) s.refs.length ih
        (fun _ _ => id) h
      refine ⟨hinv.freeObject (by rw [hset.isModule]; exact hmod) (hset.refcount_zero h hinv hzero)
        (by rw [hset.next]; exact hlt), ?_, fun hlock m hm => ?_⟩
      · exact ⟨hset.refs, hset.isModule, hset.objects, hset.refsum, hset.moduleLock, hset.next⟩
      · dsimp only
        rw [Function.update_of_ne, hstay hlock m hm]
        intro heq
        rw [heq, hmod] at hm
        cases hm

/-! ## Operations -/

theorem inside_own_le : s.inside m ≤ (s.own h o).inside m := by
  unfold inside ObjGraph.own
  dsimp only
  exact (List.sublist_cons_self ..).countP_le

/-- A reference is taken to what is alive, unless it is a dead module. -/
theorem Inv.own (hinv : s.Inv X) (ho : s.freed o = false) (hlt : o < s.next) (hdead : o ∉ s.deadmods)
    (hleft : ∀ m, s.isModule m → s.freed m → o ≠ m ∧ o ∉ s.objects m) : (s.own h o).Inv X where
  exact := by
    intro x
    have hex := hinv.exact x
    unfold ObjGraph.own
    dsimp only
    rw [List.countP_cons]
    by_cases hx : x = o
    · rw [hx, Function.update_self, if_pos (decide_eq_true rfl)]
      rw [hx] at hex
      omega
    · rw [Function.update_of_ne hx, if_neg (by simpa using Ne.symm hx)]
      omega
  alive := by
    intro r hr
    rcases List.mem_cons.mp hr with rfl | hr
    · exact ho
    · exact hinv.alive r hr
  dead := by
    intro m hm
    obtain ⟨hmod, hfreed, hzero⟩ := hinv.dead m hm
    refine ⟨hmod, hfreed, ?_⟩
    have hne : m ≠ o := fun heq => hdead (heq ▸ hm)
    change Function.update s.refcount o _ m = 0
    rw [Function.update_of_ne hne]
    exact hzero
  nodup := hinv.nodup
  kept := by
    intro m hm hmod hfreed
    have hold := hinv.kept m hm hmod hfreed
    have hle : s.inside m ≤ (s.own h o).inside m := inside_own_le
    change s.refsum m ≤ _
    omega
  distinct := hinv.distinct
  noneLeft := by
    intro m hmod hfreed r hr
    rcases List.mem_cons.mp hr with rfl | hr
    · exact hleft m hmod hfreed
    · exact hinv.noneLeft m hmod hfreed r hr
  logged := hinv.logged
  locked := hinv.locked
  fresh := hinv.fresh
  target_lt := by
    intro r hr
    rcases List.mem_cons.mp hr with rfl | hr
    · exact hlt
    · exact hinv.target_lt r hr
  objects_lt := hinv.objects_lt
  functions := hinv.functions

/-- What has references is alive, and not left over. -/
theorem Inv.own_of_referenced (hinv : s.Inv X) (ho : s.refcount o ≠ 0) : (s.own h o).Inv X := by
  have hex := hinv.exact o
  have hpos : 0 < s.refs.countP fun r => r.target = o := by omega
  obtain ⟨r, hr, heq⟩ := List.countP_pos_iff.mp hpos
  cases of_decide_eq_true heq
  exact hinv.own (hinv.alive r hr) (hinv.target_lt r hr) (fun hm => ho (hinv.dead _ hm).2.2)
    fun m hmod hfreed => hinv.noneLeft m hmod hfreed r hr

theorem Inv.not_dead (h : s.Inv X) (ho : s.next ≤ o) : o ∉ s.deadmods := by
  intro hm
  have hdead := (h.dead _ hm).1
  rw [(h.fresh o ho).1] at hdead
  cases hdead

/-- A new object. -/
theorem Inv.allocated {b : Bool} (h : s.Inv none) : Inv none { s with
    isModule := Function.update s.isModule s.next b
    next := s.next + 1 } := by
  have hmod : ∀ m, m ≠ s.next → Function.update s.isModule s.next b m = s.isModule m :=
    fun m hm => Function.update_of_ne hm ..
  have hfreed := (h.fresh s.next (Nat.le_refl _)).2.1
  refine ⟨h.exact, h.alive, fun m hm => ?_, h.nodup, fun m hm hmod' hfreed' => ?_, h.distinct,
    fun m hmod' hfreed' => ?_, h.logged, fun hX => absurd rfl hX, fun o ho => ?_,
    fun r hr => Nat.lt_succ_of_lt (h.target_lt r hr), fun m o ho => Nat.lt_succ_of_lt (h.objects_lt m o ho),
    fun m o ho => ?_⟩
  · obtain ⟨hmod', hfreed', hzero'⟩ := h.dead m hm
    refine ⟨?_, hfreed', hzero'⟩
    dsimp only
    rw [hmod m fun heq => h.not_dead (Nat.le_of_eq heq.symm) hm]
    exact hmod'
  · by_cases hm' : m = s.next
    · have hrefsum : s.refsum m = 0 := (h.fresh m (Nat.le_of_eq hm'.symm)).2.2.2
      change s.refsum m ≤ _
      omega
    · change Function.update s.isModule s.next b m = true at hmod'
      rw [hmod m hm'] at hmod'
      exact h.kept m hm hmod' hfreed'
  · have hm' : m ≠ s.next := by
      intro heq
      rw [heq] at hfreed'
      exact absurd (hfreed'.symm.trans hfreed) (by decide)
    change Function.update s.isModule s.next b m = true at hmod'
    rw [hmod m hm'] at hmod'
    exact h.noneLeft m hmod' hfreed'
  · obtain ⟨hmod', hrest⟩ := h.fresh o (Nat.le_of_lt ho)
    refine ⟨?_, hrest⟩
    dsimp only
    rw [hmod o (Nat.ne_of_gt ho)]
    exact hmod'
  · dsimp only
    rw [hmod o (Nat.ne_of_lt (h.objects_lt m o ho))]
    exact h.functions m o ho

/-- What is new is not left over from a freed module. -/
theorem Inv.own_fresh (hinv : s.Inv X) (hs : s'.Inv X) (hnext : s'.next = s.next + 1)
    (hdead : s'.deadmods = s.deadmods) (hfreed : s'.freed = s.freed)
    (hobj : ∀ m, s'.freed m → s'.objects m = s.objects m) : (s'.own h s.next).Inv X := by
  have hnew := (hinv.fresh s.next (Nat.le_refl _)).2.1
  refine hs.own (by rw [hfreed]; exact hnew) (by rw [hnext]; exact Nat.lt_succ_self _) (by rw [hdead]; exact hinv.not_dead (Nat.le_refl _))
    fun m _ hm => ⟨fun heq => ?_, fun hmem => ?_⟩
  · rw [← heq, hfreed, hnew] at hm
    cases hm
  · rw [hobj m hm] at hmem
    exact Nat.lt_irrefl _ (hinv.objects_lt m _ hmem)

theorem Inv.alloc {b : Bool} (h : s.Inv none) : (s.alloc b).Inv none :=
  h.own_fresh h.allocated rfl rfl rfl fun _ _ => rfl

/-! ### Compiling -/

/-- A module that is being compiled: only it refers to its functions. -/
structure Compiling (s : ObjGraph) (m : ObjId) : Prop where
  inv : s.Inv none
  isModule : s.isModule m
  freed : s.freed m = false
  own : ∀ r ∈ s.refs, r.target ∈ s.objects m → r.holder.InModule m

theorem Compiling.declared (h : s.Compiling m) : Inv none { s with
    objects := Function.update s.objects m (s.objects m ++ [s.next])
    next := s.next + 1 } := by
  have hinv := h.inv
  have hother : ∀ m', m' ≠ m →
      Function.update s.objects m (s.objects m ++ [s.next]) m' = s.objects m' :=
    fun m' hm' => Function.update_of_ne hm' ..
  have hlt : m < s.next := by
    by_contra hge
    have hmod := h.isModule
    rw [(hinv.fresh m (Nat.le_of_not_lt hge)).1] at hmod
    cases hmod
  refine ⟨hinv.exact, hinv.alive, hinv.dead, hinv.nodup, fun m' hm' hmod hfreed => ?_, fun m' => ?_,
    fun m' hmod hfreed r hr => ?_, hinv.logged, fun hX => absurd rfl hX, fun o ho => ?_,
    fun r hr => Nat.lt_succ_of_lt (hinv.target_lt r hr), fun m' o ho => ?_, fun m' o ho => ?_⟩
  · have hold := hinv.kept m' hm' hmod hfreed
    refine Int.le_trans hold (Int.ofNat_le.mpr (List.countP_mono_left fun r _ hin => ?_))
    have hin := of_decide_eq_true hin
    refine decide_eq_true ⟨hin.1, ?_⟩
    dsimp only
    by_cases heq : m' = m
    · rw [heq, Function.update_self]
      exact List.mem_append_left _ (heq ▸ hin.2)
    · rw [hother m' heq]
      exact hin.2
  · dsimp only
    by_cases heq : m' = m
    · rw [heq, Function.update_self]
      refine List.nodup_append.mpr ⟨hinv.distinct m, List.nodup_cons.mpr ⟨List.not_mem_nil, List.nodup_nil⟩, fun a ha b hb heq => ?_⟩
      cases List.mem_singleton.mp hb
      exact Nat.ne_of_lt (hinv.objects_lt m a ha) heq
    · rw [hother m' heq]
      exact hinv.distinct m'
  · have hne : m' ≠ m := by
      intro heq
      rw [heq] at hfreed
      exact absurd (hfreed.symm.trans h.freed) (by decide)
    dsimp only
    rw [hother m' hne]
    exact hinv.noneLeft m' hmod hfreed r hr
  · obtain ⟨hmod, hfreed, hobj, hsum⟩ := hinv.fresh o (Nat.le_of_lt ho)
    refine ⟨hmod, hfreed, ?_, hsum⟩
    dsimp only
    rw [hother o (Nat.ne_of_gt (Nat.lt_trans hlt ho))]
    exact hobj
  · change o ∈ Function.update s.objects m (s.objects m ++ [s.next]) m' at ho
    by_cases heq : m' = m
    · rw [heq, Function.update_self] at ho
      rcases List.mem_append.mp ho with ho | ho
      · exact Nat.lt_succ_of_lt (hinv.objects_lt m o ho)
      · cases List.mem_singleton.mp ho
        exact Nat.lt_succ_self _
    · rw [hother m' heq] at ho
      exact Nat.lt_succ_of_lt (hinv.objects_lt m' o ho)
  · change o ∈ Function.update s.objects m (s.objects m ++ [s.next]) m' at ho
    by_cases heq : m' = m
    · rw [heq, Function.update_self] at ho
      rcases List.mem_append.mp ho with ho | ho
      · exact hinv.functions m o ho
      · cases List.mem_singleton.mp ho
        exact (hinv.fresh s.next (Nat.le_refl _)).1
    · rw [hother m' heq] at ho
      exact hinv.functions m' o ho

theorem Compiling.declareFunc {e : Bool} (h : s.Compiling m) : (s.declareFunc m e).Compiling m := by
  have hdecl := h.declared
  have hobj : ∀ m', s.freed m' →
      Function.update s.objects m (s.objects m ++ [s.next]) m' = s.objects m' := by
    intro m' hm'
    refine Function.update_of_ne (fun heq => ?_) ..
    rw [heq, h.freed] at hm'
    cases hm'
  have hlist : Compiling (ObjGraph.own { s with
      objects := Function.update s.objects m (s.objects m ++ [s.next])
      next := s.next + 1 } (.part m .objects) s.next) m := by
    refine ⟨h.inv.own_fresh hdecl rfl rfl rfl hobj, h.isModule, h.freed, fun r hr hin => ?_⟩
    rcases List.mem_cons.mp hr with rfl | hr
    · exact rfl
    · refine h.own r hr ?_
      change r.target ∈ Function.update s.objects m (s.objects m ++ [s.next]) m at hin
      rw [Function.update_self] at hin
      rcases List.mem_append.mp hin with hin | hin
      · exact hin
      · exact absurd (List.mem_singleton.mp hin) (Nat.ne_of_lt (h.inv.target_lt r hr))
  unfold ObjGraph.declareFunc
  dsimp only
  split
  · refine ⟨hlist.inv.own_of_referenced ?_, hlist.isModule, hlist.freed, fun r hr hin => ?_⟩
    · have hex := hlist.inv.exact s.next
      rw [hex]
      unfold ObjGraph.own
      dsimp only
      rw [List.countP_cons, if_pos (decide_eq_true rfl)]
      omega
    · rcases List.mem_cons.mp hr with rfl | hr
      · exact rfl
      · exact hlist.own r hr hin
  · exact hlist

theorem Compiling.foldl {es : List Bool} (h : s.Compiling m) :
    (es.foldl (fun s e => s.declareFunc m e) s).Compiling m := by
  induction es generalizing s with
  | nil => exact h
  | cons e es ih => exact ih h.declareFunc

theorem Compiling.outside_eq_zero (h : s.Compiling m) : s.outside m = 0 := by
  refine List.countP_eq_zero.mpr fun r hr hout => ?_
  have hout := of_decide_eq_true hout
  exact hout.1 (h.own r hr hout.2)

/-- The sum that is recorded is that of the references the module has itself. -/
theorem Inv.compile {es : List Bool} (h : s.Compiling m) : (s.compile m es).Inv none := by
  have hcomp := @Compiling.foldl s m es h
  unfold ObjGraph.compile
  dsimp only
  generalize es.foldl (fun s e => s.declareFunc m e) s = s' at hcomp
  have hinv := hcomp.inv
  have hsum : s'.moduleCountref m = s'.inside m := by
    rw [moduleCountref_eq hinv.exact (hinv.distinct m), countP_objects, hcomp.outside_eq_zero]
    rfl
  refine ⟨hinv.exact, hinv.alive, hinv.dead, hinv.nodup, fun m' hm' hmod hfreed => ?_, hinv.distinct,
    hinv.noneLeft, hinv.logged, fun hX => absurd rfl hX, fun o ho => ?_, hinv.target_lt, hinv.objects_lt,
    hinv.functions⟩
  · dsimp only
    by_cases heq : m' = m
    · rw [heq, Function.update_self, hsum]
      exact Int.le_refl _
    · rw [Function.update_of_ne heq]
      exact hinv.kept m' hm' hmod hfreed
  · obtain ⟨hmod, hfreed, hobj, hsum'⟩ := hinv.fresh o ho
    refine ⟨hmod, hfreed, hobj, ?_⟩
    have hne : o ≠ m := by
      intro heq
      rw [heq, hcomp.isModule] at hmod
      cases hmod
    dsimp only
    rw [Function.update_of_ne hne]
    exact hsum'

/-! ### Runs -/

theorem Inv.getLoadedModule (h : s.Inv none) (hmod : s.isModule m) (hfreed : s.freed m = false) :
    (ObjGraph.own (if s.refcount m = 0 then { s with deadmods := s.deadmods.erase m } else s)
      .host m).Inv none := by
  split
  · have herase : Inv none { s with deadmods := s.deadmods.erase m } :=
      ⟨h.exact, h.alive, fun m' hm' => h.dead m' (List.mem_of_mem_erase hm'), h.nodup.erase m, h.kept,
        h.distinct, h.noneLeft, h.logged, h.locked, h.fresh, h.target_lt, h.objects_lt, h.functions⟩
    refine herase.own hfreed ?_ (h.nodup.not_mem_erase) fun m' hmod' hfreed' => ⟨fun heq => ?_, fun hobj => ?_⟩
    · by_contra hge
      rw [(h.fresh m (Nat.le_of_not_lt hge)).1] at hmod
      cases hmod
    · rw [← heq] at hfreed'
      exact absurd (hfreed'.symm.trans hfreed) (by decide)
    · have hnot := h.functions m' m hobj
      rw [hmod] at hnot
      cases hnot
  · rename_i hne
    exact h.own_of_referenced hne

theorem inv_start : start.Inv none := by
  refine ⟨fun _ => rfl, fun _ hr => ?_, fun _ hm => ?_, List.nodup_nil, fun _ _ hm => ?_,
    fun _ => List.nodup_nil, fun _ hm => ?_, fun _ hc => ?_, fun hX => absurd rfl hX,
    fun _ _ => ⟨rfl, rfl, rfl, rfl⟩, fun _ hr => ?_, fun _ _ ho => ?_, fun _ _ ho => ?_⟩
  · cases hr
  · cases hm
  · cases hm
  · cases hm
  · cases hc
  · cases hr
  · cases ho
  · cases ho

theorem Inv.step {op : RefOp} (h : s.Inv none) (hop : s.Possible op ∧ s.Keeps op) :
    (s.step n op).2.Inv none := by
  obtain ⟨hpos, hkeeps⟩ := hop
  cases op with
  | own h' o =>
    rcases hpos with hne | hdead
    · exact h.own_of_referenced hne
    · exact absurd hdead hkeeps
  | disown r => exact (h.disown disposes_dispose hpos fun m _ => hkeeps m).1
  | alloc => exact h.alloc
  | construct => exact (h.cleanModules disposes_dispose).1.alloc
  | compile m es =>
    obtain ⟨hmod, hne, hobj⟩ := hpos
    have hex := h.exact m
    have hcount : 0 < s.refs.countP fun r => r.target = m := by omega
    obtain ⟨r, hr, heq⟩ := List.countP_pos_iff.mp hcount
    cases of_decide_eq_true heq
    refine Inv.compile ⟨h, hmod, h.alive r hr, fun r' _ hin => ?_⟩
    rw [hobj] at hin
    cases hin
  | getLoadedModule m => exact h.getLoadedModule hpos.1 hpos.2
  | lockModules => exact h.setLock
  | unlockModules => exact (h.setLock.cleanModules disposes_dispose).1
  | cleanModules => exact (h.cleanModules disposes_dispose).1

/-- Collected modules are not referenced from outside, and nothing refers to what was freed, if
no step takes away what a module had when it was compiled. -/
theorem run_collects {ops : List RefOp}
    (h : Machine.Along (step n) (fun s op => s.Possible op ∧ s.Keeps op) start ops) :
    (Machine.run (step n) start ops).2.NoneLeft ∧
      ∀ c ∈ (Machine.run (step n) start ops).2.log, c.Unreferenced := by
  have hinv : (Machine.run (step n) start ops).2.Inv none :=
    Machine.run_inv (fun _ _ => Inv.step) inv_start h
  exact ⟨hinv.noneLeft, hinv.logged⟩

/-- A function is held for a while, and its module is collected when the host drops it. -/
theorem run_collects_once :
    (Machine.run (step 9) start [.construct, .compile 0 [true, false], .own .host 1, .disown ⟨.host, 1⟩,
        .disown ⟨.host, 0⟩]).2.NoneLeft ∧
      ∀ c ∈ (Machine.run (step 9) start [.construct, .compile 0 [true, false], .own .host 1,
        .disown ⟨.host, 1⟩, .disown ⟨.host, 0⟩]).2.log, c.Unreferenced := by
  refine run_collects ⟨⟨trivial, trivial⟩, ⟨?_, trivial⟩, ⟨?_, List.not_mem_nil⟩,
    ⟨?_, fun _ hin => hin.elim⟩, ⟨?_, fun _ hin => hin.elim⟩, trivial⟩ <;> decide

/-- The host takes a function, removes it from the exports and drops the module. -/
theorem not_noneLeft_export :
    Machine.Along (step 9) Possible start [.construct, .compile 0 [true], .own .host 1,
        .disown ⟨.part 0 .exports, 1⟩, .disown ⟨.host, 0⟩] ∧
      ¬ (Machine.run (step 9) start [.construct, .compile 0 [true], .own .host 1,
        .disown ⟨.part 0 .exports, 1⟩, .disown ⟨.host, 0⟩]).2.NoneLeft := by
  refine ⟨⟨trivial, ?_, ?_, ?_, ?_, trivial⟩, fun hnone => ?_⟩
  · decide
  · decide
  · decide
  · decide
  · exact (hnone 0 (by decide) (by decide) ⟨.host, 1⟩ (by decide)).2 (by decide)

/-- The host gets a dead module from a function, and drops the function. -/
theorem not_noneLeft_getindex :
    Machine.Along (step 9) Possible start [.construct, .compile 0 [true], .own .host 1,
        .disown ⟨.host, 0⟩, .own .host 0, .disown ⟨.host, 1⟩, .cleanModules] ∧
      ¬ (Machine.run (step 9) start [.construct, .compile 0 [true], .own .host 1,
        .disown ⟨.host, 0⟩, .own .host 0, .disown ⟨.host, 1⟩, .cleanModules]).2.NoneLeft := by
  refine ⟨⟨trivial, ?_, ?_, ?_, ?_, ?_, trivial, trivial⟩, fun hnone => ?_⟩
  · decide
  · decide
  · decide
  · decide
  · decide
  · exact (hnone 0 (by decide) (by decide) ⟨.host, 0⟩ (by decide)).1 rfl

end ObjGraph

end Eel
