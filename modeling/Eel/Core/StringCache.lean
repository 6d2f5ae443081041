-- SUMMARY: The string cache over all runs, with requests that may find no memory: which strings it has, how many, and which one is spilled.
import Eel.Core.StringPoolRun
import Mathlib.Data.List.Nodup

/-!
# The string cache

A request for a string that is not in the pool allocates an object and a buffer. Without
the buffer it gives the object up again, as if it were a string of the pool.
-/

namespace Eel.StringPool

/-- How the allocations of a request come out. -/
inductive Alloc where
  | both
  | noObject
  /-- There is an object, with what was in its memory before. -/
  | noBuffer (length : Nat) (hash : Hash)

/-- `eel_ps_nnew`. -/
def nnew? (p : StringPool) (s : List Byte) (m : Alloc) : Option ObjId × StringPool :=
  match p.find s with
  | some pso => (some pso, p.resurrect pso)
  | none =>
    match m with
    | .both => (some p.next, p.create (s ++ [0]) s.length (hashMem s))
    | .noObject => (none, p)
    | .noBuffer length hash =>
      let pso := p.next
      (none, { p with object := Function.update p.object pso (some ⟨[], length, hash, 1⟩), next := p.next + 1 }.disown
        pso)

/-- `eel_ps_nnew_grab`, whose buffer is there already. -/
def nnewGrab? (p : StringPool) (s : List Byte) (object : Bool) : Option ObjId × StringPool :=
  p.nnew? s (if object then .both else .noObject)

/-- What the loop of `ps_uncache` does with a string. -/
def drop (p : StringPool) (ps : ObjId) : StringPool :=
  { p with scache := p.scache.erase ps, scacheSize := p.scacheSize - 1 }.reallyDestruct ps

/-- `ps_uncache`. -/
def uncache (p : StringPool) : StringPool := p.scache.foldl drop p

/-! ## Runs -/

inductive CacheOp where
  | nnew (s : List Byte) (m : Alloc)
  | nnewGrab (s : List Byte) (object : Bool)
  | own (pso : ObjId)
  | disown (pso : ObjId)
  | uncache

/-- One operation. Only who owns a string passes ownership on or gives it up. -/
def cacheStep (p : StringPool) : CacheOp → Option ObjId × StringPool
  | .nnew s m => p.nnew? s m
  | .nnewGrab s object => p.nnewGrab? s object
  | .own pso => (none, if p.refcount pso = 0 then p else p.own pso)
  | .disown pso => (none, if p.refcount pso = 0 then p else p.disown pso)
  | .uncache => (none, p.uncache)

/-- A pool, and a clock that tells since when strings have been in the cache. -/
structure Clocked where
  pool : StringPool
  now : Nat
  since : ObjId → Nat

namespace Clocked

def «open» : Clocked := ⟨StringPool.open, 0, fun _ => 0⟩

def step (c : Clocked) (op : CacheOp) : Option ObjId × Clocked :=
  let r := c.pool.cacheStep op
  (r.1, ⟨r.2, c.now + 1, fun o => if o ∈ r.2.scache ∧ o ∉ c.pool.scache then c.now else c.since o⟩)

end Clocked

/-! ## What the cache is to be -/

/-- Each string is in one bucket, that of its hash code, and the cache has those without owners. -/
structure Tidy (p : StringPool) : Prop where
  bucket : ∀ o ps b, p.object o = some ps → (p.strings b).count o = if b = bucket ps.hash then 1 else 0
  live : ∀ b, ∀ o ∈ p.strings b, ∃ ps, p.object o = some ps
  mem_scache : ∀ o, o ∈ p.scache ↔ ∃ ps, p.object o = some ps ∧ ps.refcount = 0
  nodup : p.scache.Nodup
  size_eq : p.scacheSize = p.scache.length
  size_le : p.scacheSize ≤ p.scacheMax + 1

/-- Giving up ownership destroys no string, or the one that has been in the cache longest. -/
def SpillsOldest (c : Clocked) (pso : ObjId) : Prop :=
  let p' := (c.step (.disown pso)).2.pool
  (∀ o, p'.object o = none ↔ c.pool.object o = none) ∨
    ∃ oldest ∈ c.pool.scache, (∀ o ∈ c.pool.scache, o ≠ oldest → c.since oldest < c.since o) ∧
      ∀ o, p'.object o = none ↔ o = oldest ∨ c.pool.object o = none

/-- A request that finds a string in the cache takes it from there and returns it with one owner. -/
def Resurrects (p : StringPool) : Prop :=
  ∀ s o, p.find s = some o → o ∈ p.scache → ∀ op, (op = .nnewGrab s true ∨ ∃ m, op = .nnew s m) →
    let r := p.cacheStep op
    r.1 = some o ∧ r.2.scache = p.scache.erase o ∧ o ∉ r.2.scache ∧ r.2.refcount o = 1

/-- A request has memory for the buffer of a string that it makes. -/
def HasBuffer (c : Clocked) : CacheOp → Prop
  | .nnew s (.noBuffer ..) => c.pool.find s ≠ none
  | _ => True

variable {p : StringPool} {o last : ObjId} {s : List Byte}

/-! ## Giving up ownership -/

theorem modify_isNone (f : StringObj → StringObj) (o' : ObjId) :
    (p.modify o f).object o' = none ↔ p.object o' = none := by
  rw [modify_object]
  split
  · exact Option.map_eq_none_iff
  · rfl

theorem cache_spill (hsize : p.scacheSize > p.scacheMax) (hlast : (o :: p.scache).getLast? = some last) :
    (p.cache o).scache = (o :: p.scache).erase last ∧ (p.cache o).scacheSize = p.scacheSize ∧
      (p.cache o).scacheMax = p.scacheMax ∧ ∀ o', (p.cache o).object o' = none ↔ o' = last ∨ p.object o' = none := by
  unfold cache
  dsimp only
  rw [if_pos hsize, hlast]
  dsimp only
  refine ⟨reallyDestruct_scache.1, reallyDestruct_scache.2, ?_, fun o' => ?_⟩
  · unfold reallyDestruct
    split <;> rfl
  · rw [reallyDestruct_object]
    split
    · exact iff_of_true rfl (.inl ‹_›)
    · exact (or_iff_right ‹_›).symm

theorem cache_keep (hsize : ¬ p.scacheSize > p.scacheMax) :
    p.cache o = { p with scache := o :: p.scache, scacheSize := p.scacheSize + 1 } := if_neg hsize

/-- What giving up ownership does to the cache: nothing, or the string joins it, and the oldest one may
have to leave. -/
inductive Disowned (p : StringPool) (o : ObjId) (p' : StringPool) : Prop where
  | owned (cache : p'.scache = p.scache) (size : p'.scacheSize = p.scacheSize)
      (object : ∀ o', p'.object o' = none ↔ p.object o' = none)
  | kept (room : p.scacheSize ≤ p.scacheMax) (cache : p'.scache = o :: p.scache)
      (size : p'.scacheSize = p.scacheSize + 1) (object : ∀ o', p'.object o' = none ↔ p.object o' = none)
  | spilled (full : p.scacheMax < p.scacheSize) (last : ObjId) (oldest : (o :: p.scache).getLast? = some last)
      (cache : p'.scache = (o :: p.scache).erase last) (size : p'.scacheSize = p.scacheSize)
      (object : ∀ o', p'.object o' = none ↔ o' = last ∨ p.object o' = none)

theorem disown_cases (p : StringPool) (o : ObjId) :
    Disowned p o (p.disown o) ∧ (p.disown o).scacheMax = p.scacheMax := by
  have hnone := modify_isNone (p := p) (o := o) fun ps => { ps with refcount := ps.refcount - 1 }
  unfold disown
  dsimp only
  split
  · rcases Int.lt_or_le p.scacheMax p.scacheSize with hfull | hroom
    · obtain ⟨last, hlast⟩ : ∃ last, (o :: p.scache).getLast? = some last :=
        ⟨_, List.getLast?_eq_getLast_of_ne_nil (List.cons_ne_nil _ _)⟩
      obtain ⟨hcache, hsize, hmax, hobject⟩ :=
        cache_spill (p := p.modify o fun ps => { ps with refcount := ps.refcount - 1 }) hfull hlast
      exact ⟨.spilled hfull last hlast hcache hsize fun o' => (hobject o').trans (or_congr_right (hnone o')), hmax⟩
    · rw [cache_keep (p := p.modify o fun ps => { ps with refcount := ps.refcount - 1 }) (Int.not_lt.mpr hroom)]
      exact ⟨.kept hroom rfl rfl hnone, rfl⟩
  · exact ⟨.owned rfl rfl hnone, rfl⟩

/-! ## Other operations -/

/-- The invariant is kept, and no string joins the cache. -/
structure Quiet (p p' : StringPool) : Prop where
  inv : p'.Inv
  cache : p'.scache.Sublist p.scache
  size : p'.scacheSize ≤ p.scacheSize
  max : p'.scacheMax = p.scacheMax

theorem Quiet.refl (h : p.Inv) : Quiet p p := ⟨h, .refl _, Int.le_refl _, rfl⟩

theorem Quiet.trans {p' p'' : StringPool} (h : Quiet p p') (h' : Quiet p' p'') : Quiet p p'' :=
  ⟨h'.inv, h'.cache.trans h.cache, Int.le_trans h'.size h.size, h'.max.trans h.max⟩

theorem Quiet.resurrect (h : p.Inv) {ps : StringObj} (hps : p.object o = some ps) : Quiet p (p.resurrect o) := by
  refine ⟨h.resurrect hps, ?_, ?_, ?_⟩ <;> unfold StringPool.resurrect <;> split
  · exact List.erase_sublist
  · exact .refl _
  · exact Int.sub_le_self _ (by decide)
  · exact Int.le_refl _
  · rfl
  · rfl

theorem Quiet.nnew (h : p.Inv) (s : List Byte) : Quiet p (p.nnew s).2 := by
  have hinv := h.nnew s
  unfold StringPool.nnew at hinv ⊢
  cases hf : p.find s with
  | none =>
    rw [hf] at hinv
    exact ⟨hinv, .refl _, Int.le_refl _, rfl⟩
  | some o =>
    obtain ⟨ps, hps, -⟩ := h.pooled.find_some hf
    exact .resurrect h hps

/-- With a buffer, or without the object, a request is one that has memory, or nothing. -/
theorem nnew?_cases {m : Alloc} (h : (∀ length hash, m ≠ .noBuffer length hash) ∨ p.find s ≠ none) :
    p.nnew? s m = (some (p.nnew s).1, (p.nnew s).2) ∨ p.nnew? s m = (none, p) := by
  unfold nnew? StringPool.nnew
  cases hf : p.find s with
  | some o => exact .inl rfl
  | none =>
    cases m with
    | both => exact .inl rfl
    | noObject => exact .inr rfl
    | noBuffer length hash => exact absurd rfl (h.resolve_right (not_not.mpr hf) length hash)

theorem Quiet.nnew? {m : Alloc} (h : p.Inv) (hm : (∀ length hash, m ≠ .noBuffer length hash) ∨ p.find s ≠ none) :
    Quiet p (p.nnew? s m).2 := by
  rcases nnew?_cases hm with heq | heq <;> rw [heq]
  · exact .nnew h s
  · exact .refl h

theorem drop_scache : (p.drop o).scache = p.scache.erase o := reallyDestruct_scache.1

/-- A string that nobody owns can be dropped. -/
theorem Quiet.drop (h : p.Inv) (ho : o ∈ p.scache) : Quiet p (p.drop o) := by
  have hpool : Pooled { p with scache := p.scache.erase o, scacheSize := p.scacheSize - 1 } :=
    ⟨h.pooled.mem_bucket, h.pooled.bucket_nodup, h.pooled.wf, h.pooled.distinct, h.pooled.fresh⟩
  have hsize : (p.drop o).scacheSize = p.scacheSize - 1 := reallyDestruct_scache.2
  refine ⟨⟨hpool.reallyDestruct o, fun o' => ?_, ?_, ?_⟩, ?_, ?_, ?_⟩
  · rw [drop_scache, h.cached.nodup.mem_erase_iff, h.cached.mem_scache, StringPool.drop, reallyDestruct_object]
    split
    · exact iff_of_false (fun hmem => hmem.1 ‹_›) (fun ⟨_, hnone, _⟩ => nomatch hnone)
    · exact and_iff_right ‹_›
  · rw [drop_scache]
    exact h.cached.nodup.erase o
  · have hpos := List.length_pos_of_mem ho
    rw [hsize, drop_scache, List.length_erase_of_mem ho, h.cached.size_eq]
    omega
  · rw [drop_scache]
    exact List.erase_sublist
  · rw [hsize]
    exact Int.sub_le_self _ (by decide)
  · unfold StringPool.drop reallyDestruct
    split <;> rfl

theorem Quiet.uncache (h : p.Inv) : Quiet p p.uncache ∧ p.uncache.scache = [] := by
  unfold StringPool.uncache
  obtain ⟨l, hl⟩ : ∃ l, p.scache = l := ⟨_, rfl⟩
  rw [hl]
  -- by induction on what is still on the list
  induction l generalizing p with
  | nil => exact ⟨.refl h, hl⟩
  | cons o l ih =>
    have hdrop : Quiet p (p.drop o) := .drop h (hl ▸ List.mem_cons_self)
    have hrest : (p.drop o).scache = l := by
      rw [drop_scache, hl, List.erase_cons_head]
    obtain ⟨hquiet, hnil⟩ := ih hdrop.inv hrest
    exact ⟨hdrop.trans hquiet, hnil⟩

/-! ## All runs -/

namespace Clocked

variable {c : Clocked} {op : CacheOp} {pso : ObjId}

/-- What every run with memory keeps. The cache is in the order of the clock. -/
structure Good (c : Clocked) : Prop where
  inv : c.pool.Inv
  max : c.pool.scacheMax = defaultStringCache
  size_le : c.pool.scacheSize ≤ c.pool.scacheMax + 1
  sorted : c.pool.scache.Pairwise fun a b => c.since b < c.since a
  past : ∀ o ∈ c.pool.scache, c.since o < c.now

theorem Good.open : Good «open» := ⟨.open, rfl, by decide, .nil, nofun⟩

/-- The step of an operation, for what it does to the pool. -/
def tick (c : Clocked) (p' : StringPool) : Clocked :=
  ⟨p', c.now + 1, fun o => if o ∈ p'.scache ∧ o ∉ c.pool.scache then c.now else c.since o⟩

theorem since_tick_of_mem {p' : StringPool} {o : ObjId} (h : o ∈ c.pool.scache) : (c.tick p').since o = c.since o :=
  if_neg fun hnew => hnew.2 h

theorem Good.quiet {p' : StringPool} (h : c.Good) (hq : Quiet c.pool p') : (c.tick p').Good where
  inv := hq.inv
  max := hq.max.trans h.max
  size_le := by
    have hsize := hq.size
    have hle := h.size_le
    have hmax := hq.max
    show p'.scacheSize ≤ p'.scacheMax + 1
    omega
  sorted := by
    refine (h.sorted.sublist hq.cache).imp_of_mem fun ha hb hlt => ?_
    rw [since_tick_of_mem (hq.cache.subset ha), since_tick_of_mem (hq.cache.subset hb)]
    exact hlt
  past o ho := by
    rw [since_tick_of_mem (hq.cache.subset ho)]
    exact Nat.lt_succ_of_lt (h.past o (hq.cache.subset ho))

/-- A string joins the cache. -/
theorem Good.join {p' : StringPool} {rest : List ObjId} (h : c.Good) (hinv : p'.Inv) (hmax : p'.scacheMax = c.pool.scacheMax)
    (hsize : p'.scacheSize ≤ c.pool.scacheMax + 1) (hcache : p'.scache = pso :: rest)
    (hrest : rest.Sublist c.pool.scache) (hnew : pso ∉ c.pool.scache) : (c.tick p').Good := by
  have hsince : (c.tick p').since pso = c.now := if_pos ⟨by rw [hcache]; exact List.mem_cons_self, hnew⟩
  refine ⟨hinv, hmax.trans h.max, by rw [← hmax] at hsize; exact hsize, ?_, fun o ho => ?_⟩
  · show p'.scache.Pairwise _
    rw [hcache, List.pairwise_cons]
    refine ⟨fun o ho => ?_, (h.sorted.sublist hrest).imp_of_mem fun ha hb hlt => ?_⟩
    · rw [since_tick_of_mem (hrest.subset ho), hsince]
      exact h.past o (hrest.subset ho)
    · rw [since_tick_of_mem (hrest.subset ha), since_tick_of_mem (hrest.subset hb)]
      exact hlt
  · have ho : o ∈ pso :: rest := hcache ▸ ho
    rcases List.mem_cons.mp ho with rfl | ho
    · rw [hsince]
      exact Nat.lt_succ_self _
    · rw [since_tick_of_mem (hrest.subset ho)]
      exact Nat.lt_succ_of_lt (h.past o (hrest.subset ho))

/-- The last string of the cache is the one that has been there longest. -/
theorem Good.oldest (h : c.Good) {last : ObjId} (hlast : c.pool.scache.getLast? = some last) :
    last ∈ c.pool.scache ∧ ∀ o ∈ c.pool.scache, o ≠ last → c.since last < c.since o := by
  refine ⟨List.mem_of_getLast? hlast, fun o ho hne => ?_⟩
  have hsplit := List.dropLast_append_getLast? last hlast
  have hsorted := h.sorted
  rw [← hsplit] at hsorted ho
  rcases List.mem_append.mp ho with ho | ho
  · exact (List.pairwise_append.mp hsorted).2.2 o ho last List.mem_cons_self
  · exact absurd (List.mem_singleton.mp ho) hne

theorem Good.not_mem (h : c.Good) (ho : c.pool.refcount pso ≠ 0) : pso ∉ c.pool.scache := by
  rw [h.inv.cached.mem_scache]
  rintro ⟨ps, hps, hzero⟩
  exact ho ((refcount_eq hps).trans hzero)

/-- A full cache has other strings than the one that joins it. -/
theorem Good.getLast_of_full (h : c.Good) (hfull : c.pool.scacheMax < c.pool.scacheSize) {last : ObjId}
    (hlast : (pso :: c.pool.scache).getLast? = some last) : c.pool.scache.getLast? = some last := by
  have hmax : c.pool.scacheMax = 100 := h.max
  have hlen := h.inv.cached.size_eq
  cases hcache : c.pool.scache with
  | nil =>
    rw [hcache, List.length_nil] at hlen
    omega
  | cons o rest =>
    rw [hcache] at hlast
    exact hlast

theorem Good.disown (h : c.Good) (ho : c.pool.refcount pso ≠ 0) : (c.tick (c.pool.disown pso)).Good := by
  have hinv := h.inv.disown ho
  have hnew := h.not_mem ho
  obtain ⟨hcases, hmax⟩ := disown_cases c.pool pso
  cases hcases with
  | owned hcache hsize => exact h.quiet ⟨hinv, hcache ▸ .refl _, Int.le_of_eq hsize, hmax⟩
  | kept hroom hcache hsize => exact h.join hinv hmax (by omega) hcache (.refl _) hnew
  | spilled hfull last hlast hcache hsize =>
    have hmem := (h.oldest (h.getLast_of_full hfull hlast)).1
    have hne : ¬ (pso == last) = true := fun heq => hnew (beq_iff_eq.mp heq ▸ hmem)
    rw [List.erase_cons_tail hne] at hcache
    exact h.join hinv hmax (hsize ▸ h.size_le) hcache List.erase_sublist hnew

theorem Good.step (h : c.Good) (hop : HasBuffer c op) : (c.step op).2.Good := by
  cases op with
  | nnew s m =>
    refine h.quiet (.nnew? h.inv ?_)
    cases m with
    | noBuffer length hash => exact .inr hop
    | both => exact .inl nofun
    | noObject => exact .inl nofun
  | nnewGrab s object =>
    refine h.quiet (.nnew? h.inv (.inl ?_))
    cases object <;> exact nofun
  | own o =>
    refine h.quiet ?_
    show Quiet c.pool (if c.pool.refcount o = 0 then c.pool else c.pool.own o)
    split
    · exact .refl h.inv
    · exact ⟨h.inv.own ‹_›, .refl _, Int.le_refl _, rfl⟩
  | disown o =>
    show (c.tick (if c.pool.refcount o = 0 then c.pool else c.pool.disown o)).Good
    split
    · exact h.quiet (.refl h.inv)
    · exact h.disown ‹_›
  | uncache => exact h.quiet (Quiet.uncache h.inv).1

theorem Good.spillsOldest (h : c.Good) (pso : ObjId) : SpillsOldest c pso := by
  have hpool : (c.step (.disown pso)).2.pool = if c.pool.refcount pso = 0 then c.pool else c.pool.disown pso := rfl
  unfold SpillsOldest
  rw [hpool]
  split
  · exact .inl fun o => Iff.rfl
  · obtain ⟨hcases, -⟩ := disown_cases c.pool pso
    cases hcases with
    | owned _ _ hobject => exact .inl hobject
    | kept _ _ _ hobject => exact .inl hobject
    | spilled hfull last hlast _ _ hobject =>
      obtain ⟨hmem, hold⟩ := h.oldest (h.getLast_of_full hfull hlast)
      exact .inr ⟨last, hmem, hold, hobject⟩

end Clocked

theorem Inv.tidy (h : p.Inv) (hsize : p.scacheSize ≤ p.scacheMax + 1) : Tidy p where
  bucket o ps b hps := by
    have hmem := h.pooled.mem_bucket b o
    split
    · rename_i hb
      exact List.count_eq_one_of_mem (h.pooled.bucket_nodup b) (hmem.mpr ⟨ps, hps, hb.symm⟩)
    · rename_i hb
      refine List.count_eq_zero.mpr fun ho => ?_
      obtain ⟨ps', hps', hb'⟩ := hmem.mp ho
      rw [hps] at hps'
      obtain rfl := Option.some.inj hps'
      exact hb hb'.symm
  live b o ho := by
    obtain ⟨ps, hps, -⟩ := (h.pooled.mem_bucket b o).mp ho
    exact ⟨ps, hps⟩
  mem_scache := h.cached.mem_scache
  nodup := h.cached.nodup
  size_eq := h.cached.size_eq
  size_le := hsize

theorem Inv.resurrects (h : p.Inv) : Resurrects p := by
  intro s o hf ho op hop
  obtain ⟨ps, hps, hzero⟩ := (h.cached.mem_scache o).mp ho
  have hfound : ∀ m, p.nnew? s m = (some o, p.resurrect o) := by
    intro m
    unfold nnew?
    rw [hf]
  have hstep : p.cacheStep op = (some o, p.resurrect o) := by
    rcases hop with rfl | ⟨m, rfl⟩
    · exact hfound .both
    · exact hfound m
  have hcount : (p.resurrect o).refcount o = 1 := by
    rw [refcount_eq (resurrect_object hps), hzero]
  have hcache : (p.resurrect o).scache = p.scache.erase o := by
    unfold StringPool.resurrect
    rw [if_pos ((refcount_eq hps).trans hzero)]
    rfl
  intro r
  have hr : r = (some o, p.resurrect o) := hstep
  rw [hr, hcache]
  exact ⟨rfl, rfl, h.cached.nodup.not_mem_erase, hcount⟩

/-- In every state that operations with memory for their buffers lead to, the strings are in their
buckets, the cache has those without owners, spills the oldest one alone, and gives up what is found. -/
theorem run_tidy (ops : List CacheOp) (h : Machine.Along Clocked.step HasBuffer Clocked.open ops) :
    let c := (Machine.run Clocked.step Clocked.open ops).2
    Tidy c.pool ∧ (∀ pso, SpillsOldest c pso) ∧ Resurrects c.pool := by
  have hgood := Machine.run_inv (fun _ _ hc hop => Clocked.Good.step hc hop) Clocked.Good.open h
  exact ⟨hgood.inv.tidy hgood.size_le, hgood.spillsOldest, hgood.inv.resurrects⟩

/-- A string that is made, given up and found again. -/
theorem run_tidy_found :
    let ops := [.nnew [97] .both, .disown 0, .nnew [97] (.noBuffer 0 0)]
    Machine.Along Clocked.step HasBuffer Clocked.open ops ∧
      let c := (Machine.run Clocked.step Clocked.open ops).2
      Tidy c.pool ∧ (∀ pso, SpillsOldest c pso) ∧ Resurrects c.pool := by
  intro ops
  have h : Machine.Along Clocked.step HasBuffer Clocked.open ops :=
    ⟨trivial, trivial, show _ ≠ _ by decide, trivial⟩
  exact ⟨h, run_tidy ops h⟩

/-- A request without memory for its buffer leaves a string in the cache that is in no bucket. -/
theorem not_tidy_noBuffer :
    let p := (Machine.run Clocked.step Clocked.open [.nnew [97] (.noBuffer 0 0)]).2.pool
    0 ∈ p.scache ∧ (∀ b, p.strings b = []) ∧ ¬ Tidy p := by
  intro p
  refine ⟨List.mem_cons_self, fun b => rfl, fun h => ?_⟩
  have hcount := h.bucket 0 ⟨[], 0, 0, 0⟩ 0 rfl
  exact absurd hcount (by decide)

end Eel.StringPool
