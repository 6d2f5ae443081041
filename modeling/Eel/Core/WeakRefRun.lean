-- SUMMARY: Weak references stay wired when their blocks move, and so over every run of operations on values.
import Eel.Core.WeakRefs

/-!
# Runs of weak references

When a block has moved, its references are relocated one by one. Until then their vectors
have the addresses of the old block.
-/

namespace Eel

namespace WeakHeap

open BackIndex

/-! ## Moving blocks -/

/-- A block of `size` values, of which the first `used` are in use, gets to be one of `newsize` values at `new`. -/
structure BlockMoves (h : WeakHeap) (old new used size newsize : Nat) : Prop where
  fits : used ≤ size
  keeps : used ≤ newsize
  /-- What containers hold is attached. -/
  attached : ∀ k < used, ∀ o, h.slot (old + k) ≠ .weakref o weakrefUnwired
  unused : ∀ k, used ≤ k → k < size → h.slot (old + k) = .free
  /-- The new block has been free memory, or is a part of the old one. -/
  fresh : ∀ v : Nat, new ≤ v → v < new + newsize → (old ≤ v ∧ v < old + size) ∨ h.slot v = .free

/-- Where the first `n` values of a block are when it has moved. -/
def renamed (old new n v : Nat) : Nat := if old ≤ v ∧ v < old + n then new + (v - old) else v

section Blocks

variable {h : WeakHeap} {old new v used size newsize n kept : Nat} {o : ObjId} {xs : List Nat} {i : Int}

theorem renamed_zero : renamed old new 0 v = v := if_neg fun hv => by omega

theorem renamed_succ_ne (hv : v ≠ old + n) : renamed old new (n + 1) v = renamed old new n v := by
  unfold renamed
  exact if_congr (by omega) rfl rfl

theorem renamed_succ_self : renamed old new (n + 1) (old + n) = new + n := by
  unfold renamed
  rw [if_pos (by omega), Nat.add_sub_cancel_left]

/-- A value that is no reference is in no vector. -/
theorem map_renamed_of_not_mem (hv : old + n ∉ xs) : xs.map (renamed old new (n + 1)) = xs.map (renamed old new n) := by
  refine List.map_congr_left fun v hmem => renamed_succ_ne ?_
  rintro rfl
  exact hv hmem

/-- A reference that is relocated gets its new address. -/
theorem map_renamed_of_getElem? {m : Nat} (hnodup : xs.Nodup) (hm : xs[m]? = some (old + n)) :
    (xs.map (renamed old new n)).set m (new + n) = xs.map (renamed old new (n + 1)) := by
  obtain ⟨hlt, heq⟩ := List.getElem?_eq_some_iff.mp hm
  refine List.ext_getElem? fun j => ?_
  rw [List.getElem?_set, List.length_map, List.getElem?_map, List.getElem?_map]
  by_cases hmj : m = j
  · subst hmj
    rw [if_pos rfl, if_pos hlt, hm, Option.map_some, renamed_succ_self]
  · rw [if_neg hmj]
    cases hj : xs[j]? with
    | none => rfl
    | some w =>
      obtain ⟨hjlt, hw⟩ := List.getElem?_eq_some_iff.mp hj
      rw [Option.map_some, Option.map_some, renamed_succ_ne]
      rintro rfl
      exact hmj ((hnodup.getElem_inj_iff).mp (heq.trans hw.symm))

theorem moveBlock_new (hn : n < kept) : (h.moveBlock old new kept).slot (new + n) = h.slot (old + n) := by
  unfold moveBlock
  dsimp only
  rw [if_pos (by omega), Nat.add_sub_cancel_left]

/-- The loop relocates the references of the values that it has come to, and no others. -/
theorem Wired.relocateAll (hw : h.Wired) (new : Nat) {xs : ObjId → List Nat} (hxs : ∀ o, Lists (h.weakrefs o) (xs o))
    (hindexed : ∀ o, Indexed (h.index o) (xs o))
    (hattached : ∀ k < used, ∀ o, h.slot (old + k) ≠ .weakref o weakrefUnwired)
    (hkept : used ≤ kept) (hn : n ≤ used) :
    ∃ k, (h.moveBlock old new kept).relocateAll new n = some k ∧ k.slot = (h.moveBlock old new kept).slot ∧
      ∀ o, Lists (k.weakrefs o) ((xs o).map (renamed old new n)) := by
  induction n with
  | zero =>
    refine ⟨_, rfl, rfl, fun o => ?_⟩
    rw [List.map_congr_left fun v _ => renamed_zero, List.map_id']
    exact hxs o
  | succ n ih =>
    obtain ⟨k, hk, hslots, hlists⟩ := ih (Nat.le_of_succ_le hn)
    have hslot : k.slot (new + n) = h.slot (old + n) := by
      rw [hslots]
      exact moveBlock_new (Nat.lt_of_lt_of_le hn hkept)
    have hskip (hplain : ∀ o, h.index o (old + n) = none) (o : ObjId) :
        Lists (k.weakrefs o) ((xs o).map (renamed old new (n + 1))) := by
      rw [map_renamed_of_not_mem fun hmem => ?_]
      · exact hlists o
      · obtain ⟨m, hm⟩ := (hindexed o).mem_iff.mp hmem
        cases (hplain o).symm.trans hm
    unfold WeakHeap.relocateAll
    rw [hk, Option.bind_some]
    cases hold : h.slot (old + n) with
    | weakref o i =>
      have hi : i ≠ weakrefUnwired := by
        rintro rfl
        exact hattached n hn o hold
      obtain ⟨m, rfl, hm⟩ := hw.index_of_attached hold hi
      rw [hold] at hslot
      have hlt : m < ((xs o).map (renamed old new n)).length := by
        rw [List.length_map]
        exact (hindexed o).lt hm
      obtain ⟨wr, hwr, hholds⟩ := relocate_lists hslot (hlists o) hlt
      rw [hslot]
      dsimp only
      rw [hwr]
      refine ⟨_, rfl, hslots, fun o' => ?_⟩
      by_cases ho : o' = o
      · subst ho
        dsimp only
        rw [Function.update_self, ← map_renamed_of_getElem? (hindexed o').nodup ((hindexed o' _ _).mp hm)]
        exact hholds
      · dsimp only
        rw [Function.update_of_ne ho, map_renamed_of_not_mem fun hmem => ?_]
        · exact hlists o'
        · obtain ⟨j, hj⟩ := (hindexed o').mem_iff.mp hmem
          cases (index_ne hold ho).symm.trans hj
    | _ =>
      have hplain : ∀ o, h.index o (old + n) = none := by
        intro o
        unfold index
        rw [hold]
        rfl
      rw [hold] at hslot
      rw [hslot]
      exact ⟨k, rfl, hslots, hskip hplain⟩

/-- A block that has moved is wired when its references have been relocated. -/
theorem Wired.moveBlock (hw : h.Wired) (hb : h.BlockMoves old new used size newsize) :
    ∃ k, (h.moveBlock old new (min size newsize)).relocateAll new used = some k ∧ k.Wired := by
  choose xs hxs hindexed using hw.vectors
  have hkept : used ≤ min size newsize := le_min hb.fits hb.keeps
  obtain ⟨k, hk, hslots, hlists⟩ := hw.relocateAll new hxs hindexed hb.attached hkept (Nat.le_refl used)
  -- What is at an address of the new block was in the old one, and nothing else was there.
  have hnew {v : Nat} (hv : new ≤ v ∧ v < new + min size newsize) : k.slot v = h.slot (old + (v - new)) := by
    rw [hslots]
    exact if_pos hv
  have hother {v : Nat} (hv : ¬ (new ≤ v ∧ v < new + min size newsize)) :
      k.slot v = if old ≤ v ∧ v < old + min size newsize then .free else h.slot v := by
    rw [hslots]
    exact if_neg hv
  have hused {v : Nat} (hv : old ≤ v ∧ v < old + size) (hne : h.slot v ≠ .free) : v < old + used := by
    by_contra hge
    have hfree := hb.unused (v - old) (by omega) (by omega)
    rw [Nat.add_sub_cancel' hv.1] at hfree
    exact hne hfree
  have hnotfree {v : Nat} {o : ObjId} {m : Nat} (hv : h.index o v = some m) : h.slot v ≠ .free := by
    rw [slot_of_index hv]
    exact nofun
  refine ⟨k, hk, fun o => ⟨_, hlists o, (hindexed o).map _ (fun (v : Nat) m hv => ?_) fun (w : Nat) m hv => ?_⟩,
    fun (w : Nat) o i hv => ?_⟩
  · unfold renamed index
    split
    · rename_i hin
      rw [hnew (by omega), Nat.add_sub_cancel_left, Nat.add_sub_cancel' hin.1]
      exact hv
    · rename_i hout
      have hnotold : ¬ (old ≤ v ∧ v < old + size) := fun hin => hout ⟨hin.1, hused hin (hnotfree hv)⟩
      have hnotnew : ¬ (new ≤ v ∧ v < new + min size newsize) := fun hin =>
        (hb.fresh v hin.1 (by omega)).elim hnotold (hnotfree hv)
      rw [hother hnotnew, if_neg (by omega)]
      exact hv
  · unfold index at hv
    by_cases hin : new ≤ w ∧ w < new + min size newsize
    · rw [hnew hin] at hv
      have hlt := hused (v := old + (w - new)) (by omega) (hnotfree hv)
      refine ⟨old + (w - new), hv, ?_⟩
      unfold renamed
      rw [if_pos (by omega), Nat.add_sub_cancel_left, Nat.add_sub_cancel' hin.1]
    · rw [hother hin] at hv
      split at hv
      · cases hv
      · rename_i hout
        refine ⟨w, hv, if_neg ?_⟩
        omega
  · by_cases hin : new ≤ w ∧ w < new + min size newsize
    · rw [hnew hin] at hv
      exact hw.indexes _ o i hv
    · rw [hother hin] at hv
      split at hv
      · cases hv
      · exact hw.indexes w o i hv

end Blocks

/-! ## Runs -/

/-- What is done to values. -/
inductive Op where
  /-- Sets a value that is not attached, as `eel_o2wr` and `eel_nil2v` do, or forgets one. -/
  | put (v : Addr) (x : Slot)
  | attach (v : Addr)
  | detach (v : Addr)
  | clone (value src : Addr)
  | copy (value src : Addr)
  | move (value src : Addr)
  | aSetsize (values nv maxlength length : Nat) (newsize : Int)
  | tSetsize (items ni asize length newlength : Nat)
  | kill (o : ObjId)

def step (h : WeakHeap) : Op → Option WeakHeap
  | .put v x => some (h.put v x)
  | .attach v => h.attach v
  | .detach v => h.detach v
  | .clone value src => h.clone value src
  | .copy value src => h.copy value src
  | .move value src => h.move value src
  | .aSetsize values nv maxlength length newsize => h.aSetsize values nv maxlength length newsize
  | .tSetsize items ni asize length newlength => h.tSetsize items ni asize length newlength
  | .kill o => h.killWeakrefs o

/-- What the callers see to: nothing that is attached is overwritten, and what is moved is attached, if it is a weak
reference at all. A block that is resized has its values at the start, and nothing behind them. -/
def Legal (h : WeakHeap) : Op → Prop
  | .put v x => ¬ (h.slot v).Attached ∧ ¬ x.Attached
  | .attach v => ∃ o, h.slot v = .weakref o weakrefUnwired
  | .detach v => (h.slot v).Attached
  | .clone value _ | .copy value _ => ¬ (h.slot value).Attached
  | .move value src => ¬ (h.slot value).Attached ∧ ∀ o, h.slot src ≠ .weakref o weakrefUnwired
  | .aSetsize values nv maxlength length newsize =>
    length ≤ newsize ∧ ∃ n, calcresize? arraySizing.base arraySizing.base_pos maxlength newsize = some n ∧
      h.BlockMoves values nv length maxlength n
  | .tSetsize items ni asize length newlength =>
    ∃ n, calcresize? tableSizeBase tableSizeBase_pos asize newlength = some n ∧
      h.BlockMoves items ni (2 * min length newlength) (2 * asize) (2 * n)
  | .kill _ => True

/-- No object has so many references that the size of a vector can be too large. -/
def Few (h : WeakHeap) : Prop := ∀ o wr, h.weakrefs o = some wr → wr.nrefs < 2 ^ 27

/-- The states of all runs. -/
inductive Reached : WeakHeap → Prop
  | start {h} (hnone : ∀ o, h.weakrefs o = none) (hslot : ∀ v, ¬ (h.slot v).Attached) : Reached h
  | step {h k op} (hr : Reached h) (hlegal : h.Legal op) (hk : h.step op = some k) : Reached k

section Runs

variable {h k : WeakHeap} {op : Op} {v : Addr} {x : Slot} {o : ObjId}

theorem Wired.of_none (hnone : ∀ o, h.weakrefs o = none) (hslot : ∀ v, ¬ (h.slot v).Attached) : h.Wired where
  vectors o := by
    rw [hnone o]
    exact ⟨[], rfl, indexed_nil.congr fun v => index?_of_not_attached (hslot v)⟩
  indexes v o i hv := by
    have hnot := hslot v
    rw [hv] at hnot
    exact .inl (not_not.mp hnot)

theorem put_self (hv : h.slot v = x) : h.put v x = h := by
  unfold put
  rw [Function.update_eq_self_iff.mpr hv.symm]

/-- Every operation keeps vectors and values wired, and comes to an end if there are not too many references. -/
theorem Wired.step (hw : h.Wired) (hlegal : h.Legal op) :
    (∀ k, h.step op = some k → k.Wired) ∧ (h.Few → ∃ k, h.step op = some k) := by
  have of_exists {k? : Option WeakHeap} (hk : ∃ k, k? = some k ∧ k.Wired) :
      (∀ k, k? = some k → k.Wired) ∧ (h.Few → ∃ k, k? = some k) := by
    obtain ⟨k, rfl, hwired⟩ := hk
    refine ⟨?_, fun _ => ⟨k, rfl⟩⟩
    rintro _ ⟨⟩
    exact hwired
  have of_attach {v : Addr} {o : ObjId} {i : Int} (hv : ¬ (h.slot v).Attached) :
      (∀ k, (h.put v (.weakref o i)).attach v = some k → k.Wired) ∧
        (h.Few → ∃ k, (h.put v (.weakref o i)).attach v = some k) :=
    ⟨fun k hk => hw.attach hv hk, fun hfew => hw.exists_attach fun wr hwr => hfew o wr hwr⟩
  cases op with
  | put v x => exact of_exists ⟨_, rfl, hw.put hlegal.1 hlegal.2⟩
  | attach v =>
    obtain ⟨o, hv⟩ := hlegal
    have hnot : ¬ (h.slot v).Attached := by
      rw [hv]
      exact fun h => h rfl
    have hattach := of_attach (o := o) (i := weakrefUnwired) hnot
    rw [put_self hv] at hattach
    exact hattach
  | detach v =>
    have hattached : (h.slot v).Attached := hlegal
    cases hv : h.slot v with
    | weakref o i =>
      rw [hv] at hattached
      exact of_exists (hw.detach hv hattached)
    | _ => rw [hv] at hattached; exact hattached.elim
  | clone value src =>
    show (∀ k, h.clone value src = some k → _) ∧ (_ → ∃ k, h.clone value src = some k)
    unfold WeakHeap.clone
    cases hsrc : h.slot src with
    | weakref o i => exact of_attach hlegal
    | _ => exact of_exists ⟨_, rfl, hw.put hlegal not_false⟩
  | copy value src =>
    show (∀ k, h.copy value src = some k → _) ∧ (_ → ∃ k, h.copy value src = some k)
    unfold WeakHeap.copy
    cases hsrc : h.slot src with
    | weakref o i =>
      dsimp only
      split
      · exact of_attach hlegal
      · exact of_exists ⟨_, rfl, hw.put hlegal not_false⟩
    | _ => exact of_exists ⟨_, rfl, hw.put hlegal not_false⟩
  | move value src => exact of_exists (hw.move hlegal.1 hlegal.2)
  | aSetsize values nv maxlength length newsize =>
    obtain ⟨hle, n, hn, hb⟩ := hlegal
    refine of_exists ?_
    show ∃ k, h.aSetsize values nv maxlength length newsize = some k ∧ _
    unfold aSetsize
    rw [hn, Option.bind_some]
    split
    · exact ⟨h, rfl, hw⟩
    · rw [Nat.min_eq_left hb.keeps]
      exact hw.moveBlock hb
  | tSetsize items ni asize length newlength =>
    obtain ⟨n, hn, hb⟩ := hlegal
    refine of_exists ?_
    show ∃ k, h.tSetsize items ni asize length newlength = some k ∧ _
    unfold tSetsize
    rw [hn, Option.bind_some]
    split
    · exact ⟨h, rfl, hw⟩
    · rw [← Nat.mul_min_mul_left]
      exact hw.moveBlock hb
  | kill o =>
    obtain ⟨k, hk, hwired, -⟩ := hw.killWeakrefs o
    exact of_exists ⟨k, hk, hwired⟩

theorem Reached.wired (hr : h.Reached) : h.Wired := by
  induction hr with
  | start hnone hslot => exact .of_none hnone hslot
  | step _ hlegal hk ih => exact (ih.step hlegal).1 _ hk

/-- In every state of a run, a vector has as many references as it says, all different, and each is a weak reference
to the object with its place as index. Every attached reference is in the vector of its object. When the references
to an object are killed, those that are attached are gone. And nothing that callers may do goes wrong, unless there
are very many references to one object. -/
theorem reached_wired (hr : h.Reached) :
    (∀ o wr, h.weakrefs o = some wr → 0 ≤ wr.nrefs ∧ wr.nrefs ≤ wr.size ∧
      ∃ refs : List Addr, wr.refs.read 0 wr.nrefs.toNat = some refs ∧ refs.Nodup ∧
        ∀ (i : Nat) v, refs[i]? = some v → h.slot v = .weakref o i) ∧
      (∀ v o i, h.slot v = .weakref o i → i ≠ weakrefUnwired →
        ∃ wr, h.weakrefs o = some wr ∧ i < wr.nrefs ∧ wr.refs.load i = some v) ∧
      (∀ o, ∃ k, h.killWeakrefs o = some k ∧ ∀ v i, k.slot v = .weakref o i → i = weakrefUnwired) ∧
      (∀ op, h.Legal op → h.Few → ∃ k, h.step op = some k) := by
  have hw := hr.wired
  refine ⟨fun o wr hwr => ?_, fun v o i hv hi => ?_, fun o => ?_, fun op hlegal => (hw.step hlegal).2⟩
  · obtain ⟨xs, hxs, hindexed⟩ := hw.vectors o
    rw [hwr] at hxs
    have hxs : wr.Holds xs := hxs
    rw [hxs.nrefs_eq, Int.toNat_natCast, Block.read_all hxs.stored]
    exact ⟨Int.natCast_nonneg _, by exact_mod_cast hxs.fits, xs, rfl, hindexed.nodup, fun i v hv =>
      slot_of_index ((hindexed v i).mpr hv)⟩
  · obtain ⟨n, rfl, hindex⟩ := hw.index_of_attached hv hi
    obtain ⟨xs, hxs, hindexed⟩ := hw.vectors o
    have hlt := hindexed.lt hindex
    cases hwr : h.weakrefs o with
    | none =>
      rw [hwr] at hxs
      rw [show xs = [] from hxs] at hlt
      cases hlt
    | some wr =>
      rw [hwr] at hxs
      have hxs : wr.Holds xs := hxs
      refine ⟨wr, rfl, ?_, ?_⟩
      · rw [hxs.nrefs_eq]
        exact_mod_cast hlt
      · rw [Block.load_item hxs.stored hlt rfl]
        exact (List.getElem?_eq_getElem hlt).symm.trans ((hindexed v n).mp hindex)
  · obtain ⟨k, hk, -, hgone⟩ := hw.killWeakrefs o
    exact ⟨k, hk, hgone⟩

end Runs

/-- A weak reference to an object, copied to another place. -/
theorem reached_wired_copy :
    ∃ h : WeakHeap, h.Reached ∧ h.slot 1 = .weakref 7 0 ∧ ∃ wr, h.weakrefs 7 = some wr ∧ wr.refs.load 0 = some 1 := by
  let start : WeakHeap := ⟨fun _ => .free, fun _ => none⟩
  let made := start.put 0 (.weakref 7 weakrefUnwired)
  have hstart : start.Reached := .start (fun _ => rfl) fun _ => not_false
  have hput : start.Legal (.put 0 (.weakref 7 weakrefUnwired)) := ⟨not_false, fun h => h rfl⟩
  have hmade : made.Reached := hstart.step hput rfl
  have hlegal : made.Legal (.copy 1 0) := not_false
  obtain ⟨k, hk⟩ := (reached_wired hmade).2.2.2 _ hlegal (by rintro o wr ⟨⟩)
  have hreached := hmade.step hlegal hk
  have hslot : k.slot 1 = .weakref 7 0 := slot_attach (show Lists (made.weakrefs 7) [] from rfl) hk
  obtain ⟨wr, hwr, -, hload⟩ := (reached_wired hreached).2.1 1 7 0 hslot (by decide)
  exact ⟨k, hreached, hslot, wr, hwr, hload⟩

end WeakHeap

end Eel
