-- SUMMARY: Weak references and the vectors of their objects: attaching, detaching, moving values and blocks, killing.
import Eel.Core.Buffer
import Eel.Core.Primitive
import Eel.Lib.BackIndex

/-!
# Weak references

A weak reference is a value with an index into a vector of its object, which has the addresses
of the values that refer to the object. A value that has just been made by `eel_o2wr` is not
wired: it has the index `EEL_WEAKREF_UNWIRED` and is in no vector.

Values are at addresses. What was at an address that a value has been moved from is no value.
-/

namespace Eel

abbrev Addr := Nat

/-- `EEL_value`, as the vectors see it. -/
inductive Slot where
  | free
  | plain (v : Prim (BitVec 64))
  | objref (o : ObjId)
  | weakref (o : ObjId) (index : Int)

/-- `EEL_weakrefs`. -/
structure Weakrefs where
  nrefs : Int
  size : Nat
  refs : Block Addr

/-- The vector has these references. -/
structure Weakrefs.Holds (wr : Weakrefs) (xs : List Addr) : Prop where
  nrefs_eq : wr.nrefs = xs.length
  fits : xs.length ≤ wr.size
  /-- The number of its bytes is an `int`. -/
  small : 8 * wr.size + 8 < 2 ^ 31
  length_eq : wr.refs.length = wr.size
  stored : xs.map some <+: wr.refs

structure WeakHeap where
  slot : Addr → Slot
  weakrefs : ObjId → Option Weakrefs

/-- `EEL_WEAKREF_UNWIRED`. -/
def weakrefUnwired : Int := -1

/-- `EEL_WR_MINSIZE`. -/
def wrMinsize : Nat := 4

theorem wrMinsize_pos : 0 < wrMinsize := by
  decide

namespace Slot

/-- Whether the value is in the vector of an object. -/
def Attached : Slot → Prop
  | weakref _ index => index ≠ weakrefUnwired
  | _ => False

/-- The index in the vector of `o`. -/
def index? (o : ObjId) : Slot → Option Nat
  | weakref o' (.ofNat i) => if o' = o then some i else none
  | _ => none

end Slot

namespace WeakHeap

open BackIndex

variable (h : WeakHeap)

/-! ## The code -/

def put (v : Addr) (x : Slot) : WeakHeap := { h with slot := Function.update h.slot v x }

/-- `realloc` of a vector for so many references. The number of bytes is an `int`; as `size_t`, a negative one is
more than there can be. -/
def reallocRefs (refs : Block Addr) (newsize : Nat) : Option (Block Addr) :=
  let ms := Int.bmod (8 * newsize + 8) (2 ^ 32)
  if ms < 8 then none else some (refs.resize ((ms.toNat - 8) / 8))

/-- The vector with room for one more reference. -/
def makeRoom (wr : Option Weakrefs) : Option Weakrefs :=
  let nrefs := (wr.map Weakrefs.nrefs).getD 0
  let size := (wr.map Weakrefs.size).getD 0
  if size < nrefs + 1 then
    (calcresize? wrMinsize wrMinsize_pos size (nrefs + 1)).bind fun newsize =>
      (reallocRefs ((wr.map Weakrefs.refs).getD []) newsize).map fun refs => ⟨nrefs, newsize, refs⟩
  else wr

/-- `eel_weakref_attach`. -/
def attach (v : Addr) : Option WeakHeap :=
  match h.slot v with
  | .weakref o _ =>
    (makeRoom (h.weakrefs o)).bind fun wr =>
      (wr.refs.store wr.nrefs v).map fun refs =>
        ⟨Function.update h.slot v (.weakref o wr.nrefs), Function.update h.weakrefs o (some ⟨wr.nrefs + 1, wr.size, refs⟩)⟩
  | _ => none

/-- `wr->refs[index] = wr->refs[wr->nrefs - 1]`, and the index of the reference that this moves. -/
def replaceLast (wr : Weakrefs) (index : Int) : Option ((Addr → Slot) × Block Addr) :=
  (wr.refs.load (wr.nrefs - 1)).bind fun last =>
    (wr.refs.store index last).bind fun refs =>
      match h.slot last with
      | .weakref o _ => some (Function.update h.slot last (.weakref o index), refs)
      | _ => none

/-- What is left of a vector when it is more than twice as large as it needs to be, or empty. -/
def shrink (wr : Weakrefs) : Option Weakrefs :=
  if wr.nrefs < (wr.size / 2 : Nat) ∧ wrMinsize < wr.size then
    some { wr with size := wr.size / 2, refs := (reallocRefs wr.refs (wr.size / 2)).getD wr.refs }
  else if wr.nrefs = 0 then none
  else some wr

/-- `eel__weakref_detach`. -/
def detach (v : Addr) : Option WeakHeap :=
  match h.slot v with
  | .weakref o index =>
    (h.weakrefs o).bind fun wr =>
      (if index < wr.nrefs then h.replaceLast wr index else some (h.slot, wr.refs)).map fun r =>
        ⟨Function.update r.1 v (.plain .nil), Function.update h.weakrefs o (shrink ⟨wr.nrefs - 1, wr.size, r.2⟩)⟩
  | _ => none

/-- `eel_weakref_relocate`. -/
def relocate (v : Addr) : Option WeakHeap :=
  match h.slot v with
  | .weakref o index =>
    (h.weakrefs o).bind fun wr =>
      (wr.refs.store index v).map fun refs =>
        { h with weakrefs := Function.update h.weakrefs o (some { wr with refs := refs }) }
  | _ => none

/-- `eel_kill_weakrefs`. -/
def killWeakrefs (o : ObjId) : Option WeakHeap :=
  match h.weakrefs o with
  | none => some h
  | some wr =>
    (wr.refs.read 0 wr.nrefs.toNat).map fun vs =>
      ⟨vs.foldl (fun slot v => Function.update slot v (.plain .nil)) h.slot, Function.update h.weakrefs o none⟩

/-- `eel_v_clone`. -/
def clone (value src : Addr) : Option WeakHeap :=
  match h.slot src with
  | .weakref o index => (h.put value (.weakref o index)).attach value
  | x => some (h.put value x)

/-- `eel_v_copy`. -/
def copy (value src : Addr) : Option WeakHeap :=
  match h.slot src with
  | .weakref o index =>
    if index = weakrefUnwired then (h.put value (.weakref o index)).attach value else some (h.put value (.objref o))
  | x => some (h.put value x)

/-- `eel_v_move`. -/
def move (value src : Addr) : Option WeakHeap :=
  let moved := (h.put src .free).put value (h.slot src)
  match h.slot src with
  | .weakref _ _ => moved.relocate value
  | _ => some moved

/-- `n` values are in another place. -/
def moveBlock (old new n : Nat) : WeakHeap :=
  { h with
    slot := fun (v : Nat) =>
      if new ≤ v ∧ v < new + n then h.slot (old + (v - new))
      else if old ≤ v ∧ v < old + n then .free
      else h.slot v }

/-- The loop over the values of a block that has moved. -/
def relocateAll (h : WeakHeap) (new : Nat) : Nat → Option WeakHeap
  | 0 => some h
  | n + 1 => (relocateAll h new n).bind fun h =>
    match h.slot (new + n) with
    | .weakref _ _ => h.relocate (new + n)
    | _ => some h

/-- `a_setsize`, of an array whose block is at `nv` then. -/
def aSetsize (values nv : Addr) (maxlength length : Nat) (newsize : Int) : Option WeakHeap :=
  (calcresize? arraySizing.base arraySizing.base_pos maxlength newsize).bind fun n =>
    if n = maxlength ∨ nv = values then some h
    else (h.moveBlock values nv (min maxlength n)).relocateAll nv (min length n)

theorem tableSizeBase_pos : 0 < tableSizeBase := by
  decide

/-- `t_setsize`, of a table whose block is at `ni` then. An item has a key and a value. -/
def tSetsize (items ni : Addr) (asize length newlength : Nat) : Option WeakHeap :=
  (calcresize? tableSizeBase tableSizeBase_pos asize newlength).bind fun n =>
    if n = asize ∨ ni = items then some h
    else (h.moveBlock items ni (2 * min asize n)).relocateAll ni (2 * min length newlength)

/-! ## What is kept -/

/-- The index that the value at an address has in the vector of `o`. -/
def index (o : ObjId) (v : Addr) : Option Nat := (h.slot v).index? o

/-- The references to an object, which may have no vector. -/
def Lists : Option Weakrefs → List Addr → Prop
  | none, xs => xs = []
  | some wr, xs => wr.Holds xs

/-- Vectors and values are wired to each other. -/
structure Wired : Prop where
  vectors : ∀ o, ∃ xs, Lists (h.weakrefs o) xs ∧ Indexed (h.index o) xs
  indexes : ∀ v o i, h.slot v = .weakref o i → i = weakrefUnwired ∨ 0 ≤ i

variable {h} {v u : Addr} {x : Slot} {o o' : ObjId} {i : Int} {xs : List Addr}

theorem index?_of_not_attached (hx : ¬ x.Attached) : x.index? o = none := by
  cases x with
  | weakref o' i =>
    obtain rfl : i = weakrefUnwired := not_not.mp hx
    rfl
  | _ => rfl

theorem index?_ne (hne : o' ≠ o) : (Slot.weakref o' i).index? o = none := by
  cases i with
  | ofNat i => exact if_neg hne
  | negSucc => rfl

theorem index?_nat {n : Nat} : (Slot.weakref o (n : Int)).index? o = some n := if_pos rfl

theorem index_put : (h.put v x).index o = Function.update (h.index o) v (x.index? o) := by
  funext w
  unfold index put
  dsimp only
  rw [Function.update_apply, Function.update_apply]
  split <;> rfl

/-- A value with an index is a weak reference. -/
theorem slot_of_index {n : Nat} (hv : h.index o v = some n) : h.slot v = .weakref o n := by
  unfold index at hv
  cases hx : h.slot v with
  | weakref o' i =>
    rw [hx] at hv
    by_cases hne : o' = o
    · subst hne
      cases i with
      | ofNat i =>
        cases index?_nat.symm.trans hv
        rfl
      | negSucc => cases hv
    · cases (index?_ne hne).symm.trans hv
  | _ => rw [hx] at hv; cases hv

/-- An attached value has an index. -/
theorem Wired.index_of_attached (hw : h.Wired) (hv : h.slot v = .weakref o i) (hi : i ≠ weakrefUnwired) :
    ∃ n : Nat, i = n ∧ h.index o v = some n := by
  obtain ⟨n, rfl⟩ := Int.eq_ofNat_of_zero_le ((hw.indexes v o i hv).resolve_left hi)
  refine ⟨n, rfl, ?_⟩
  unfold index
  rw [hv]
  exact index?_nat

/-- Only the vector of `o` may change. -/
theorem Wired.of_vector {k : WeakHeap} (hw : h.Wired) (o : ObjId)
    (hvector : ∃ xs, Lists (k.weakrefs o) xs ∧ Indexed (k.index o) xs)
    (hweakrefs : ∀ o', o' ≠ o → k.weakrefs o' = h.weakrefs o') (hindex : ∀ o', o' ≠ o → k.index o' = h.index o')
    (hindexes : ∀ v o i, k.slot v = .weakref o i → i = weakrefUnwired ∨ 0 ≤ i) : k.Wired where
  vectors o' := by
    by_cases ho : o' = o
    · rw [ho]
      exact hvector
    · rw [hweakrefs o' ho, hindex o' ho]
      exact hw.vectors o'
  indexes := hindexes

/-! ## Values that are in no vector -/

theorem Wired.put (hw : h.Wired) (hv : ¬ (h.slot v).Attached) (hx : ¬ x.Attached) : (h.put v x).Wired where
  vectors o := by
    obtain ⟨xs, hxs, hindexed⟩ := hw.vectors o
    refine ⟨xs, hxs, hindexed.congr fun w => ?_⟩
    rw [index_put, index?_of_not_attached hx, Function.update_apply]
    split
    · rename_i hwv
      rw [hwv]
      exact (index?_of_not_attached hv).symm
    · rfl
  indexes w o i hw' := by
    have hslot : Function.update h.slot v x w = .weakref o i := hw'
    rw [Function.update_apply] at hslot
    split at hslot
    · subst hslot
      exact .inl (not_not.mp hx)
    · exact hw.indexes w o i hslot

/-! ## Attaching -/

theorem reallocRefs_eq {refs : Block Addr} {n : Nat} (hn : 8 * n + 8 < 2 ^ 31) :
    reallocRefs refs n = some (refs.resize n) := by
  have hms : Int.bmod (8 * n + 8) (2 ^ 32) = 8 * n + 8 := Int.bmod_eq_of_le (by omega) (by omega)
  unfold reallocRefs
  dsimp only
  rw [hms, if_neg (by omega)]
  have hcells : ((8 * (n : Int) + 8).toNat - 8) / 8 = n := by omega
  rw [hcells]

theorem reallocRefs_none {refs : Block Addr} {n : Nat} (hn : ¬ 8 * n + 8 < 2 ^ 31) (hlt : 8 * n + 8 < 2 ^ 32) :
    reallocRefs refs n = none := by
  have hms : Int.bmod (8 * n + 8) (2 ^ 32) = 8 * n + 8 - 2 ^ 32 := by
    rw [Int.bmod_def, if_neg (by omega)]
    omega
  unfold reallocRefs
  dsimp only
  rw [hms, if_pos (by omega)]

theorem grown_holds {refs refs' : Block Addr} {size newsize : Nat} (hstored : xs.map some <+: refs)
    (hfits : xs.length ≤ size) (hsmall : 8 * size + 8 < 2 ^ 31)
    (hcalc : calcresize? wrMinsize wrMinsize_pos size (xs.length + 1) = some newsize)
    (hrefs : reallocRefs refs newsize = some refs') :
    (⟨xs.length, newsize, refs'⟩ : Weakrefs).Holds xs ∧ xs.length < newsize := by
  obtain ⟨hroom, hpos, hlt⟩ := calcresize?_spec hcalc (by omega) (by decide)
  have hle := calcresize?_le hcalc
  unfold wrMinsize at hle
  have hnew : 8 * newsize + 8 < 2 ^ 31 := by
    by_contra hover
    rw [reallocRefs_none hover (by omega)] at hrefs
    cases hrefs
  rw [reallocRefs_eq hnew] at hrefs
  cases hrefs
  have hlen : xs.length ≤ newsize := by omega
  refine ⟨⟨rfl, hlen, hnew, Block.length_resize, Block.prefix_resize hstored ?_⟩, by omega⟩
  rw [List.length_map]
  exact hlen

theorem makeRoom_holds {wr? : Option Weakrefs} {wr : Weakrefs} (hxs : Lists wr? xs) (h : makeRoom wr? = some wr) :
    wr.Holds xs ∧ xs.length < wr.size := by
  unfold makeRoom at h
  cases wr? with
  | none =>
    obtain rfl : xs = [] := hxs
    rw [if_pos (by decide)] at h
    obtain ⟨newsize, hcalc, h⟩ := Option.bind_eq_some_iff.mp h
    obtain ⟨refs, hrefs, rfl⟩ := Option.map_eq_some_iff.mp h
    have hnone : ([] : List Addr).map some <+: ([] : Block Addr) := List.prefix_refl _
    exact grown_holds hnone (Nat.le_refl 0) (by decide) hcalc hrefs
  | some wr' =>
    have hxs : wr'.Holds xs := hxs
    dsimp only [Option.map_some, Option.getD_some] at h
    rw [hxs.nrefs_eq] at h
    split at h
    · obtain ⟨newsize, hcalc, h⟩ := Option.bind_eq_some_iff.mp h
      obtain ⟨refs, hrefs, rfl⟩ := Option.map_eq_some_iff.mp h
      exact grown_holds hxs.stored hxs.fits hxs.small hcalc hrefs
    · cases h
      exact ⟨hxs, by omega⟩

/-- There is room for a reference more, unless there are too many. -/
theorem exists_makeRoom {wr? : Option Weakrefs} (hxs : Lists wr? xs) (hlt : xs.length < 2 ^ 27) :
    ∃ wr, makeRoom wr? = some wr := by
  have hgrow {refs : Block Addr} {size : Nat} (hle : size < xs.length + 1) (hfits : xs.length ≤ size) :
      ∃ wr, ((calcresize? wrMinsize wrMinsize_pos size (xs.length + 1)).bind fun newsize =>
        (reallocRefs refs newsize).map fun refs => (⟨xs.length, newsize, refs⟩ : Weakrefs)) = some wr := by
    obtain rfl : size = xs.length := by omega
    have hbound : xs.length * 3 < 2 ^ 31 - 2 * wrMinsize := by
      unfold wrMinsize
      omega
    obtain ⟨newsize, hcalc, hle⟩ : ∃ k, calcresize? wrMinsize wrMinsize_pos xs.length (xs.length + 1) = some k ∧
      k ≤ xs.length * 3 / 2 + wrMinsize := calcresize?_succ hbound
    unfold wrMinsize at hle
    rw [hcalc, Option.bind_some, reallocRefs_eq (by omega)]
    exact ⟨_, rfl⟩
  unfold makeRoom
  cases wr? with
  | none =>
    obtain rfl : xs = [] := hxs
    rw [if_pos (by decide)]
    exact hgrow (Nat.lt_succ_self 0) (Nat.le_refl 0)
  | some wr =>
    have hxs : wr.Holds xs := hxs
    dsimp only [Option.map_some, Option.getD_some]
    rw [hxs.nrefs_eq]
    split
    · exact hgrow (by omega) hxs.fits
    · exact ⟨wr, rfl⟩

/-- A value that is in no vector becomes the last reference to an object. -/
theorem Wired.attach (hw : h.Wired) (hv : ¬ (h.slot v).Attached) {k : WeakHeap}
    (hk : (h.put v (.weakref o i)).attach v = some k) : k.Wired := by
  obtain ⟨xs, hxs, hindexed⟩ := hw.vectors o
  unfold WeakHeap.attach WeakHeap.put at hk
  dsimp only at hk
  rw [Function.update_self] at hk
  obtain ⟨wr, hwr, hk⟩ := Option.bind_eq_some_iff.mp hk
  obtain ⟨refs, hrefs, rfl⟩ := Option.map_eq_some_iff.mp hk
  obtain ⟨hholds, hroom⟩ := makeRoom_holds hxs hwr
  obtain ⟨refs', hrefs', hstored, hlength⟩ :=
    Block.push_start hholds.stored (by rw [hholds.length_eq]; exact hroom) hholds.nrefs_eq v
  cases hrefs.symm.trans hrefs'
  rw [Function.update_idem, hholds.nrefs_eq]
  have hindex (o' : ObjId) : index ⟨Function.update h.slot v (.weakref o (xs.length : Int)),
      Function.update h.weakrefs o (some ⟨xs.length + 1, wr.size, refs⟩)⟩ o' =
        Function.update (h.index o') v ((Slot.weakref o (xs.length : Int)).index? o') :=
    index_put
  refine hw.of_vector o ⟨xs ++ [v], ?_, ?_⟩ (fun o' ho => Function.update_of_ne ho ..) (fun o' ho => ?_)
    fun w o' j hw' => ?_
  · dsimp only
    rw [Function.update_self]
    refine ⟨?_, ?_, hholds.small, hlength.trans hholds.length_eq, hstored⟩
    · rw [List.length_append]
      rfl
    · rw [List.length_append]
      exact hroom
  · rw [hindex, index?_nat]
    exact hindexed.append (index?_of_not_attached hv)
  · rw [hindex, index?_ne (Ne.symm ho)]
    exact Function.update_eq_self_iff.mpr (index?_of_not_attached hv).symm
  · have hslot : Function.update h.slot v (.weakref o (xs.length : Int)) w = .weakref o' j := hw'
    rw [Function.update_apply] at hslot
    split at hslot
    · cases hslot
      exact .inr (Int.natCast_nonneg _)
    · exact hw.indexes w o' j hslot

/-- The index is where the reference is appended. -/
theorem slot_attach {k : WeakHeap} (hxs : Lists (h.weakrefs o) xs) (hk : (h.put v (.weakref o i)).attach v = some k) :
    k.slot v = .weakref o xs.length := by
  unfold WeakHeap.attach WeakHeap.put at hk
  dsimp only at hk
  rw [Function.update_self] at hk
  obtain ⟨wr, hwr, hk⟩ := Option.bind_eq_some_iff.mp hk
  obtain ⟨refs, -, rfl⟩ := Option.map_eq_some_iff.mp hk
  dsimp only
  rw [Function.update_self, (makeRoom_holds hxs hwr).1.nrefs_eq]

theorem Wired.exists_attach (hw : h.Wired) (hlt : ∀ wr, h.weakrefs o = some wr → wr.nrefs < 2 ^ 27) :
    ∃ k, (h.put v (.weakref o i)).attach v = some k := by
  obtain ⟨xs, hxs, -⟩ := hw.vectors o
  have hfew : xs.length < 2 ^ 27 := by
    cases hwr : h.weakrefs o with
    | none =>
      rw [hwr] at hxs
      rw [show xs = [] from hxs]
      decide
    | some wr =>
      rw [hwr] at hxs
      have hxs : wr.Holds xs := hxs
      have hbound := hlt wr hwr
      rw [hxs.nrefs_eq] at hbound
      exact_mod_cast hbound
  obtain ⟨wr, hwr⟩ := exists_makeRoom hxs hfew
  obtain ⟨hholds, hroom⟩ := makeRoom_holds hxs hwr
  obtain ⟨refs, hrefs, -⟩ := Block.push_start hholds.stored (by rw [hholds.length_eq]; exact hroom) hholds.nrefs_eq v
  unfold WeakHeap.attach WeakHeap.put
  dsimp only
  rw [Function.update_self]
  dsimp only
  rw [hwr, Option.bind_some, hrefs]
  exact ⟨_, rfl⟩

/-! ## Detaching -/

theorem shrink_lists {wr : Weakrefs} (h : wr.Holds xs) : Lists (shrink wr) xs := by
  unfold shrink
  have hn := h.nrefs_eq
  have hsmall := h.small
  split
  · rename_i hhalf
    rw [reallocRefs_eq (by omega)]
    have hfits : xs.length ≤ wr.size / 2 := by omega
    refine ⟨h.nrefs_eq, hfits, by dsimp only; omega, Block.length_resize, Block.prefix_resize h.stored ?_⟩
    rw [List.length_map]
    exact hfits
  · split
    · exact List.length_eq_zero_iff.mp (by omega)
    · exact h

/-- A value that is detached leaves the vector, and the last one takes its place there. -/
theorem Wired.detach (hw : h.Wired) (hv : h.slot v = .weakref o i) (hi : i ≠ weakrefUnwired) :
    ∃ k, h.detach v = some k ∧ k.Wired := by
  obtain ⟨n, rfl, hindex⟩ := hw.index_of_attached hv hi
  obtain ⟨xs, hxs, hindexed⟩ := hw.vectors o
  have hn := hindexed.lt hindex
  obtain ⟨last, hlast⟩ : ∃ last, xs.getLast? = some last :=
    ⟨_, List.getLast?_eq_some_getLast (List.ne_nil_of_length_pos (Nat.zero_lt_of_lt hn))⟩
  have hslot : h.slot last = .weakref o ((xs.length - 1 : Nat) : Int) := by
    rw [List.getLast?_eq_getElem?] at hlast
    exact slot_of_index ((hindexed last _).mpr hlast)
  cases hwr : h.weakrefs o with
  | none =>
    rw [hwr] at hxs
    rw [show xs = [] from hxs] at hn
    cases hn
  | some wr =>
    rw [hwr] at hxs
    have hxs : wr.Holds xs := hxs
    have hload : wr.refs.load (wr.nrefs - 1) = some last := by
      rw [hxs.nrefs_eq, Block.load_item hxs.stored (Nat.sub_one_lt_of_lt hn) (by omega)]
      rw [List.getLast?_eq_getElem?] at hlast
      exact (List.getElem?_eq_getElem _).symm.trans hlast
    obtain ⟨refs, hrefs, hstored, hlength⟩ := Block.store_start hxs.stored hn rfl last
    unfold WeakHeap.detach replaceLast
    rw [hv]
    dsimp only
    rw [hwr, Option.bind_some, if_pos (by rw [hxs.nrefs_eq]; exact_mod_cast hn), hload, Option.bind_some, hrefs,
      Option.bind_some, hslot]
    refine ⟨_, rfl, ?_⟩
    have hindex' (o' : ObjId) : index ⟨Function.update (Function.update h.slot last (.weakref o n)) v (.plain .nil),
        Function.update h.weakrefs o
        (shrink ⟨wr.nrefs - 1, wr.size, refs⟩)⟩ o' =
          Function.update (Function.update (h.index o') last ((Slot.weakref o n).index? o')) v none := by
      refine (index_put (h := h.put last (.weakref o n)) (x := .plain .nil)).trans ?_
      rw [index_put]
      rfl
    refine hw.of_vector o ⟨(xs.set n last).dropLast, ?_, ?_⟩ (fun o' ho => Function.update_of_ne ho ..) (fun o' ho => ?_)
      fun w o' j hw' => ?_
    · dsimp only
      rw [Function.update_self]
      have hlen : ((xs.set n last).dropLast.length : Int) = wr.nrefs - 1 := by
        rw [List.length_dropLast, List.length_set, hxs.nrefs_eq]
        omega
      refine shrink_lists ⟨hlen.symm, ?_, hxs.small, hlength.trans hxs.length_eq, ?_⟩
      · have hfits := hxs.fits
        rw [List.length_dropLast, List.length_set]
        dsimp only
        omega
      · rw [List.dropLast_eq_take]
        exact ((List.take_prefix ..).map some).trans hstored
    · rw [hindex', index?_nat]
      exact hindexed.replaceByLast hindex hlast
    · rw [hindex', index?_ne (Ne.symm ho)]
      have hnone (w : Addr) {m : Nat} (hw' : h.slot w = .weakref o m) : h.index o' w = none := by
        unfold index
        rw [hw']
        exact index?_ne (Ne.symm ho)
      have hlast' : Function.update (h.index o') last none = h.index o' :=
        Function.update_eq_self_iff.mpr (hnone last hslot).symm
      rw [hlast']
      exact Function.update_eq_self_iff.mpr (hnone v hv).symm
    · have hslot' : Function.update (Function.update h.slot last (.weakref o n)) v (.plain .nil) w = .weakref o' j :=
        hw'
      simp only [Function.update_apply] at hslot'
      split at hslot'
      · cases hslot'
      · split at hslot'
        · cases hslot'
          exact .inr (Int.natCast_nonneg _)
        · exact hw.indexes w o' j hslot'

/-! ## Moving -/

/-- The address of a reference is replaced in the vector. -/
theorem relocate_lists {n : Nat} (hv : h.slot v = .weakref o n) (hxs : Lists (h.weakrefs o) xs) (hn : n < xs.length) :
    ∃ wr, h.relocate v = some { h with weakrefs := Function.update h.weakrefs o (some wr) } ∧ wr.Holds (xs.set n v) := by
  cases hwr : h.weakrefs o with
  | none =>
    rw [hwr] at hxs
    rw [show xs = [] from hxs] at hn
    cases hn
  | some wr =>
    rw [hwr] at hxs
    have hxs : wr.Holds xs := hxs
    obtain ⟨refs, hrefs, hstored, hlength⟩ := Block.store_start hxs.stored hn rfl v
    unfold WeakHeap.relocate
    rw [hv]
    dsimp only
    rw [hwr, Option.bind_some, hrefs]
    refine ⟨_, rfl, ?_, ?_, hxs.small, hlength.trans hxs.length_eq, hstored⟩
    · rw [List.length_set]
      exact hxs.nrefs_eq
    · rw [List.length_set]
      exact hxs.fits

theorem index_of_weakref {n : Nat} (hv : h.slot v = .weakref o n) : h.index o v = some n := by
  unfold index
  rw [hv]
  exact index?_nat

theorem index_ne (hv : h.slot v = .weakref o i) (ho : o' ≠ o) : h.index o' v = none := by
  unfold index
  rw [hv]
  exact index?_ne (Ne.symm ho)

/-- A value that is moved takes its place in the vector with it. -/
theorem Wired.move (hw : h.Wired) (hv : ¬ (h.slot v).Attached) (hu : ∀ o, h.slot u ≠ .weakref o weakrefUnwired) :
    ∃ k, h.move v u = some k ∧ k.Wired := by
  have hfree : ¬ Slot.free.Attached := not_false
  unfold WeakHeap.move
  dsimp only
  by_cases hattached : (h.slot u).Attached
  · cases hslot : h.slot u with
    | weakref o i =>
      rw [hslot] at hattached
      obtain ⟨n, rfl, hindex⟩ := hw.index_of_attached hslot hattached
      obtain ⟨xs, hxs, hindexed⟩ := hw.vectors o
      have hmoved : ((h.put u .free).put v (.weakref o n)).slot v = .weakref o n := Function.update_self ..
      obtain ⟨wr, hwr, hholds⟩ := relocate_lists hmoved hxs (hindexed.lt hindex)
      dsimp only
      rw [hwr]
      have hindex' (o' : ObjId) : ((h.put u .free).put v (.weakref o n)).index o' =
          Function.update (Function.update (h.index o') u none) v ((Slot.weakref o n).index? o') := by
        rw [index_put, index_put]
        rfl
      refine ⟨_, rfl, hw.of_vector o ⟨xs.set n v, ?_, ?_⟩ (fun o' ho => Function.update_of_ne ho ..) (fun o' ho => ?_)
        fun w o' j hw' => ?_⟩
      · dsimp only
        rw [Function.update_self]
        exact hholds
      · refine Indexed.congr (hindexed.move hindex (index?_of_not_attached hv)) fun w => ?_
        exact (congrFun (hindex' o) w).trans (by rw [index?_nat])
      · refine (hindex' o').trans ?_
        have hu' : Function.update (h.index o') u none = h.index o' :=
          Function.update_eq_self_iff.mpr (index_ne hslot ho).symm
        rw [hu', index?_ne (Ne.symm ho)]
        exact Function.update_eq_self_iff.mpr (index?_of_not_attached hv).symm
      · have hslot' : Function.update (Function.update h.slot u .free) v (.weakref o n) w = .weakref o' j := hw'
        simp only [Function.update_apply] at hslot'
        split at hslot'
        · cases hslot'
          exact .inr (Int.natCast_nonneg _)
        · split at hslot'
          · cases hslot'
          · exact hw.indexes w o' j hslot'
    | _ => rw [hslot] at hattached; exact hattached.elim
  · have hput : ((h.put u .free).put v (h.slot u)).Wired := by
      refine (hw.put hattached hfree).put ?_ hattached
      show ¬ (Function.update h.slot u .free v).Attached
      rw [Function.update_apply]
      split
      · exact hfree
      · exact hv
    cases hslot : h.slot u with
    | weakref o i =>
      rw [hslot] at hattached
      obtain rfl : i = weakrefUnwired := not_not.mp hattached
      exact absurd hslot (hu o)
    | _ =>
      rw [hslot] at hput
      exact ⟨_, rfl, hput⟩

/-! ## Killing -/

theorem foldl_update_nil (slot : Addr → Slot) (xs : List Addr) (w : Addr) :
    xs.foldl (fun slot v => Function.update slot v (.plain .nil)) slot w = if w ∈ xs then .plain .nil else slot w := by
  induction xs generalizing slot with
  | nil => exact (if_neg List.not_mem_nil).symm
  | cons v xs ih =>
    rw [List.foldl_cons, ih]
    by_cases hw : w ∈ xs
    · rw [if_pos hw, if_pos (List.mem_cons_of_mem v hw)]
    · rw [if_neg hw, Function.update_apply]
      by_cases hwv : w = v
      · rw [if_pos hwv, if_pos (hwv ▸ List.mem_cons_self)]
      · rw [if_neg hwv, if_neg fun h => (List.mem_cons.mp h).elim hwv hw]

/-- All references to an object that are attached become nil. -/
theorem Wired.killWeakrefs (hw : h.Wired) (o : ObjId) :
    ∃ k, h.killWeakrefs o = some k ∧ k.Wired ∧ ∀ v i, k.slot v = .weakref o i → i = weakrefUnwired := by
  obtain ⟨xs, hxs, hindexed⟩ := hw.vectors o
  have hmem {v : Addr} {i : Int} (hv : h.slot v = .weakref o i) (hi : i ≠ weakrefUnwired) : v ∈ xs := by
    obtain ⟨n, -, hn⟩ := hw.index_of_attached hv hi
    exact hindexed.mem_iff.mpr ⟨n, hn⟩
  unfold WeakHeap.killWeakrefs
  cases hwr : h.weakrefs o with
  | none =>
    rw [hwr] at hxs
    obtain rfl : xs = [] := hxs
    exact ⟨h, rfl, hw, fun v i hv => by_contra fun hi => List.not_mem_nil (hmem hv hi)⟩
  | some wr =>
    rw [hwr] at hxs
    have hxs : wr.Holds xs := hxs
    dsimp only
    rw [hxs.nrefs_eq, Int.toNat_natCast, Block.read_all hxs.stored]
    have hslot (w : Addr) := foldl_update_nil h.slot xs w
    refine ⟨_, rfl, hw.of_vector o ⟨[], ?_, ?_⟩ (fun o' ho => Function.update_of_ne ho ..) (fun o' ho => ?_)
      fun w o' j hw' => ?_,
      fun v i hv => ?_⟩
    · dsimp only
      rw [Function.update_self]
      rfl
    · refine indexed_nil.congr fun w => ?_
      unfold index
      dsimp only
      rw [hslot w]
      split
      · rfl
      · rename_i hw'
        cases hindex : h.index o w with
        | none => exact hindex
        | some n => exact absurd (hindexed.mem_iff.mpr ⟨n, hindex⟩) hw'
    · funext w
      unfold index
      dsimp only
      rw [hslot w]
      split
      · rename_i hw'
        obtain ⟨n, hn⟩ := hindexed.mem_iff.mp hw'
        exact (index_ne (slot_of_index hn) ho).symm
      · rfl
    · dsimp only at hw'
      rw [hslot w] at hw'
      split at hw'
      · cases hw'
      · exact hw.indexes w o' j hw'
    · dsimp only at hv
      rw [hslot v] at hv
      split at hv
      · cases hv
      · rename_i hnot
        exact by_contra fun hi => hnot (hmem hv hi)

end WeakHeap

end Eel
