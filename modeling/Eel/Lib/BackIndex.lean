-- SUMMARY: Lists whose items know where they are: appending, removing in favour of the last one, moving and renaming.
import Mathlib.Data.List.Basic
import Mathlib.Data.List.Nodup
import Mathlib.Logic.Function.Basic

/-!
# Lists of items that know their indexes

Every item has an index or none. The items that have one are those of a list, and each is at
its index. So no item is there twice, and the last one can be put in the place of any other.
-/

namespace BackIndex

variable {ν μ : Type*}

/-- The items with an index are those of the list, each at its index. -/
def Indexed (index : ν → Option Nat) (xs : List ν) : Prop := ∀ v i, index v = some i ↔ xs[i]? = some v

variable {index : ν → Option Nat} {xs : List ν} {u v w : ν} {i : Nat}

theorem indexed_nil : Indexed (fun _ => none) ([] : List ν) := fun _ _ => ⟨nofun, nofun⟩

theorem Indexed.congr {index' : ν → Option Nat} (h : Indexed index xs) (heq : ∀ v, index' v = index v) :
    Indexed index' xs := fun v i => by rw [heq v]; exact h v i

theorem Indexed.lt (h : Indexed index xs) (hv : index v = some i) : i < xs.length :=
  (List.getElem?_eq_some_iff.mp ((h v i).mp hv)).1

theorem Indexed.mem_iff (h : Indexed index xs) : v ∈ xs ↔ ∃ i, index v = some i := by
  rw [List.mem_iff_getElem?]
  exact exists_congr fun i => (h v i).symm

theorem Indexed.nodup (h : Indexed index xs) : xs.Nodup := by
  rw [List.nodup_iff_injective_get]
  intro i j hij
  have hi : index (xs.get i) = some i := (h _ _).mpr (List.getElem?_eq_getElem i.isLt)
  have hj : index (xs.get j) = some j := (h _ _).mpr (List.getElem?_eq_getElem j.isLt)
  rw [hij, hj] at hi
  exact Fin.ext (Option.some.inj hi).symm

/-- Items keep their indexes under other names. -/
theorem Indexed.map {index' : μ → Option Nat} (h : Indexed index xs) (name : ν → μ)
    (hto : ∀ v i, index v = some i → index' (name v) = some i)
    (hof : ∀ w i, index' w = some i → ∃ v, index v = some i ∧ name v = w) : Indexed index' (xs.map name) := by
  intro w i
  rw [List.getElem?_map, Option.map_eq_some_iff]
  constructor
  · intro hw
    obtain ⟨v, hv, rfl⟩ := hof w i hw
    exact ⟨v, (h v i).mp hv, rfl⟩
  · rintro ⟨v, hv, rfl⟩
    exact hto v i ((h v i).mpr hv)

variable [DecidableEq ν]

/-- A new item goes to the end. -/
theorem Indexed.append (h : Indexed index xs) (hv : index v = none) :
    Indexed (Function.update index v (some xs.length)) (xs ++ [v]) := by
  intro w i
  rw [Function.update_apply, List.getElem?_append]
  by_cases hw : w = v
  · subst hw
    rw [if_pos rfl]
    constructor
    · rintro ⟨⟩
      rw [if_neg (Nat.lt_irrefl _), Nat.sub_self]
      rfl
    · intro hi
      split at hi
      · cases hv.symm.trans ((h w i).mpr hi)
      · have hlt := (List.getElem?_eq_some_iff.mp hi).1
        rw [List.length_singleton] at hlt
        rw [show i = xs.length by omega]
  · rw [if_neg hw, h w i]
    split
    · rfl
    · rename_i hge
      refine iff_of_false (fun hi => hge (List.getElem?_eq_some_iff.mp hi).1) fun hi => ?_
      obtain ⟨hlt, heq⟩ := List.getElem?_eq_some_iff.mp hi
      rw [List.length_singleton] at hlt
      have hzero : i - xs.length = 0 := by omega
      simp only [hzero, List.getElem_cons_zero] at heq
      exact hw heq.symm

/-- An item that has moved takes its index with it. -/
theorem Indexed.move (h : Indexed index xs) (hu : index u = some i) (hv : index v = none) :
    Indexed (Function.update (Function.update index u none) v (some i)) (xs.set i v) := by
  have hi := h.lt hu
  intro w j
  rw [Function.update_apply, List.getElem?_set]
  by_cases hw : w = v
  · subst hw
    rw [if_pos rfl]
    by_cases hij : i = j
    · subst hij
      rw [if_pos rfl, if_pos hi]
      exact iff_of_true rfl rfl
    · rw [if_neg hij]
      refine iff_of_false (fun heq => hij (Option.some.inj heq)) fun hj => ?_
      cases hv.symm.trans ((h w j).mpr hj)
  · rw [if_neg hw, Function.update_apply]
    by_cases hij : i = j
    · subst hij
      rw [if_pos rfl, if_pos hi]
      refine iff_of_false (fun heq => ?_) fun heq => hw (Option.some.inj heq).symm
      split at heq
      · cases heq
      · rename_i hwu
        exact hwu (Option.some.inj (((h w i).mp heq).symm.trans ((h u i).mp hu)))
    · rw [if_neg hij, ← h w j]
      by_cases hwu : w = u
      · subst hwu
        rw [if_pos rfl]
        exact iff_of_false (by rintro ⟨⟩) fun heq => hij (Option.some.inj (hu.symm.trans heq))
      · rw [if_neg hwu]

/-- The last item leaves. -/
theorem Indexed.dropLast (h : Indexed index xs) (hv : index v = some (xs.length - 1)) :
    Indexed (Function.update index v none) xs.dropLast := by
  have hlt := h.lt hv
  intro w j
  rw [Function.update_apply, List.getElem?_dropLast]
  by_cases hw : w = v
  · subst hw
    rw [if_pos rfl]
    refine iff_of_false (by rintro ⟨⟩) fun hj => ?_
    split at hj
    · have heq := Option.some.inj (hv.symm.trans ((h w j).mpr hj))
      omega
    · cases hj
  · rw [if_neg hw]
    split
    · exact h w j
    · refine iff_of_false (fun hj => ?_) (by rintro ⟨⟩)
      have hjlt := h.lt hj
      have heq : j = xs.length - 1 := by omega
      rw [heq] at hj
      exact hw (Option.some.inj (((h w _).mp hj).symm.trans ((h v _).mp hv)))

/-- An item leaves, and the last one takes its place. -/
theorem Indexed.replaceByLast (h : Indexed index xs) (hv : index v = some i) (hlast : xs.getLast? = some u) :
    Indexed (Function.update (Function.update index u (some i)) v none) (xs.set i u).dropLast := by
  have hi := h.lt hv
  rw [List.getLast?_eq_getElem?] at hlast
  have hu : index u = some (xs.length - 1) := (h u _).mpr hlast
  by_cases huv : u = v
  · subst huv
    obtain rfl : i = xs.length - 1 := Option.some.inj (hv.symm.trans hu)
    have hset : xs.set (xs.length - 1) u = xs := by
      obtain ⟨hlt, heq⟩ := List.getElem?_eq_some_iff.mp hlast
      rw [← heq]
      exact List.set_getElem_self hlt
    rw [hset, Function.update_idem]
    exact h.dropLast hu
  · have hlt : i < xs.length - 1 := by
      by_contra hge
      have heq : i = xs.length - 1 := by omega
      rw [heq] at hv
      exact huv (Option.some.inj (((h u _).mp hu).symm.trans ((h v _).mp hv)))
    -- The last one leaves, and comes back where `v` is.
    have hdrop := h.dropLast hu
    have hmove := hdrop.move ((Function.update_of_ne (Ne.symm huv) _ _).trans hv) (Function.update_self u none index)
    have hset : (xs.set i u).dropLast = xs.dropLast.set i u := by
      rw [List.dropLast_eq_take, List.dropLast_eq_take, List.length_set, List.take_set]
    rw [hset]
    refine hmove.congr fun w => ?_
    simp only [Function.update_apply]
    by_cases hwv : w = v
    · rw [if_pos hwv, if_neg (by rw [hwv]; exact Ne.symm huv), if_pos hwv]
    · by_cases hwu : w = u
      · rw [if_neg hwv, if_pos hwu, if_pos hwu]
      · rw [if_neg hwv, if_neg hwu, if_neg hwu, if_neg hwv, if_neg hwu]

end BackIndex
