-- SUMMARY: Tagged sequences in which groups of neighbours are replaced by single items that keep one of their tags.
import Mathlib.Data.List.Basic

/-!
# Regrouping

Items carry tags. `Regroups` says that one sequence comes from another by replacing groups of
neighbours, each by an item with the tag of one of them. Groups may go without replacement when
`drop` holds.
-/

inductive Regroups {α τ : Type} (drop : Prop) : List (α × τ) → List (α × τ) → Prop where
  | nil : Regroups drop [] []
  | keep {group xs ys : List (α × τ)} (x : α) {t : τ} (ht : t ∈ group.map Prod.snd)
      (h : Regroups drop xs ys) : Regroups drop (group ++ xs) ((x, t) :: ys)
  | gone {xs ys : List (α × τ)} (hdrop : drop) (group : List (α × τ)) (h : Regroups drop xs ys) :
      Regroups drop (group ++ xs) ys

namespace Regroups

variable {α τ : Type} {drop : Prop} {xs ys zs xs' ys' : List (α × τ)} {t : τ}

theorem refl (xs : List (α × τ)) : Regroups drop xs xs := by
  induction xs with
  | nil => exact .nil
  | cons x xs ih => exact @Regroups.keep _ _ _ [x] xs xs x.1 x.2 (List.mem_singleton.mpr rfl) ih

/-- Sequences are regrouped piece by piece. -/
theorem append (h : Regroups drop xs ys) (h' : Regroups drop xs' ys') :
    Regroups drop (xs ++ xs') (ys ++ ys') := by
  induction h with
  | nil => exact h'
  | keep x ht _ ih =>
    rw [List.append_assoc]
    exact .keep x ht ih
  | gone hdrop group _ ih =>
    rw [List.append_assoc]
    exact .gone hdrop group ih

theorem append_left (zs : List (α × τ)) (h : Regroups drop xs ys) :
    Regroups drop (zs ++ xs) (zs ++ ys) :=
  (refl zs).append h

/-- Tags come from where the items do. -/
theorem mem_tag (h : Regroups drop xs ys) (ht : t ∈ ys.map Prod.snd) : t ∈ xs.map Prod.snd := by
  induction h with
  | nil => exact ht
  | keep x hx _ ih =>
    rw [List.map_append, List.mem_append]
    rcases List.mem_cons.mp ht with rfl | ht
    · exact .inl hx
    · exact .inr (ih ht)
  | gone _ group _ ih =>
    rw [List.map_append, List.mem_append]
    exact .inr (ih ht)

/-- What became of the pieces of a sequence came from pieces. -/
theorem split (h : Regroups drop xs (ys ++ zs)) :
    ∃ ys' zs', xs = ys' ++ zs' ∧ Regroups drop ys' ys ∧ Regroups drop zs' zs := by
  generalize hall : ys ++ zs = all at h
  induction h generalizing ys with
  | nil =>
    obtain ⟨rfl, rfl⟩ := List.append_eq_nil_iff.mp hall
    exact ⟨[], [], rfl, .nil, .nil⟩
  | @keep group xs rest x t ht h ih =>
    cases ys with
    | nil =>
      obtain rfl : zs = (x, t) :: rest := hall
      exact ⟨[], group ++ xs, rfl, .nil, .keep x ht h⟩
    | cons y ys =>
      obtain ⟨rfl, hrest⟩ := List.cons.inj hall
      obtain ⟨ys', zs', rfl, hys, hzs⟩ := ih hrest
      exact ⟨group ++ ys', zs', (List.append_assoc _ _ _).symm, .keep x ht hys, hzs⟩
  | gone hdrop group _ ih =>
    obtain ⟨ys', zs', rfl, hys, hzs⟩ := ih hall
    exact ⟨group ++ ys', zs', (List.append_assoc _ _ _).symm, .gone hdrop group hys, hzs⟩

/-- Regrouping again. -/
theorem trans (h : Regroups drop xs ys) (h' : Regroups drop ys zs) : Regroups drop xs zs := by
  induction h' generalizing xs with
  | nil => exact h
  | keep x ht _ ih =>
    obtain ⟨group', xs', rfl, hgroup, hrest⟩ := h.split
    exact .keep x (hgroup.mem_tag ht) (ih hrest)
  | gone hdrop group _ ih =>
    obtain ⟨group', xs', rfl, -, hrest⟩ := h.split
    exact .gone hdrop group' (ih hrest)

end Regroups
