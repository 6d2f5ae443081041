-- SUMMARY: The keys of tables: when two tables have the same ones, and what is found and set under a key.
import Eel.Core.TableMap
import Mathlib.Data.Finset.Card

/-!
# The keys of tables

What a loop over the items of one table sees of the keys of another one.
-/

namespace Eel

namespace Table

variable {O : Objects} {t t' : Table} {k v : Value}

/-- The keys of a table. -/
def keys (t : Table) : Finset Value := (Finset.range t.length).image fun i => (t.items i).key

theorem mem_keys : k ∈ t.keys ↔ ∃ v, t.Holds k v := by
  unfold keys
  rw [Finset.mem_image]
  constructor
  · rintro ⟨i, hi, rfl⟩
    exact ⟨_, i, Finset.mem_range.mp hi, rfl, rfl⟩
  · rintro ⟨v, i, hi, rfl, -⟩
    exact ⟨i, Finset.mem_range.mpr hi, rfl⟩

theorem Inv.card_keys (ht : t.Inv O) : t.keys.card = t.length := by
  unfold keys
  rw [Finset.card_image_of_injOn, Finset.card_range]
  intro i hi j hj heq
  exact ht.unique i (Finset.mem_range.mp hi) j (Finset.mem_range.mp hj) heq

/-- Tables have the same keys if they are of one length and one of them has all keys of the other one. -/
theorem Inv.same_keys_iff (ht : t.Inv O) (ht' : t'.Inv O) : (∀ k, (∃ v, t.Holds k v) ↔ ∃ v, t'.Holds k v) ↔
    t.length = t'.length ∧ ∀ i < t.length, ∃ v, t'.Holds (t.items i).key v := by
  constructor
  · intro h
    have hkeys : t.keys = t'.keys := Finset.ext fun k => by rw [mem_keys, mem_keys, h k]
    refine ⟨by rw [← ht.card_keys, hkeys, ht'.card_keys], fun i hi => ?_⟩
    exact (h _).mp ⟨_, i, hi, rfl, rfl⟩
  · rintro ⟨hlength, h⟩ k
    have hsub : t.keys ⊆ t'.keys := by
      intro k hk
      obtain ⟨v, i, hi, rfl, -⟩ := mem_keys.mp hk
      exact mem_keys.mpr (h i hi)
    have hcard : t'.keys.card ≤ t.keys.card := by rw [ht.card_keys, ht'.card_keys, hlength]
    rw [← mem_keys, ← mem_keys, Finset.eq_of_subset_of_card_le hsub hcard]

/-- A key that is in the table is found. -/
theorem Inv.getIndex_of_holds (ht : t.Inv O) (h : t.Holds k v) : t.getIndex O k = .ok v.copy := by
  obtain ⟨i, hi, rfl, rfl⟩ := h
  have hfound := ht.find_found (ht.plain i hi)
  unfold getIndex
  generalize t.find O (t.items i).key ((t.items i).key.hash O) = pos at hfound
  cases hfound with
  | @hit j hj hkey =>
    obtain rfl := ht.unique j hj i hi hkey
    rfl
  | miss _ hne => exact absurd rfl (hne i hi)

theorem Inv.getIndex_of_absent (ht : t.Inv O) (hk : k.PlainKey O) (h : ∀ v, ¬ t.Holds k v) :
    t.getIndex O k = .error .wrongIndex := by
  have hfound := ht.find_found hk
  unfold getIndex
  generalize t.find O k (k.hash O) = pos at hfound
  cases hfound with
  | hit hi hkey => exact absurd ⟨_, hi, hkey, rfl⟩ (h _)
  | miss => rfl

/-- A table stands for some map. -/
theorem Inv.represents (ht : t.Inv O) : ∃ m, t.Represents O m := by
  classical
  refine ⟨fun k => if h : ∃ v, t.Holds k v then some h.choose else none, ht, fun k v => ?_⟩
  constructor
  · intro h
    have hex : ∃ v, t.Holds k v := ⟨v, h⟩
    rw [dif_pos hex, ht.holds_unique hex.choose_spec h]
  · intro h
    split at h
    case isTrue hex =>
      cases h
      exact hex.choose_spec
    case isFalse => cases h

/-- What a table holds after a value has been set. -/
theorem Inv.holds_setIndex (ht : t.Inv O) (hk : k.PlainKey O) (v : Value) {k' v' : Value} :
    (t.setIndex O k v).Holds k' v' ↔ k' = k ∧ v' = v.copy ∨ k' ≠ k ∧ t.Holds k' v' := by
  obtain ⟨m, hm⟩ := ht.represents
  rw [(hm.setIndex v hk).entries, hm.entries, FiniteMap.set]
  by_cases heq : k' = k
  · subst heq
    simp [eq_comm]
  · simp [heq]

theorem Inv.setIndex (ht : t.Inv O) (hk : k.PlainKey O) (v : Value) : (t.setIndex O k v).Inv O := by
  obtain ⟨m, hm⟩ := ht.represents
  exact (hm.setIndex v hk).inv

end Table

end Eel
