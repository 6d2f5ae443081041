-- SUMMARY: Nodes that are linked both ways: segments of them, what surgery leaves of one, and the traversals.
import Mathlib.Data.List.Nodup
import Mathlib.Logic.Function.Basic

/-!
# Linked nodes

Every node has a link to the one behind it, and a link back. Of what a link back leads to,
only one thing is assumed: there is one to each node. It may lead to other things too, such
as a header or nowhere.
-/

namespace Linked

variable {ν π : Type*} {node : ν → π} {prev prev' : ν → π} {next next' : ν → Option ν}

/-- What the link in front of these nodes leads to. -/
def front (after : Option ν) : List ν → Option ν
  | [] => after
  | c :: _ => some c

/-- What the link back behind these nodes leads to. -/
def back (node : ν → π) (before : π) : List ν → π
  | [] => before
  | c :: l => back node (node c) l

/-- The nodes are linked in this order, between `before` and `after`. -/
def Seg (node : ν → π) (prev : ν → π) (next : ν → Option ν) (before : π) : List ν → Option ν → Prop
  | [], _ => True
  | c :: l, after => prev c = before ∧ next c = front after l ∧ Seg node prev next (node c) l after

variable {before before' : π} {after after' : Option ν} {c : ν} {l l' : List ν}

theorem front_append : front after (l ++ l') = front (front after l') l := by
  cases l <;> rfl

theorem back_append : back node before (l ++ l') = back node (back node before l) l' := by
  induction l generalizing before with
  | nil => rfl
  | cons c l ih => exact ih

theorem back_concat : back node before (l ++ [c]) = node c := by
  rw [back_append]
  rfl

/-- A node that the links lead back to is one of these. -/
theorem mem_of_back (hnode : Function.Injective node) (hbefore : ∀ d, node d ≠ before)
    (h : back node before l = node c) : c ∈ l := by
  rcases List.eq_nil_or_concat l with rfl | ⟨rest, x, rfl⟩
  · exact absurd h.symm (hbefore c)
  · rw [List.concat_eq_append] at h ⊢
    rw [← hnode (back_concat.symm.trans h)]
    exact List.mem_append_right _ (List.mem_singleton_self x)

theorem front_none : front none l = l.head? := by
  cases l <;> rfl

/-- The last node, if links back lead to nodes or nowhere. -/
theorem back_some {first : Option ν} : back some first l = l.getLast?.or first := by
  induction l generalizing first with
  | nil => rfl
  | cons c l ih =>
    rw [List.getLast?_cons, back, ih]
    cases l.getLast? <;> rfl

namespace Seg

theorem nil : Seg node prev next before [] after := trivial

theorem singleton (hprev : prev c = before) (hnext : next c = after) : Seg node prev next before [c] after :=
  ⟨hprev, hnext, trivial⟩

theorem append_iff :
    Seg node prev next before (l ++ l') after ↔
      Seg node prev next before l (front after l') ∧ Seg node prev next (back node before l) l' after := by
  induction l generalizing before with
  | nil => exact ⟨fun h => ⟨trivial, h⟩, fun h => h.2⟩
  | cons c l ih =>
    show _ ∧ next c = front after (l ++ l') ∧ Seg node prev next (node c) (l ++ l') after ↔ (_ ∧ _ ∧ _) ∧ _
    rw [ih, front_append, and_assoc, and_assoc]
    rfl

theorem concat_iff :
    Seg node prev next before (l ++ [c]) after ↔
      Seg node prev next before l (some c) ∧ prev c = back node before l ∧ next c = after := by
  rw [append_iff]
  exact ⟨fun ⟨hl, hprev, hnext, _⟩ => ⟨hl, hprev, hnext⟩, fun ⟨hl, hprev, hnext⟩ => ⟨hl, hprev, hnext, trivial⟩⟩

/-- Only the links of these nodes matter. -/
theorem congr (h : Seg node prev next before l after) (hprev : ∀ c ∈ l, prev' c = prev c)
    (hnext : ∀ c ∈ l, next' c = next c) : Seg node prev' next' before l after := by
  induction l generalizing before with
  | nil => trivial
  | cons c l ih =>
    obtain ⟨hp, hn, hrest⟩ := h
    refine ⟨(hprev c List.mem_cons_self).trans hp, (hnext c List.mem_cons_self).trans hn, ih hrest ?_ ?_⟩
    · exact fun d hd => hprev d (List.mem_cons_of_mem c hd)
    · exact fun d hd => hnext d (List.mem_cons_of_mem c hd)

/-- Links back may be seen as other ones, such as those to nodes only. -/
theorem map_prev {π' : Type*} {node' : ν → π'} {f : π → π'} (hf : ∀ c, f (node c) = node' c)
    (h : Seg node prev next before l after) : Seg node' (f ∘ prev) next (f before) l after := by
  induction l generalizing before with
  | nil => trivial
  | cons c l ih =>
    obtain ⟨hprev, hnext, hrest⟩ := h
    refine ⟨congrArg f hprev, hnext, ?_⟩
    rw [← hf c]
    exact ih hrest

/-- A node between two segments has the links between them. -/
theorem middle (h : Seg node prev next before (l ++ c :: l') after) :
    prev c = back node before l ∧ next c = front after l' :=
  have ⟨_, hprev, hnext, _⟩ := append_iff.mp h
  ⟨hprev, hnext⟩

/-! ## Surgery -/

/-- The first node gets another link back. -/
theorem set_before (h : Seg node prev next before (c :: l) after) (hprev : prev' c = before')
    (hothers : ∀ d ∈ l, prev' d = prev d) (hnext : ∀ d ∈ c :: l, next' d = next d) :
    Seg node prev' next' before' (c :: l) after := by
  obtain ⟨_, hn, hrest⟩ := h
  refine ⟨hprev, (hnext c List.mem_cons_self).trans hn, hrest.congr hothers ?_⟩
  exact fun d hd => hnext d (List.mem_cons_of_mem c hd)

/-- The last node gets another link. -/
theorem set_after (h : Seg node prev next before (l ++ [c]) after) (hnext : next' c = after')
    (hothers : ∀ d ∈ l, next' d = next d) (hprev : ∀ d ∈ l ++ [c], prev' d = prev d) :
    Seg node prev' next' before (l ++ [c]) after' := by
  obtain ⟨hl, hp, _⟩ := concat_iff.mp h
  refine concat_iff.mpr ⟨hl.congr ?_ hothers, (hprev c ?_).trans hp, hnext⟩
  · exact fun d hd => hprev d (List.mem_append_left _ hd)
  · exact List.mem_append_right _ (List.mem_singleton_self c)

/-- A node is taken out: what leads to it and what it leads back to get its links. -/
theorem remove (hnode : Function.Injective node) (hbefore : ∀ d, node d ≠ before) {a b : List ν}
    (hnodup : (a ++ c :: b).Nodup) (h : Seg node prev next before (a ++ c :: b) none)
    (hprev : ∀ d, d ≠ c → next c = some d → prev' d = prev c) (hprev' : ∀ d, d ≠ c → next c ≠ some d → prev' d = prev d)
    (hnext : ∀ d, d ≠ c → prev c = node d → next' d = next c)
    (hnext' : ∀ d, d ≠ c → prev c ≠ node d → next' d = next d) :
    Seg node prev' next' before (a ++ b) none := by
  obtain ⟨hpc, hnc⟩ := h.middle
  obtain ⟨hna, hncb, hac⟩ := List.nodup_append.mp hnodup
  obtain ⟨hcb, hnb⟩ := List.nodup_cons.mp hncb
  have hne : ∀ d ∈ a, d ≠ c := fun d hd => hac d hd c List.mem_cons_self
  have hne' : ∀ d ∈ b, d ≠ c := fun d hd heq => hcb (heq ▸ hd)
  -- What leads to the node is in front of it, and what it leads to is behind it.
  have hmem_a : ∀ d, prev c = node d → d ∈ a := fun d hd => mem_of_back hnode hbefore (hpc.symm.trans hd)
  have hmem_b : ∀ d, next c = some d → d ∈ b := by
    intro d hd
    rw [hnc, front_none] at hd
    exact List.mem_of_head? hd
  have hprev_a : ∀ d ∈ a, prev' d = prev d := fun d hd =>
    hprev' d (hne d hd) fun heq => hac d hd d (List.mem_cons_of_mem c (hmem_b d heq)) rfl
  have hnext_b : ∀ d ∈ b, next' d = next d := fun d hd =>
    hnext' d (hne' d hd) fun heq => hac d (hmem_a d heq) d (List.mem_cons_of_mem c hd) rfl
  obtain ⟨ha, -, -, hb⟩ := append_iff.mp h
  refine append_iff.mpr ⟨?_, ?_⟩
  · rcases List.eq_nil_or_concat a with rfl | ⟨rest, x, rfl⟩
    · trivial
    · rw [List.concat_eq_append] at *
      have hx : prev c = node x := hpc.trans back_concat
      have hxr : x ∉ rest := by
        rw [List.nodup_append_comm] at hna
        exact (List.nodup_cons.mp hna).1
      refine ha.set_after ?_ ?_ hprev_a
      · rw [hnext x (hne x (List.mem_append_right _ (List.mem_singleton_self x))) hx, hnc]
      · intro d hd
        refine hnext' d (hne d (List.mem_append_left _ hd)) fun heq => hxr ?_
        rw [hnode (hx.symm.trans heq)]
        exact hd
  · cases b with
    | nil => trivial
    | cons y b =>
      refine hb.set_before ?_ ?_ hnext_b
      · rw [hprev y (hne' y List.mem_cons_self) hnc, hpc]
      · intro d hd
        refine hprev' d (hne' d (List.mem_cons_of_mem y hd)) fun heq => (List.nodup_cons.mp hnb).1 ?_
        rw [Option.some.inj (hnc.symm.trans heq)]
        exact hd

end Seg

/-! ## Traversals -/

/-- Following links from here, these nodes are visited, and then there is no link. -/
inductive Visits (link : ν → Option ν) : Option ν → List ν → Prop
  | done : Visits link none []
  | visit {c : ν} {l : List ν} : Visits link (link c) l → Visits link (some c) (c :: l)

/-- A traversal visits nodes in one way only. -/
theorem Visits.unique {link : ν → Option ν} {start : Option ν} (h : Visits link start l) (h' : Visits link start l') :
    l = l' := by
  induction h generalizing l' with
  | done =>
    cases h'
    rfl
  | visit _ ih =>
    cases h' with
    | visit hrest => rw [ih hrest]

theorem Seg.forward (h : Seg node prev next before l none) : Visits next l.head? l := by
  induction l generalizing before with
  | nil => exact .done
  | cons c l ih =>
    obtain ⟨_, hnext, hrest⟩ := h
    refine .visit ?_
    rw [hnext, front_none]
    exact ih hrest

/-- The nodes from the last one back. -/
theorem Seg.backward {prev : ν → Option ν} (h : Seg some prev next none l after) : Visits prev l.getLast? l.reverse := by
  induction hl : l.length generalizing l after with
  | zero =>
    obtain rfl := List.eq_nil_of_length_eq_zero hl
    exact .done
  | succ n ih =>
    obtain ⟨front, c, rfl⟩ : ∃ front c, l = front ++ [c] := by
      rcases List.eq_nil_or_concat l with rfl | ⟨front, c, rfl⟩
      · cases hl
      · exact ⟨front, c, List.concat_eq_append⟩
    obtain ⟨hfront, hprev, _⟩ := Seg.concat_iff.mp h
    rw [List.getLast?_concat, List.reverse_concat]
    refine .visit ?_
    rw [hprev, back_some, Option.or_none]
    refine ih hfront ?_
    rw [List.length_append] at hl
    exact Nat.succ.inj hl

end Linked
