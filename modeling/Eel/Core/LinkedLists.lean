-- SUMMARY: The templates of doubly linked lists and stacks: whatever is done, the links are those of the lists that are meant.
import Eel.Lib.Linked
import Mathlib.Data.List.Nodup

/-!
# Linked lists and stacks

Several lists share the links of their nodes, and a node is in one of them at most. What is
meant is a list of nodes for each of them. The operations change links only, so it has to
be shown that the links are those of what is meant.
-/

namespace Eel

open Linked

/-- The nodes and the lists of an `EEL_DLLIST`. -/
structure DlLists (ι ν : Type) where
  prev : ν → Option ν
  next : ν → Option ν
  first : ι → Option ν
  last : ι → Option ν

/-- The nodes and the stacks of an `EEL_DLSTACK`. A link back leads to a node or to the header of a stack. -/
structure DlStacks (ι ν : Type) where
  prev : ν → Option (ι ⊕ ν)
  next : ν → Option ν
  top : ι → Option ν

variable {ι ν : Type} [DecidableEq ι] [DecidableEq ν]

namespace DlLists

open Function

variable (m : DlLists ι ν)

/-! ## Operations -/

def push (p : ι) (c : ν) : DlLists ι ν :=
  match m.first p with
  | some f =>
    { m with
      next := update m.next c (some f)
      prev := update (update m.prev c none) f (some c)
      first := update m.first p (some c) }
  | none =>
    { prev := update m.prev c none
      next := update m.next c none
      first := update m.first p (some c)
      last := update m.last p (some c) }

def link (p : ι) (c : ν) : DlLists ι ν :=
  match m.last p with
  | some b =>
    { m with
      next := update (update m.next b (some c)) c none
      prev := update m.prev c (some b)
      last := update m.last p (some c) }
  | none =>
    { prev := update m.prev c none
      next := update m.next c none
      first := update m.first p (some c)
      last := update m.last p (some c) }

/-- The first half of `unlink`: what leads to the node leads to the one behind it. -/
def skip (p : ι) (c : ν) : DlLists ι ν :=
  match m.prev c with
  | some b => { m with next := update m.next b (m.next c) }
  | none => { m with first := update m.first p (m.next c) }

/-- The second half: what leads back to it leads to the one in front of it. -/
def skipBack (p : ι) (c : ν) : DlLists ι ν :=
  match m.next c with
  | some d => { m with prev := update m.prev d (m.prev c), next := update m.next c none }
  | none => { m with last := update m.last p (m.prev c) }

def unlink (p : ι) (c : ν) : DlLists ι ν :=
  let m := (m.skip p c).skipBack p c
  { m with prev := update m.prev c none }

/-- An operation. -/
inductive Op (ι ν : Type) where
  | push (p : ι) (c : ν)
  | link (p : ι) (c : ν)
  | unlink (p : ι) (c : ν)

def perform : Op ι ν → DlLists ι ν
  | .push p c => m.push p c
  | .link p c => m.link p c
  | .unlink p c => m.unlink p c

/-- What an operation means for the lists. -/
def Op.implied (lists : ι → List ν) : Op ι ν → ι → List ν
  | .push p c => update lists p (c :: lists p)
  | .link p c => update lists p (lists p ++ [c])
  | .unlink p c => update lists p ((lists p).filter (· ≠ c))

/-- A node is added only when it is in no list, and taken out of the list that it is in. -/
def Op.Ok (lists : ι → List ν) : Op ι ν → Prop
  | .push _ c | .link _ c => ∀ i, c ∉ lists i
  | .unlink p c => c ∈ lists p

/-- All operations of a sequence are. -/
def Allowed : (ι → List ν) → List (Op ι ν) → Prop
  | _, [] => True
  | lists, op :: ops => op.Ok lists ∧ Allowed (op.implied lists) ops

/-- The links are those of these lists. -/
structure Represents (lists : ι → List ν) : Prop where
  nodup : ∀ i, (lists i).Nodup
  apart : ∀ i j c, c ∈ lists i → c ∈ lists j → i = j
  seg : ∀ i, Seg some m.prev m.next none (lists i) none
  first : ∀ i, m.first i = (lists i).head?
  last : ∀ i, m.last i = (lists i).getLast?

/-! ## What `unlink` changes -/

section Unlink

variable {m} {p : ι} {c d : ν}

theorem skip_prev : (m.skip p c).prev = m.prev := by
  unfold skip
  split <;> rfl

theorem skip_next : (m.skip p c).next d = if m.prev c = some d then m.next c else m.next d := by
  unfold skip
  split
  · rename_i b hprev
    rcases eq_or_ne b d with rfl | hne
    · rw [if_pos hprev]
      exact update_self ..
    · rw [if_neg fun heq => hne (Option.some.inj (hprev.symm.trans heq))]
      exact update_of_ne hne.symm _ _
  · rename_i hprev
    have hno : m.prev c ≠ some d := by
      rw [hprev]
      rintro ⟨⟩
    rw [if_neg hno]

theorem skip_first : (m.skip p c).first = if m.prev c = none then update m.first p (m.next c) else m.first := by
  unfold skip
  split
  · rename_i b hprev
    rw [hprev, if_neg nofun]
  · rename_i hprev
    rw [if_pos hprev]

theorem skip_last : (m.skip p c).last = m.last := by
  unfold skip
  split <;> rfl

theorem skipBack_prev : (m.skipBack p c).prev d = if m.next c = some d then m.prev c else m.prev d := by
  unfold skipBack
  split
  · rename_i b hnext
    rcases eq_or_ne b d with rfl | hne
    · rw [if_pos hnext]
      exact update_self ..
    · rw [if_neg fun heq => hne (Option.some.inj (hnext.symm.trans heq))]
      exact update_of_ne hne.symm _ _
  · rename_i hnext
    have hno : m.next c ≠ some d := by
      rw [hnext]
      rintro ⟨⟩
    rw [if_neg hno]

theorem skipBack_next (hd : d ≠ c) : (m.skipBack p c).next d = m.next d := by
  unfold skipBack
  split
  · exact update_of_ne hd _ _
  · rfl

theorem skipBack_first : (m.skipBack p c).first = m.first := by
  unfold skipBack
  split <;> rfl

theorem skipBack_last : (m.skipBack p c).last = if m.next c = none then update m.last p (m.prev c) else m.last := by
  unfold skipBack
  split
  · rename_i b hnext
    rw [hnext, if_neg nofun]
  · rename_i hnext
    rw [if_pos hnext]

theorem skip_next_self : (m.skip p c).next c = m.next c := by
  rw [skip_next]
  split <;> rfl

theorem unlink_prev (hd : d ≠ c) :
    (m.unlink p c).prev d = if m.next c = some d then m.prev c else m.prev d := by
  refine (update_of_ne hd _ _).trans ?_
  rw [skipBack_prev, skip_next_self, skip_prev]

theorem unlink_next (hd : d ≠ c) :
    (m.unlink p c).next d = if m.prev c = some d then m.next c else m.next d :=
  (skipBack_next hd).trans skip_next

theorem unlink_first :
    (m.unlink p c).first = if m.prev c = none then update m.first p (m.next c) else m.first :=
  skipBack_first.trans skip_first

theorem unlink_last :
    (m.unlink p c).last = if m.next c = none then update m.last p (m.prev c) else m.last := by
  refine skipBack_last.trans ?_
  rw [skip_next_self, skip_last, skip_prev]

end Unlink

/-! ## One operation -/

/-- Taking a node out of a list leaves the others in their order. -/
theorem filter_middle {l a b : List ν} {c : ν} (hnodup : l.Nodup) (hl : l = a ++ c :: b) :
    l.filter (· ≠ c) = a ++ b := by
  obtain ⟨-, hcb, hac⟩ := List.nodup_append.mp (hl ▸ hnodup)
  have ha : ∀ d ∈ a, decide (d ≠ c) = true := fun d hd => decide_eq_true (hac d hd c List.mem_cons_self)
  have hb : ∀ d ∈ b, decide (d ≠ c) = true := by
    intro d hd
    exact decide_eq_true fun heq => (List.nodup_cons.mp hcb).1 (heq ▸ hd)
  rw [hl, List.filter_append, List.filter_cons_of_neg (by simp), List.filter_eq_self.mpr ha,
    List.filter_eq_self.mpr hb]

namespace Represents

variable {m} {m' : DlLists ι ν} {lists : ι → List ν} {p : ι} {c : ν} {l : List ν}

omit [DecidableEq ν] in
/-- A list is replaced by another one, of its nodes and those that have been in no list. The links of the
nodes in other lists stay. -/
theorem replace (h : m.Represents lists) (hnodup : l.Nodup) (hmem : ∀ d ∈ l, d ∈ lists p ∨ ∀ i, d ∉ lists i)
    (hseg : Seg some m'.prev m'.next none l none) (hfirst : m'.first = update m.first p l.head?)
    (hlast : m'.last = update m.last p l.getLast?)
    (hothers : ∀ i, i ≠ p → ∀ d ∈ lists i, m'.prev d = m.prev d ∧ m'.next d = m.next d) :
    m'.Represents (update lists p l) := by
  have happart : ∀ i d, i ≠ p → d ∈ l → d ∉ lists i := by
    intro i d hi hd hd'
    rcases hmem d hd with hp | hno
    · exact hi (h.apart i p d hd' hp)
    · exact hno i hd'
  refine { nodup := ?_, apart := ?_, seg := ?_, first := ?_, last := ?_ }
  · intro i
    rcases eq_or_ne i p with rfl | hi
    · rw [update_self]
      exact hnodup
    · rw [update_of_ne hi]
      exact h.nodup i
  · intro i j d hdi hdj
    rcases eq_or_ne i p with rfl | hi <;> rcases eq_or_ne j i with rfl | hij
    · rfl
    · rw [update_self] at hdi
      rw [update_of_ne hij] at hdj
      exact absurd hdj (happart j d hij hdi)
    · rfl
    · rw [update_of_ne hi] at hdi
      rcases eq_or_ne j p with rfl | hj
      · rw [update_self] at hdj
        exact absurd hdi (happart i d hi hdj)
      · rw [update_of_ne hj] at hdj
        exact h.apart i j d hdi hdj
  · intro i
    rcases eq_or_ne i p with rfl | hi
    · rw [update_self]
      exact hseg
    · rw [update_of_ne hi]
      exact (h.seg i).congr (fun d hd => (hothers i hi d hd).1) fun d hd => (hothers i hi d hd).2
  · intro i
    rw [hfirst]
    rcases eq_or_ne i p with rfl | hi
    · rw [update_self, update_self]
    · rw [update_of_ne hi, update_of_ne hi]
      exact h.first i
  · intro i
    rw [hlast]
    rcases eq_or_ne i p with rfl | hi
    · rw [update_self, update_self]
    · rw [update_of_ne hi, update_of_ne hi]
      exact h.last i

omit [DecidableEq ι] [DecidableEq ν] in
/-- A node that has been in no list may be anywhere in one. -/
theorem mem_or_new (hc : ∀ i, c ∉ lists i) (hl : ∀ d ∈ l, d = c ∨ d ∈ lists p) :
    ∀ d ∈ l, d ∈ lists p ∨ ∀ i, d ∉ lists i := by
  intro d hd
  rcases hl d hd with rfl | hp
  · exact .inr hc
  · exact .inl hp

theorem push (h : m.Represents lists) (hc : ∀ i, c ∉ lists i) :
    (m.push p c).Represents (update lists p (c :: lists p)) := by
  have hnodup : (c :: lists p).Nodup := List.nodup_cons.mpr ⟨hc p, h.nodup p⟩
  have hmem := mem_or_new (l := c :: lists p) hc fun d hd => List.mem_cons.mp hd
  have hne : ∀ i, ∀ d ∈ lists i, d ≠ c := fun i d hd heq => hc i (heq ▸ hd)
  unfold DlLists.push
  split
  · rename_i f hf
    obtain ⟨l, hl⟩ := List.head?_eq_some_iff.mp ((h.first p).symm.trans hf)
    have hfl : f ∉ l := (List.nodup_cons.mp (hl ▸ h.nodup p)).1
    have hmemf : f ∈ lists p := hl ▸ List.mem_cons_self
    refine h.replace hnodup hmem ?_ rfl ?_ ?_
    · have hseg := h.seg p
      rw [hl] at hseg ⊢
      refine ⟨(update_of_ne (hne p f hmemf).symm _ _).trans (update_self ..), update_self .., ?_⟩
      refine hseg.set_before (update_self ..) ?_ ?_
      · intro d hd
        have hdf : d ≠ f := fun heq => hfl (heq ▸ hd)
        exact (update_of_ne hdf _ _).trans (update_of_ne (hne p d (hl ▸ List.mem_cons_of_mem f hd)) _ _)
      · exact fun d hd => update_of_ne (hne p d (hl ▸ hd)) _ _
    · rw [hl, List.getLast?_cons_cons, ← hl, ← h.last p, update_eq_self]
    · intro i hi d hd
      have hdf : d ≠ f := fun heq => hi (h.apart i p d hd (heq ▸ hmemf))
      exact ⟨(update_of_ne hdf _ _).trans (update_of_ne (hne i d hd) _ _), update_of_ne (hne i d hd) _ _⟩
  · rename_i hf
    have hl := List.head?_eq_none_iff.mp ((h.first p).symm.trans hf)
    refine h.replace hnodup hmem ?_ rfl ?_ ?_
    · rw [hl]
      exact .singleton (update_self ..) (update_self ..)
    · rw [hl]
      rfl
    · exact fun i _ d hd => ⟨update_of_ne (hne i d hd) _ _, update_of_ne (hne i d hd) _ _⟩

theorem link (h : m.Represents lists) (hc : ∀ i, c ∉ lists i) :
    (m.link p c).Represents (update lists p (lists p ++ [c])) := by
  have hnodup : (lists p ++ [c]).Nodup := by
    rw [List.nodup_append_comm]
    exact List.nodup_cons.mpr ⟨hc p, h.nodup p⟩
  have hmem := mem_or_new (l := lists p ++ [c]) (p := p) hc fun d hd =>
    (List.mem_append.mp hd).symm.imp_left List.mem_singleton.mp
  have hne : ∀ i, ∀ d ∈ lists i, d ≠ c := fun i d hd heq => hc i (heq ▸ hd)
  unfold DlLists.link
  split
  · rename_i b hb
    obtain ⟨l, hl⟩ := List.getLast?_eq_some_iff.mp ((h.last p).symm.trans hb)
    have hmemb : b ∈ lists p := hl ▸ List.mem_append_right l (List.mem_singleton_self b)
    have hbl : b ∉ l := by
      have := h.nodup p
      rw [hl, List.nodup_append_comm] at this
      exact (List.nodup_cons.mp this).1
    refine h.replace hnodup hmem ?_ ?_ ?_ ?_
    · have hseg := h.seg p
      rw [hl] at hseg ⊢
      refine Seg.concat_iff.mpr ⟨?_, ?_, update_self ..⟩
      · refine hseg.set_after ((update_of_ne (hne p b hmemb) _ _).trans (update_self ..)) ?_ ?_
        · intro d hd
          have hdb : d ≠ b := fun heq => hbl (heq ▸ hd)
          exact (update_of_ne (hne p d (hl ▸ List.mem_append_left _ hd)) _ _).trans (update_of_ne hdb _ _)
        · exact fun d hd => update_of_ne (hne p d (hl ▸ hd)) _ _
      · rw [back_append]
        exact update_self ..
    · have hhead : (lists p ++ [c]).head? = (lists p).head? := by
        rw [hl]
        cases l <;> rfl
      rw [hhead, ← h.first p, update_eq_self]
    · rw [List.getLast?_concat]
    · intro i hi d hd
      have hdb : d ≠ b := fun heq => hi (h.apart i p d hd (heq ▸ hmemb))
      exact ⟨update_of_ne (hne i d hd) _ _, (update_of_ne (hne i d hd) _ _).trans (update_of_ne hdb _ _)⟩
  · rename_i hb
    have hl := List.getLast?_eq_none_iff.mp ((h.last p).symm.trans hb)
    refine h.replace hnodup hmem ?_ ?_ ?_ ?_
    · rw [hl]
      exact .singleton (update_self ..) (update_self ..)
    · rw [hl]
      rfl
    · rw [hl]
      rfl
    · exact fun i _ d hd => ⟨update_of_ne (hne i d hd) _ _, update_of_ne (hne i d hd) _ _⟩

theorem unlink (h : m.Represents lists) (hc : c ∈ lists p) :
    (m.unlink p c).Represents (update lists p ((lists p).filter (· ≠ c))) := by
  obtain ⟨a, b, hl⟩ := List.append_of_mem hc
  have hnodup := h.nodup p
  have hseg := h.seg p
  have hfilter := filter_middle hnodup hl
  rw [hl] at hnodup hseg
  obtain ⟨hprev, hnext⟩ := hseg.middle
  rw [back_some, Option.or_none] at hprev
  rw [front_none] at hnext
  have hsub : ∀ d ∈ a ++ b, d ∈ lists p := by
    intro d hd
    rw [hl]
    exact (List.mem_append.mp hd).elim (List.mem_append_left _) fun hd =>
      List.mem_append_right _ (List.mem_cons_of_mem c hd)
  refine h.replace ((h.nodup p).filter _) ?_ ?_ ?_ ?_ ?_
  · exact fun d hd => .inl (List.mem_of_mem_filter hd)
  · rw [hfilter]
    refine hseg.remove (fun _ _ => Option.some.inj) (fun _ => Option.some_ne_none _) hnodup ?_ ?_ ?_ ?_
    · exact fun d hd hlink => (unlink_prev hd).trans (if_pos hlink)
    · exact fun d hd hlink => (unlink_prev hd).trans (if_neg hlink)
    · exact fun d hd hlink => (unlink_next hd).trans (if_pos hlink)
    · exact fun d hd hlink => (unlink_next hd).trans (if_neg hlink)
  · rw [unlink_first, hfilter]
    cases a with
    | nil =>
      rw [if_pos (show m.prev c = none from hprev), hnext]
      rfl
    | cons x a =>
      have hsome : m.prev c ≠ none := by
        rw [hprev, List.getLast?_cons]
        rintro ⟨⟩
      have hhead : (x :: a ++ b).head? = m.first p := by
        rw [h.first p, hl]
        rfl
      rw [if_neg hsome, hhead, update_eq_self]
  · rw [unlink_last, hfilter]
    cases b with
    | nil =>
      rw [if_pos (show m.next c = none from hnext), hprev, List.append_nil]
    | cons y b =>
      have hsome : m.next c ≠ none := by
        rw [hnext]
        rintro ⟨⟩
      have hlast : (a ++ y :: b).getLast? = m.last p := by
        rw [h.last p, hl, List.getLast?_append, List.getLast?_append, List.getLast?_cons_cons, List.getLast?_cons]
      rw [if_neg hsome, hlast, update_eq_self]
  · intro i hi d hd
    have hdc : d ≠ c := fun heq => hi (h.apart i p d hd (heq ▸ hc))
    have hdp : d ∉ a ++ b := fun hmem => hi (h.apart i p d hd (hsub d hmem))
    rw [unlink_prev hdc, unlink_next hdc, hprev, hnext, if_neg, if_neg]
    · exact ⟨rfl, rfl⟩
    · exact fun heq => hdp (List.mem_append_left b (List.mem_of_getLast? heq))
    · exact fun heq => hdp (List.mem_append_right a (List.mem_of_head? heq))

/-- Each operation does what it means. -/
theorem perform (h : m.Represents lists) {op : Op ι ν} (hop : op.Ok lists) :
    (m.perform op).Represents (op.implied lists) := by
  cases op with
  | push p c => exact h.push hop
  | link p c => exact h.link hop
  | unlink p c => exact h.unlink hop

/-- And so does a sequence. -/
theorem run (h : m.Represents lists) {ops : List (Op ι ν)} (hops : Allowed lists ops) :
    (ops.foldl DlLists.perform m).Represents (ops.foldl (fun lists op => op.implied lists) lists) := by
  induction ops generalizing m lists with
  | nil => exact h
  | cons op ops ih => exact ih (h.perform hops.1) hops.2

omit [DecidableEq ι] [DecidableEq ν] in
/-- Without nodes in the lists, links do not matter. -/
theorem empty (hfirst : ∀ i, m.first i = none) (hlast : ∀ i, m.last i = none) : m.Represents fun _ => [] where
  nodup _ := List.nodup_nil
  apart _ _ _ hc := nomatch hc
  seg _ := .nil
  first := hfirst
  last := hlast

end Represents

/-- What is promised of lists: the traversals visit the nodes that are meant, in their order and in the opposite one,
the ends are where they are to be, and a node is in one list at most, once. -/
structure Linked (lists : ι → List ν) : Prop where
  forward : ∀ i, Visits m.next (m.first i) (lists i)
  backward : ∀ i, Visits m.prev (m.last i) (lists i).reverse
  first : ∀ i, m.first i = (lists i).head?
  last : ∀ i, m.last i = (lists i).getLast?
  once : ∀ i, (lists i).Nodup
  apart : ∀ i j c, c ∈ lists i → c ∈ lists j → i = j

omit [DecidableEq ι] [DecidableEq ν] in
theorem Represents.linked {m : DlLists ι ν} {lists : ι → List ν} (h : m.Represents lists) : m.Linked lists where
  forward i := by
    rw [h.first i]
    exact (h.seg i).forward
  backward i := by
    rw [h.last i]
    exact (h.seg i).backward
  first := h.first
  last := h.last
  once := h.nodup
  apart := h.apart

end DlLists

namespace DlStacks

open Function

variable (m : DlStacks ι ν)

/-! ## Operations on stacks -/

def push (s : ι) (o : ν) : DlStacks ι ν :=
  let next := update m.next o (m.top s)
  let prev :=
    match m.top s with
    | some t => update m.prev t (some (.inr o))
    | none => m.prev
  { prev := update prev o (some (.inl s)), next := next, top := update m.top s (some o) }

/-- The first half of `unlink`: the header is a node too, as far as this goes. -/
def skip (o : ν) : DlStacks ι ν :=
  match m.prev o with
  | some (.inl s) => { m with top := update m.top s (m.next o) }
  | some (.inr b) => { m with next := update m.next b (m.next o) }
  | none => m

/-- The second half. -/
def skipBack (o : ν) : DlStacks ι ν :=
  match m.next o with
  | some d => { m with prev := update m.prev d (m.prev o), next := update m.next o none }
  | none => m

def unlink (o : ν) : DlStacks ι ν :=
  let m := (m.skip o).skipBack o
  { m with prev := update m.prev o none }

/-- An operation. -/
inductive Op (ι ν : Type) where
  | push (s : ι) (o : ν)
  | unlink (o : ν)

def perform : Op ι ν → DlStacks ι ν
  | .push s o => m.push s o
  | .unlink o => m.unlink o

/-- What an operation means for the stacks. -/
def Op.implied (stacked : ι → List ν) : Op ι ν → ι → List ν
  | .push s o => update stacked s (o :: stacked s)
  | .unlink o => fun s => (stacked s).filter (· ≠ o)

/-- A node is pushed only when it is in no stack. Any node may be unlinked. -/
def Op.Ok (stacked : ι → List ν) : Op ι ν → Prop
  | .push _ o => ∀ s, o ∉ stacked s
  | .unlink _ => True

/-- All operations of a sequence are. -/
def Allowed : (ι → List ν) → List (Op ι ν) → Prop
  | _, [] => True
  | stacked, op :: ops => op.Ok stacked ∧ Allowed (op.implied stacked) ops

/-- The link back to a node. -/
def back (o : ν) : Option (ι ⊕ ν) := some (.inr o)

/-- The links are those of these stacks, and there are no others. -/
structure Represents (stacked : ι → List ν) : Prop where
  nodup : ∀ s, (stacked s).Nodup
  apart : ∀ s s' o, o ∈ stacked s → o ∈ stacked s' → s = s'
  seg : ∀ s, Seg back m.prev m.next (some (.inl s)) (stacked s) none
  top : ∀ s, m.top s = (stacked s).head?
  loose : ∀ o, (∀ s, o ∉ stacked s) → m.prev o = none ∧ m.next o = none

/-! ## What `unlink` of a stack changes -/

section Unlink

variable {m} {o d : ν} {s : ι}

omit [DecidableEq ι] [DecidableEq ν] in
theorem back_injective : Injective (back : ν → Option (ι ⊕ ν)) := fun _ _ h => Sum.inr.inj (Option.some.inj h)

theorem skip_prev : (m.skip o).prev = m.prev := by
  unfold skip
  split <;> rfl

theorem skip_next : (m.skip o).next d = if m.prev o = back d then m.next o else m.next d := by
  unfold skip
  split
  · rename_i s hprev
    have hno : m.prev o ≠ back d := by
      rw [hprev]
      rintro ⟨⟩
    rw [if_neg hno]
  · rename_i b hprev
    rcases eq_or_ne b d with rfl | hne
    · rw [if_pos (show m.prev o = back b from hprev)]
      exact update_self ..
    · rw [if_neg fun heq => hne (back_injective (hprev.symm.trans heq))]
      exact update_of_ne hne.symm _ _
  · rename_i hprev
    have hno : m.prev o ≠ back d := by
      rw [hprev]
      rintro ⟨⟩
    rw [if_neg hno]

theorem skip_next_self : (m.skip o).next o = m.next o := by
  rw [skip_next]
  split <;> rfl

theorem skip_top : (m.skip o).top s = if m.prev o = some (.inl s) then m.next o else m.top s := by
  unfold skip
  split
  · rename_i s' hprev
    rcases eq_or_ne s' s with rfl | hne
    · rw [if_pos hprev]
      exact update_self ..
    · rw [if_neg fun heq => hne (Sum.inl.inj (Option.some.inj (hprev.symm.trans heq)))]
      exact update_of_ne hne.symm _ _
  · rename_i b hprev
    have hno : m.prev o ≠ some (.inl s) := by
      rw [hprev]
      rintro ⟨⟩
    rw [if_neg hno]
  · rename_i hprev
    have hno : m.prev o ≠ some (.inl s) := by
      rw [hprev]
      rintro ⟨⟩
    rw [if_neg hno]

omit [DecidableEq ι] in
theorem skipBack_prev : (m.skipBack o).prev d = if m.next o = some d then m.prev o else m.prev d := by
  unfold skipBack
  split
  · rename_i b hnext
    rcases eq_or_ne b d with rfl | hne
    · rw [if_pos hnext]
      exact update_self ..
    · rw [if_neg fun heq => hne (Option.some.inj (hnext.symm.trans heq))]
      exact update_of_ne hne.symm _ _
  · rename_i hnext
    have hno : m.next o ≠ some d := by
      rw [hnext]
      rintro ⟨⟩
    rw [if_neg hno]

omit [DecidableEq ι] in
theorem skipBack_next (hd : d ≠ o) : (m.skipBack o).next d = m.next d := by
  unfold skipBack
  split
  · exact update_of_ne hd _ _
  · rfl

omit [DecidableEq ι] in
theorem skipBack_next_self : (m.skipBack o).next o = none := by
  unfold skipBack
  split
  · exact update_self ..
  · assumption

omit [DecidableEq ι] in
theorem skipBack_top : (m.skipBack o).top = m.top := by
  unfold skipBack
  split <;> rfl

theorem unlink_prev (hd : d ≠ o) : (m.unlink o).prev d = if m.next o = some d then m.prev o else m.prev d := by
  refine (update_of_ne hd _ _).trans ?_
  rw [skipBack_prev, skip_next_self, skip_prev]

theorem unlink_next (hd : d ≠ o) : (m.unlink o).next d = if m.prev o = back d then m.next o else m.next d :=
  (skipBack_next hd).trans skip_next

theorem unlink_top : (m.unlink o).top s = if m.prev o = some (.inl s) then m.next o else m.top s :=
  (congrFun skipBack_top s).trans skip_top

/-- The node has no links then. -/
theorem unlink_self : (m.unlink o).prev o = none ∧ (m.unlink o).next o = none :=
  ⟨update_self .., skipBack_next_self⟩

/-- A node that has no links is left alone, and so are the others. -/
theorem unlink_loose (hprev : m.prev o = none) (hnext : m.next o = none) : m.unlink o = m := by
  unfold unlink skip skipBack
  rw [hprev]
  dsimp only
  rw [hnext]
  dsimp only
  rw [← hprev, update_eq_self]

end Unlink

/-! ## One operation on a stack -/

section Push

variable {m} {o d : ν} {s : ι}

theorem push_prev (hd : d ≠ o) : (m.push s o).prev d = if m.top s = some d then back o else m.prev d := by
  refine (update_of_ne hd _ _).trans ?_
  cases htop : m.top s with
  | none => rfl
  | some t =>
    rcases eq_or_ne t d with rfl | hne
    · rw [if_pos rfl]
      exact update_self ..
    · rw [if_neg fun heq => hne (Option.some.inj heq)]
      exact update_of_ne hne.symm _ _

theorem push_next (hd : d ≠ o) : (m.push s o).next d = m.next d := update_of_ne hd _ _

theorem push_self : (m.push s o).prev o = some (.inl s) ∧ (m.push s o).next o = m.top s :=
  ⟨update_self .., update_self ..⟩

end Push

namespace Represents

variable {m} {stacked : ι → List ν} {s : ι} {o : ν}

theorem push (h : m.Represents stacked) (ho : ∀ s, o ∉ stacked s) :
    (m.push s o).Represents (update stacked s (o :: stacked s)) := by
  have hne : ∀ s', ∀ d ∈ stacked s', d ≠ o := fun s' d hd heq => ho s' (heq ▸ hd)
  have htop_mem : ∀ d, m.top s = some d → d ∈ stacked s := by
    intro d hd
    rw [h.top s] at hd
    exact List.mem_of_head? hd
  refine { nodup := ?_, apart := ?_, seg := ?_, top := ?_, loose := ?_ }
  · intro s'
    rcases eq_or_ne s' s with rfl | hs
    · rw [update_self]
      exact List.nodup_cons.mpr ⟨ho s', h.nodup s'⟩
    · rw [update_of_ne hs]
      exact h.nodup s'
  · have hmem : ∀ s' d, d ∈ update stacked s (o :: stacked s) s' → d = o ∧ s' = s ∨ d ∈ stacked s' := by
      intro s' d hd
      rcases eq_or_ne s' s with rfl | hs
      · rw [update_self] at hd
        exact (List.mem_cons.mp hd).imp_left fun heq => ⟨heq, rfl⟩
      · rw [update_of_ne hs] at hd
        exact .inr hd
    intro s₁ s₂ d h₁ h₂
    rcases hmem s₁ d h₁ with ⟨hd, hs₁⟩ | hd₁ <;> rcases hmem s₂ d h₂ with ⟨hd', hs₂⟩ | hd₂
    · rw [hs₁, hs₂]
    · exact absurd (hd ▸ hd₂) (ho s₂)
    · exact absurd (hd' ▸ hd₁) (ho s₁)
    · exact h.apart s₁ s₂ d hd₁ hd₂
  · intro s'
    have hseg := h.seg s'
    rcases eq_or_ne s' s with rfl | hs
    · rw [update_self]
      refine ⟨push_self.1, ?_, ?_⟩
      · rw [push_self.2, h.top s', front_none]
      · cases hl : stacked s' with
        | nil => trivial
        | cons t l =>
          have htop : m.top s' = some t := by
            rw [h.top s', hl]
            rfl
          have hnodup := h.nodup s'
          rw [hl] at hseg hnodup
          refine hseg.set_before ?_ ?_ fun d hd => push_next (hne s' d (hl ▸ hd))
          · rw [push_prev (hne s' t (hl ▸ List.mem_cons_self)), if_pos htop]
          · intro d hd
            have htd : m.top s' ≠ some d := by
              rw [htop]
              rintro ⟨⟩
              exact (List.nodup_cons.mp hnodup).1 hd
            rw [push_prev (hne s' d (hl ▸ List.mem_cons_of_mem t hd)), if_neg htd]
    · rw [update_of_ne hs]
      refine hseg.congr ?_ fun d hd => push_next (hne s' d hd)
      intro d hd
      rw [push_prev (hne s' d hd), if_neg fun heq => hs (h.apart s' s d hd (htop_mem d heq))]
  · intro s'
    show update m.top s (some o) s' = _
    rcases eq_or_ne s' s with rfl | hs
    · rw [update_self, update_self]
      rfl
    · rw [update_of_ne hs, update_of_ne hs]
      exact h.top s'
  · intro d hd
    have hself := hd s
    rw [update_self, List.mem_cons, not_or] at hself
    have hloose : ∀ s', d ∉ stacked s' := by
      intro s'
      rcases eq_or_ne s' s with rfl | hs
      · exact hself.2
      · have := hd s'
        rwa [update_of_ne hs] at this
    rw [push_prev hself.1, push_next hself.1, if_neg fun heq => hself.2 (htop_mem d heq)]
    exact h.loose d hloose

omit [DecidableEq ι] [DecidableEq ν] in
/-- The links of a node in a stack are to nodes in it. -/
theorem links_mem (h : m.Represents stacked) (ho : o ∈ stacked s) {d : ν} (hd : m.prev o = back d ∨ m.next o = some d) :
    d ∈ stacked s := by
  obtain ⟨a, b, hl⟩ := List.append_of_mem ho
  have hseg := h.seg s
  rw [hl] at hseg
  obtain ⟨hprev, hnext⟩ := hseg.middle
  rw [hl]
  rcases hd with hd | hd
  · refine List.mem_append_left _ (mem_of_back back_injective ?_ (hprev.symm.trans hd))
    rintro d ⟨⟩
  · rw [front_none] at hnext
    exact List.mem_append_right a (List.mem_cons_of_mem o (List.mem_of_head? (hnext.symm.trans hd)))

omit [DecidableEq ι] [DecidableEq ν] in
/-- Only the top has a link to a header, and it is that of its stack. -/
theorem header_iff (h : m.Represents stacked) (ho : o ∈ stacked s) {s' : ι} :
    m.prev o = some (.inl s') ↔ s' = s ∧ (stacked s).head? = some o := by
  obtain ⟨a, b, hl⟩ := List.append_of_mem ho
  have hseg := h.seg s
  have hnodup := h.nodup s
  rw [hl] at hseg hnodup ⊢
  obtain ⟨hprev, -⟩ := hseg.middle
  rcases List.eq_nil_or_concat a with rfl | ⟨rest, x, rfl⟩
  · have hheader : m.prev o = some (.inl s) := hprev
    rw [hheader, Option.some.injEq, Sum.inl.injEq]
    exact ⟨fun heq => ⟨heq.symm, rfl⟩, fun heq => heq.1.symm⟩
  · rw [List.concat_eq_append] at *
    have hno : m.prev o ≠ some (.inl s') := by
      rw [hprev, back_concat]
      rintro ⟨⟩
    refine iff_of_false hno ?_
    rintro ⟨-, hhead⟩
    have hmem : o ∈ rest ++ [x] := by
      cases rest with
      | nil =>
        rw [Option.some.inj hhead]
        exact List.mem_singleton_self o
      | cons y rest =>
        rw [← Option.some.inj hhead]
        exact List.mem_cons_self
    exact (List.nodup_append.mp hnodup).2.2 o hmem o List.mem_cons_self rfl

/-- The stacks without a node that is in one of them. -/
theorem unlink_of_mem (h : m.Represents stacked) (ho : o ∈ stacked s) :
    (m.unlink o).Represents fun s => (stacked s).filter (· ≠ o) := by
  obtain ⟨a, b, hl⟩ := List.append_of_mem ho
  have hfilter := DlLists.filter_middle (h.nodup s) hl
  have hother : ∀ s', s' ≠ s → (stacked s').filter (· ≠ o) = stacked s' := by
    intro s' hs
    refine List.filter_eq_self.mpr fun d hd => decide_eq_true fun heq => hs ?_
    exact h.apart s' s o (heq ▸ hd) ho
  refine { nodup := ?_, apart := ?_, seg := ?_, top := ?_, loose := ?_ }
  · exact fun s' => (h.nodup s').filter _
  · exact fun s₁ s₂ d h₁ h₂ => h.apart s₁ s₂ d (List.mem_of_mem_filter h₁) (List.mem_of_mem_filter h₂)
  · intro s'
    have hseg := h.seg s'
    rcases eq_or_ne s' s with rfl | hs
    · have hnodup := h.nodup s'
      rw [hl] at hseg hnodup
      rw [hfilter]
      refine hseg.remove back_injective ?_ hnodup ?_ ?_ ?_ ?_
      · rintro d ⟨⟩
      · exact fun d hd hlink => (unlink_prev hd).trans (if_pos hlink)
      · exact fun d hd hlink => (unlink_prev hd).trans (if_neg hlink)
      · exact fun d hd hlink => (unlink_next hd).trans (if_pos hlink)
      · exact fun d hd hlink => (unlink_next hd).trans (if_neg hlink)
    · rw [hother s' hs]
      refine hseg.congr ?_ ?_
      · intro d hd
        have hdo : d ≠ o := fun heq => hs (h.apart s' s o (heq ▸ hd) ho)
        rw [unlink_prev hdo, if_neg fun heq => hs (h.apart s' s d hd (h.links_mem ho (.inr heq)))]
      · intro d hd
        have hdo : d ≠ o := fun heq => hs (h.apart s' s o (heq ▸ hd) ho)
        rw [unlink_next hdo, if_neg fun heq => hs (h.apart s' s d hd (h.links_mem ho (.inl heq)))]
  · intro s'
    have hseg := h.seg s
    rw [hl] at hseg
    rw [unlink_top]
    rcases eq_or_ne s' s with rfl | hs
    · rw [hfilter, h.top s', hl, hseg.middle.2, front_none]
      cases a with
      | nil => rw [if_pos ((h.header_iff ho).mpr ⟨rfl, by rw [hl]; rfl⟩), List.nil_append]
      | cons x a =>
        have hne : x ≠ o := by
          have := h.nodup s'
          rw [hl] at this
          exact (List.nodup_append.mp this).2.2 x List.mem_cons_self o List.mem_cons_self
        have hno : m.prev o ≠ some (.inl s') := by
          rw [Ne, h.header_iff ho, hl]
          exact fun heq => hne (Option.some.inj heq.2)
        rw [if_neg hno]
        rfl
    · rw [hother s' hs, if_neg fun heq => hs ((h.header_iff ho).mp heq).1, h.top s']
  · intro d hd
    rcases eq_or_ne d o with rfl | hdo
    · exact unlink_self
    · have hloose : ∀ s', d ∉ stacked s' := by
        intro s' hmem
        exact hd s' (List.mem_filter.mpr ⟨hmem, decide_eq_true hdo⟩)
      rw [unlink_prev hdo, unlink_next hdo, if_neg fun heq => hloose s (h.links_mem ho (.inr heq)),
        if_neg fun heq => hloose s (h.links_mem ho (.inl heq))]
      exact h.loose d hloose

theorem unlink (h : m.Represents stacked) (o : ν) : (m.unlink o).Represents fun s => (stacked s).filter (· ≠ o) := by
  by_cases ho : ∃ s, o ∈ stacked s
  · obtain ⟨s, ho⟩ := ho
    exact h.unlink_of_mem ho
  · have hno : ∀ s, o ∉ stacked s := fun s hs => ho ⟨s, hs⟩
    obtain ⟨hprev, hnext⟩ := h.loose o hno
    have hsame : (fun s => (stacked s).filter (· ≠ o)) = stacked := by
      funext s
      exact List.filter_eq_self.mpr fun d hd => decide_eq_true fun heq => hno s (heq ▸ hd)
    rw [unlink_loose hprev hnext, hsame]
    exact h

/-- Each operation does what it means. -/
theorem perform (h : m.Represents stacked) {op : Op ι ν} (hop : op.Ok stacked) :
    (m.perform op).Represents (op.implied stacked) := by
  cases op with
  | push s o => exact h.push hop
  | unlink o => exact h.unlink o

/-- And so does a sequence. -/
theorem run (h : m.Represents stacked) {ops : List (Op ι ν)} (hops : Allowed stacked ops) :
    (ops.foldl DlStacks.perform m).Represents (ops.foldl (fun stacked op => op.implied stacked) stacked) := by
  induction ops generalizing m stacked with
  | nil => exact h
  | cons op ops ih => exact ih (h.perform hops.1) hops.2

omit [DecidableEq ι] [DecidableEq ν] in
theorem empty (htop : ∀ s, m.top s = none) (hloose : ∀ o, m.prev o = none ∧ m.next o = none) :
    m.Represents fun _ => [] where
  nodup _ := List.nodup_nil
  apart _ _ _ ho := nomatch ho
  seg _ := .nil
  top := htop
  loose o _ := hloose o

end Represents

/-- The node that a link back leads to. -/
def nodeBefore (o : ν) : Option ν := (m.prev o).bind Sum.getRight?

/-- What is promised of stacks: as of lists, and the link back of the top leads to the header of its stack. -/
structure Linked (stacked : ι → List ν) : Prop where
  forward : ∀ s, Visits m.next (m.top s) (stacked s)
  backward : ∀ s, Visits m.nodeBefore (stacked s).getLast? (stacked s).reverse
  top : ∀ s, m.top s = (stacked s).head?
  header : ∀ s o, o ∈ stacked s → ∀ s', m.prev o = some (.inl s') ↔ s' = s ∧ m.top s = some o
  once : ∀ s, (stacked s).Nodup
  apart : ∀ s s' o, o ∈ stacked s → o ∈ stacked s' → s = s'

omit [DecidableEq ι] [DecidableEq ν] in
theorem Represents.linked {m : DlStacks ι ν} {stacked : ι → List ν} (h : m.Represents stacked) : m.Linked stacked where
  forward s := by
    rw [h.top s]
    exact (h.seg s).forward
  backward s := ((h.seg s).map_prev (f := (·.bind Sum.getRight?)) fun _ => rfl).backward
  top := h.top
  header s o ho s' := by
    rw [h.top s]
    exact h.header_iff ho
  once := h.nodup
  apart := h.apart

end DlStacks

end Eel
