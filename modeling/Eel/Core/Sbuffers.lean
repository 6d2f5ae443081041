-- SUMMARY: The pool of string buffers: each buffer is either free or in use, whatever is allocated and freed.
import Eel.Core.LinkedLists

/-!
# The pool of string buffers

A string that nobody frees is in a buffer of this pool, until the buffer is the oldest one
and there is no other. The free buffers and those in use are two lists that share their
links.
-/

namespace Eel

open Linked

namespace Sbuffers

/-- `EEL_SBUFFERS`. -/
def sbuffers : Nat := 16

/-- `sizeof(EEL_sbuffer)`. -/
def sbufferSize : Nat := 272

/-- `fsb` and `asb`. -/
inductive Pooled where
  | free
  | used
  deriving DecidableEq

/-- The buffers, by their numbers in the memory block of the pool. -/
abbrev Pool := DlLists Pooled Nat

/-- `eel_salloc`: a buffer, by its distance from the first one. There is no result when there is no buffer at all. -/
def salloc (es : Pool) : Option (Int × Pool) :=
  match es.last .free with
  | some sb => some (sbufferSize * sb, (es.unlink .free sb).link .used sb)
  | none => (es.first .used).map fun sb : Nat => (sbufferSize * sb, (es.unlink .used sb).link .used sb)

/-- `eel_sfree`, of what is at this distance from the first buffer. -/
def sfree (es : Pool) (s : Int) : Pool :=
  if s < 0 then es
  else if s ≥ sbufferSize * sbuffers then es
  else if s % sbufferSize ≠ 0 then es
  else
    let sb := (s / sbufferSize).toNat
    (es.unlink .used sb).link .free sb

inductive Call where
  | salloc
  | sfree (s : Int)

def perform (es : Pool) : Call → Option Pool
  | .salloc => (salloc es).map Prod.snd
  | .sfree s => some (sfree es s)

def run (es : Pool) : List Call → Option Pool
  | [] => some es
  | call :: calls => (perform es call).bind fun es => run es calls

/-- The buffer is visited on the way through those in use. -/
def InUse (es : Pool) (sb : Nat) : Prop := ∃ l, Visits es.next (es.first .used) l ∧ sb ∈ l

/-- If it is a buffer that is freed, it is in use. -/
def Call.Ok (es : Pool) : Call → Prop
  | .salloc => True
  | .sfree s => ∀ sb < sbuffers, s = sbufferSize * sb → InUse es sb

/-- All calls of a sequence free nothing but buffers in use. -/
def Allowed : Pool → List Call → Prop
  | _, [] => True
  | es, call :: calls => call.Ok es ∧ ∀ es', perform es call = some es' → Allowed es' calls

/-- The two lists. -/
def lists (free used : List Nat) : Pooled → List Nat
  | .free => free
  | .used => used

/-- The links are those of lists that have all the buffers. -/
def Inv (es : Pool) : Prop := ∃ L : Pooled → List Nat, es.Represents L ∧ ∀ sb, (∃ i, sb ∈ L i) ↔ sb < sbuffers

variable {es es' : Pool}

/-- A buffer goes to the end of a list. -/
theorem Inv.move {L : Pooled → List Nat} (h : es.Represents L) (hall : ∀ sb, (∃ i, sb ∈ L i) ↔ sb < sbuffers)
    {i : Pooled} {sb : Nat} (hsb : sb ∈ L i) (j : Pooled) : Inv ((es.unlink i sb).link j sb) := by
  have hmem : ∀ k d, d ∈ Function.update L i ((L i).filter (· ≠ sb)) k ↔ d ∈ L k ∧ d ≠ sb := by
    intro k d
    rcases eq_or_ne k i with rfl | hk
    · rw [Function.update_self, List.mem_filter, decide_eq_true_eq]
    · rw [Function.update_of_ne hk]
      exact ⟨fun hd => ⟨hd, fun heq => hk (h.apart k i sb (heq ▸ hd) hsb)⟩, And.left⟩
  have hnew : ∀ k, sb ∉ Function.update L i ((L i).filter (· ≠ sb)) k := fun k hk => ((hmem k sb).mp hk).2 rfl
  refine ⟨_, (h.unlink hsb).link (p := j) hnew, ?_⟩
  intro d
  rw [← hall d]
  constructor
  · rintro ⟨k, hk⟩
    rcases eq_or_ne k j with rfl | hkj
    · rw [Function.update_self, List.mem_append, hmem, List.mem_singleton] at hk
      rcases hk with hk | rfl
      · exact ⟨k, hk.1⟩
      · exact ⟨i, hsb⟩
    · rw [Function.update_of_ne hkj, hmem] at hk
      exact ⟨k, hk.1⟩
  · rintro ⟨k, hk⟩
    rcases eq_or_ne d sb with rfl | hd
    · refine ⟨j, ?_⟩
      rw [Function.update_self]
      exact List.mem_append_right _ (List.mem_singleton_self d)
    · refine ⟨k, ?_⟩
      rcases eq_or_ne k j with rfl | hkj
      · rw [Function.update_self]
        exact List.mem_append_left _ ((hmem k d).mpr ⟨hk, hd⟩)
      · rw [Function.update_of_ne hkj]
        exact (hmem k d).mpr ⟨hk, hd⟩

theorem Inv.salloc (h : Inv es) : ∃ s es', Sbuffers.salloc es = some (s, es') ∧ Inv es' := by
  obtain ⟨L, hL, hall⟩ := h
  unfold Sbuffers.salloc
  split
  · rename_i sb hsb
    exact ⟨_, _, rfl, Inv.move hL hall (List.mem_of_getLast? ((hL.last .free).symm.trans hsb)) .used⟩
  · rename_i hnone
    -- With no free buffer, the first one is in use, and so there is an oldest one.
    have hfree : L .free = [] := List.getLast?_eq_none_iff.mp ((hL.last .free).symm.trans hnone)
    have hused : (L .used).head? ≠ none := by
      obtain ⟨i, hi⟩ := (hall 0).mpr (by decide)
      cases i with
      | free =>
        rw [hfree] at hi
        cases hi
      | used =>
        intro hnil
        rw [List.head?_eq_none_iff.mp hnil] at hi
        cases hi
    obtain ⟨sb, hsb⟩ := Option.ne_none_iff_exists'.mp hused
    rw [hL.first .used, hsb]
    exact ⟨_, _, rfl, Inv.move hL hall (List.mem_of_head? hsb) .used⟩

theorem Inv.sfree (h : Inv es) {s : Int} (hs : (Call.sfree s).Ok es) : Inv (Sbuffers.sfree es s) := by
  unfold Sbuffers.sfree
  split
  · exact h
  split
  · exact h
  split
  · exact h
  · rename_i hneg hpast hpart
    obtain ⟨L, hL, hall⟩ := h
    unfold sbufferSize sbuffers at *
    obtain ⟨l, hl, hmem⟩ := hs (s / 272).toNat (by show _ < 16; omega) (by show s = ((272 : Nat) : Int) * _; omega)
    have hused := (hL.linked.forward .used).unique hl
    exact Inv.move hL hall (hused ▸ hmem) .free

theorem Inv.perform (h : Inv es) {call : Call} (hcall : call.Ok es) : ∃ es', perform es call = some es' ∧ Inv es' := by
  cases call with
  | salloc =>
    obtain ⟨s, es', halloc, hinv⟩ := h.salloc
    refine ⟨es', ?_, hinv⟩
    unfold Sbuffers.perform
    rw [halloc]
    rfl
  | sfree s => exact ⟨_, rfl, h.sfree hcall⟩

theorem Inv.run (h : Inv es) {calls : List Call} (hcalls : Allowed es calls) :
    ∃ es', run es calls = some es' ∧ Inv es' := by
  induction calls generalizing es with
  | nil => exact ⟨es, rfl, h⟩
  | cons call calls ih =>
    obtain ⟨hcall, hrest⟩ := hcalls
    obtain ⟨es₁, hperform, hinv⟩ := h.perform hcall
    obtain ⟨es', hrun, hinv'⟩ := ih hinv (hrest es₁ hperform)
    refine ⟨es', ?_, hinv'⟩
    rw [Sbuffers.run, hperform]
    exact hrun

end Sbuffers

end Eel
