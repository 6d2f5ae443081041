-- SUMMARY: Records of events in which everything that is opened is closed exactly once, innermost first.
import Mathlib.Logic.Basic

/-!
# Brackets

`opening b` is the event that opens `b`, and `Closes b e` says that `e` closes it.
Events that are neither do not occur.
-/

namespace Brackets

variable {β ε : Type*} {opening : β → ε} {Closes : β → ε → Prop}

/-- All that is opened is closed, once each, the last opened first. -/
inductive Balanced (opening : β → ε) (Closes : β → ε → Prop) : List ε → Prop
  | nil : Balanced opening Closes []
  | pair {b : β} {e : ε} {l l' : List ε} :
      Balanced opening Closes l → Closes b e → Balanced opening Closes l' →
      Balanced opening Closes (opening b :: (l ++ e :: l'))

/-- Besides what is opened, the items of `bs`, which were open, are closed in order. -/
inductive Closing (opening : β → ε) (Closes : β → ε → Prop) : List β → List ε → Prop
  | nil {l : List ε} : Balanced opening Closes l → Closing opening Closes [] l
  | cons {b : β} {bs : List β} {e : ε} {l l' : List ε} :
      Balanced opening Closes l → Closes b e → Closing opening Closes bs l' →
      Closing opening Closes (b :: bs) (l ++ e :: l')

theorem Balanced.append {l l' : List ε} (h : Balanced opening Closes l)
    (h' : Balanced opening Closes l') : Balanced opening Closes (l ++ l') := by
  induction h with
  | nil => exact h'
  | @pair b e m m' hm he _ _ ih =>
    rw [List.cons_append, List.append_assoc, List.cons_append]
    exact .pair hm he ih

theorem Balanced.append_closing {bs : List β} {l l' : List ε} (h : Balanced opening Closes l)
    (h' : Closing opening Closes bs l') : Closing opening Closes bs (l ++ l') := by
  cases h' with
  | nil h' => exact .nil (h.append h')
  | cons hm he hrest =>
    rw [← List.append_assoc]
    exact .cons (h.append hm) he hrest

/-- Opening something and then closing it leaves the rest to close. -/
theorem Closing.push {b : β} {bs : List β} {l : List ε}
    (h : Closing opening Closes (b :: bs) l) : Closing opening Closes bs (opening b :: l) := by
  cases h with
  | @cons _ _ e m m' hm he hrest =>
    have hpair : Balanced opening Closes (opening b :: (m ++ [e])) := .pair hm he .nil
    have h := hpair.append_closing hrest
    rwa [List.cons_append, List.append_assoc, List.singleton_append] at h

/-- Closing the first items of what is open leaves the rest to close. -/
theorem Closing.pop {close : β → ε} (hclose : ∀ b, Closes b (close b)) {bs bs' : List β}
    {l : List ε} (h : Closing opening Closes bs' l) :
    Closing opening Closes (bs ++ bs') (bs.map close ++ l) := by
  induction bs with
  | nil => exact h
  | cons b bs ih => exact .cons (l := []) .nil (hclose b) ih

end Brackets
