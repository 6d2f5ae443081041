-- SUMMARY: Buffered source text with a read position, and what the reads of it do at a known rest of text.
import Eel.Core.Value
import Mathlib.Data.List.Basic

/-!
# Source text

The compiler reads its source through an `EEL_bio`: a buffer and a position.
-/

namespace Eel

/-- `EEL_bio`, without the line count cache. -/
structure Bio where
  data : List Byte
  pos : Nat
  deriving DecidableEq

namespace Bio

/-- `eel_bio_getchar`: the next character, or -1 at the end. -/
def getchar (b : Bio) : Int × Bio :=
  match b.data[b.pos]? with
  | some c => (c.toNat, { b with pos := b.pos + 1 })
  | none => (-1, b)

/-- `eel_bio_ungetc`. -/
def ungetc (b : Bio) : Bio := if b.pos > 0 then { b with pos := b.pos - 1 } else b

/-- How many characters are left. -/
def left (b : Bio) : Nat := b.data.length - b.pos

/-- The position `n` characters on. -/
def advance (b : Bio) (n : Nat) : Bio := { b with pos := b.pos + n }

/-- The text from the position on. -/
def At (b : Bio) (text : List Byte) : Prop := b.data.drop b.pos = text ∧ b.pos ≤ b.data.length

variable {b : Bio} {c : Byte} {text : List Byte}

@[simp] theorem advance_zero (b : Bio) : b.advance 0 = b := rfl

@[simp] theorem advance_advance (b : Bio) (m n : Nat) :
    (b.advance m).advance n = b.advance (m + n) := by
  simp [advance, Nat.add_assoc]

@[simp] theorem ungetc_advance (b : Bio) (n : Nat) :
    (b.advance (n + 1)).ungetc = b.advance n := by
  simp [ungetc, advance]

theorem At.left_eq (h : b.At text) : b.left = text.length := by
  rw [left, ← h.1, List.length_drop]

theorem At.advance {p : List Byte} (h : b.At (p ++ text)) :
    (b.advance p.length).At text := by
  refine ⟨?_, ?_⟩
  · simp only [Bio.advance]
    rw [← List.drop_drop, h.1, List.drop_left]
  · have hlen := h.left_eq
    have hle := h.2
    simp only [left, List.length_append] at hlen
    simp only [Bio.advance]
    omega

theorem At.tail (h : b.At (c :: text)) : (b.advance 1).At text :=
  At.advance (p := [c]) h

theorem At.getchar_cons (h : b.At (c :: text)) :
    b.getchar = ((c.toNat : Int), b.advance 1) := by
  have hget : b.data[b.pos]? = some c := by
    rw [← List.head?_drop, h.1, List.head?_cons]
  simp [Bio.getchar, hget, Bio.advance]

theorem At.getchar_nil (h : b.At []) : b.getchar = (-1, b) := by
  have hget : b.data[b.pos]? = none := by
    rw [← List.head?_drop, h.1, List.head?_nil]
  simp [Bio.getchar, hget]

end Bio

end Eel
