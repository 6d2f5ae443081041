-- SUMMARY: The text of string literals: items, what they denote, the white space behind a literal, and how the lexer reads each of them.
import Eel.Compiler.Lexer

/-!
# The text of string literals

A literal is a sequence of items between delimiters. This file says what each
item denotes, independently of the lexer, and what the lexer does at each.
-/

namespace Eel.Lexer

/-! ## Items -/

/-- The characters that name a control character. -/
inductive Named where
  | bell | backspace | formFeed | newline | «return» | tab | verticalTab
  deriving DecidableEq

def Named.letter : Named → Byte
  | bell => 97         -- a
  | backspace => 98    -- b
  | formFeed => 102    -- f
  | newline => 110     -- n
  | «return» => 114    -- r
  | tab => 116         -- t
  | verticalTab => 118 -- v

def Named.char : Named → Byte
  | bell => 7
  | backspace => 8
  | formFeed => 12
  | newline => 10
  | «return» => 13
  | tab => 9
  | verticalTab => 11

/-- The escapes that give a number. -/
inductive NumKind where
  | octal
  | decimal
  | hex
  | unicode
  deriving DecidableEq

namespace NumKind

def base : NumKind → Int
  | octal => 8 | decimal => 10 | hex => 16 | unicode => 16

def maxFigures : NumKind → Nat
  | octal => 3 | decimal => 3 | hex => 2 | unicode => 4

/-- What stands between the backslash and the figures. -/
def lead : NumKind → List Byte
  | octal => [] | decimal => [100] | hex => [120] | unicode => [117]

end NumKind

inductive LitItem where
  | plain (c : Byte)
  /-- A backslash and a character that is not an escape. -/
  | quoted (c : Byte)
  | named (n : Named)
  | num (k : NumKind) (figures : List Byte)

/-- A character with a value below the base. -/
def IsFigure (base : Int) (c : Byte) : Prop :=
  0 ≤ figureValue c.toNat ∧ figureValue c.toNat < base

/-- The number that figures spell, behind figures that spell `v`. -/
def figuresValue (base : Int) (v : Int) (figures : List Byte) : Int :=
  figures.foldl (fun v c => v * base + figureValue c.toNat) v

def Delim.byte : Delim → Byte
  | .string => 34
  | .character => 39

namespace LitItem

def text : LitItem → List Byte
  | plain c => [c]
  | quoted c => [92, c]
  | named n => [92, n.letter]
  | num k figures => 92 :: k.lead ++ figures

/-- The byte an item stands for. Codes beyond a byte lose their upper bits. -/
def denote : LitItem → Byte
  | plain c => c
  | quoted c => c
  | named n => n.char
  | num k figures => BitVec.ofInt 8 (figuresValue k.base 0 figures)

/-- The item is one, in front of the text `next`. -/
def Valid (d : Delim) (next : List Byte) : LitItem → Prop
  | plain c => 32 ≤ c.toNat ∧ c ≠ 92 ∧ c ≠ d.byte
  | quoted c =>
    ¬(48 ≤ c.toNat ∧ c.toNat ≤ 51) ∧ c ≠ 100 ∧ c ≠ 120 ∧ c ≠ 117 ∧ ∀ n : Named, c ≠ n.letter
  | named _ => True
  | num k figures =>
    0 < figures.length ∧ figures.length ≤ k.maxFigures ∧ (∀ c ∈ figures, IsFigure k.base c) ∧
    (k = .octal → ∀ c ∈ figures.head?, 48 ≤ c.toNat ∧ c.toNat ≤ 51) ∧
    (k = .unicode → figures.length = 4 ∧ figuresValue k.base 0 figures ≤ 255) ∧
    (figures.length < k.maxFigures → ∀ c ∈ next.head?, ¬IsFigure k.base c)

end LitItem

/-- The text of a sequence of items. -/
def textOf (items : List LitItem) : List Byte := (items.map LitItem.text).flatten

@[simp] theorem textOf_nil : textOf [] = [] := rfl

@[simp] theorem textOf_cons (it : LitItem) (items : List LitItem) :
    textOf (it :: items) = it.text ++ textOf items := rfl

@[simp] theorem textOf_append (xs ys : List LitItem) :
    textOf (xs ++ ys) = textOf xs ++ textOf ys := by simp [textOf]

/-- Each of the items is one, in front of what follows it. -/
def Spells (d : Delim) : List LitItem → Prop
  | [] => True
  | it :: items => it.Valid d (textOf items ++ [d.byte]) ∧ Spells d items

/-! ## Behind the literal -/

/-- A character that `lex_getchar` accepts. -/
def Legal (c : Byte) : Prop :=
  32 ≤ c.toNat ∨ (1 ≤ c.toNat ∧ c.toNat ≤ 8) ∨ isBreak c.toNat = true

/-- A line feed, or one of the codes that are read as one. -/
def IsEoln (c : Byte) : Prop := c.toNat = 10 ∨ (1 ≤ c.toNat ∧ c.toNat ≤ 8)

/-- White space: blanks, line feeds and comments. -/
inductive White : List Byte → Prop
  | nil : White []
  | blank {c : Byte} {ws : List Byte} :
      c.toNat = 32 ∨ c.toNat = 9 ∨ c.toNat = 13 → White ws → White (c :: ws)
  | eoln {c : Byte} {ws : List Byte} : IsEoln c → White ws → White (c :: ws)
  | line {body ws : List Byte} {c : Byte} : (∀ x ∈ body, Legal x ∧ ¬IsEoln x) → IsEoln c →
      White ws → White (47 :: 47 :: (body ++ c :: ws))
  | block {body ws : List Byte} : (∀ x ∈ body, Legal x) → ¬[42, 47] <:+: body →
      White ws → White (47 :: 42 :: (body ++ 42 :: 47 :: ws))

/-- The text of a token that is not the delimiter. -/
inductive Token (d : Delim) : List Byte → Prop
  | mk {c : Byte} {rest : List Byte} : 33 ≤ c.toNat → c ≠ d.byte →
      (c = 47 → ∀ x ∈ rest.head?, x ≠ 47 ∧ x ≠ 42) → Token d (c :: rest)

/-! ## Reading characters -/

variable {b : Bio} {c : Byte} {text : List Byte} {d : Delim}

theorem Delim.code_eq (d : Delim) : d.code = d.byte.toNat := by cases d <;> rfl

theorem ofInt_toNat (c : Byte) : BitVec.ofInt 8 (c.toNat : Int) = c := by
  apply BitVec.eq_of_toNat_eq
  have := c.isLt
  simp only [BitVec.toNat_ofInt]
  omega

theorem toNat_inj {c x : Byte} : (c.toNat : Int) = x.toNat ↔ c = x := by
  rw [Int.natCast_inj, ← BitVec.toNat_inj]

/-- What `lex_getchar` makes of a legal character. -/
theorem lexGetchar_legal (h : b.At (c :: text)) (hc : Legal c) :
    lexGetchar b = .ok (if 1 ≤ c.toNat ∧ c.toNat ≤ 8 then 10 else (c.toNat : Int),
      b.advance 1) := by
  have hget : (modifyGet Bio.getchar : Lex Int) b = .ok ((c.toNat : Int), b.advance 1) := by
    change Except.ok b.getchar = _
    rw [h.getchar_cons]
  rw [lexGetchar, Lex.bind_eq hget]
  rcases hc with hc | hc | hc
  · have h32 : (32 : Int) ≤ c.toNat := by omega
    have hno : ¬(1 ≤ c.toNat ∧ c.toNat ≤ 8) := by omega
    simp [h32, hno]
  · have h32 : ¬(32 : Int) ≤ c.toNat := by omega
    have h0 : ¬(c.toNat : Int) < 0 := by omega
    have h18 : 1 ≤ (c.toNat : Int) ∧ (c.toNat : Int) ≤ 8 := by omega
    simp only [if_neg h32, if_neg h0, if_pos h18, if_pos hc, Lex.pure_apply]
  · have hbr := hc
    simp only [isBreak, Bool.or_eq_true, beq_iff_eq] at hc
    have h32 : ¬(32 : Int) ≤ c.toNat := by omega
    have h0 : ¬(c.toNat : Int) < 0 := by omega
    have h18 : ¬(1 ≤ (c.toNat : Int) ∧ (c.toNat : Int) ≤ 8) := by omega
    have hno : ¬(1 ≤ c.toNat ∧ c.toNat ≤ 8) := by omega
    simp only [if_neg h32, if_neg h0, if_neg h18, if_pos hbr, if_neg hno, Lex.pure_apply]

/-- A character as the lexer sees it when it is no control code but a break. -/
theorem lexGetchar_at (h : b.At (c :: text)) (hc : 32 ≤ c.toNat ∨ isBreak c.toNat = true) :
    lexGetchar b = .ok ((c.toNat : Int), b.advance 1) := by
  have hno : ¬(1 ≤ c.toNat ∧ c.toNat ≤ 8) := by
    simp only [isBreak, Bool.or_eq_true, beq_iff_eq] at hc
    omega
  rw [lexGetchar_legal h (hc.imp_right .inr), if_neg hno]

/-! ## Reading numbers -/

theorem getFigure_figure {base : Int} (h : b.At (c :: text)) (hc : 32 ≤ c.toNat)
    (hfig : IsFigure base c) :
    getFigure base b = .ok (figureValue c.toNat, b.advance 1) := by
  rw [getFigure, Lex.bind_eq (lexGetchar_at h (.inl hc))]
  have h0 : ¬figureValue (c.toNat : Int) < 0 := Int.not_lt.mpr hfig.1
  have hb : ¬figureValue (c.toNat : Int) ≥ base := Int.not_le.mpr hfig.2
  simp only [if_neg h0, if_neg hb, Lex.pure_apply]

/-- A character that is no figure is consumed with the number in front of it. -/
theorem getFigure_other {base : Int} (h : b.At (c :: text)) (hc : 32 ≤ c.toNat)
    (hfig : ¬IsFigure base c) : getFigure base b = .ok (-1, b.advance 1) := by
  rw [getFigure, Lex.bind_eq (lexGetchar_at h (.inl hc))]
  by_cases h0 : figureValue (c.toNat : Int) < 0
  · simp only [if_pos h0, Lex.pure_apply]
  · have hb : figureValue (c.toNat : Int) ≥ base :=
      Int.not_lt.mp fun hlt => hfig ⟨Int.not_lt.mp h0, hlt⟩
    simp only [if_neg h0, if_pos hb, Lex.pure_apply]

/-- Figures are printable characters. -/
theorem IsFigure.printable {base : Int} (h : IsFigure base c) : 32 ≤ c.toNat := by
  have h0 := h.1
  unfold figureValue at h0
  split at h0
  · omega
  · split at h0
    · omega
    · split at h0 <;> omega

theorem IsFigure.nonneg {base : Int} (h : IsFigure base c) :
    ¬figureValue (c.toNat : Int) < 0 := Int.not_lt.mpr h.1

/-- The loop of `get_num` over figures. -/
theorem getNumLoop_figures {base : Int} {lim : Bool} {m r : Nat} {v : Int} (figs : List Byte)
    (h : b.At (figs ++ text)) (hfigs : ∀ c ∈ figs, IsFigure base c) :
    getNumLoop base lim (figs.length + m) v r b =
      getNumLoop base lim m (figuresValue base v figs) (r + figs.length)
        (b.advance figs.length) := by
  induction figs generalizing b v r with
  | nil => simp [figuresValue]
  | cons c figs ih =>
    have hc := hfigs c List.mem_cons_self
    rw [List.cons_append] at h
    rw [List.length_cons, Nat.add_right_comm, getNumLoop,
      Lex.bind_eq (getFigure_figure h hc.printable hc)]
    simp only [if_neg hc.nonneg]
    rw [ih h.tail fun x hx => hfigs x (List.mem_cons_of_mem c hx)]
    simp [figuresValue, Nat.add_assoc, Nat.add_comm 1]

/-- As many figures as the loop is after. -/
theorem getNumLoop_full {base : Int} {lim : Bool} {figs : List Byte} (h : b.At (figs ++ text))
    (hfigs : ∀ c ∈ figs, IsFigure base c) :
    getNumLoop base lim figs.length 0 0 b =
      .ok (figuresValue base 0 figs, b.advance figs.length) := by
  have hall : getNumLoop base lim (figs.length + 0) 0 0 b = _ := getNumLoop_figures figs h hfigs
  rwa [Nat.add_zero] at hall

/-- Fewer figures than the loop is after: it reads one character too many. -/
theorem getNumLoop_short {base : Int} {figs : List Byte} {n : Nat}
    (h : b.At (figs ++ c :: text)) (hfigs : ∀ c ∈ figs, IsFigure base c)
    (hpos : 0 < figs.length) (hn : figs.length < n) (hc : 32 ≤ c.toNat)
    (hno : ¬IsFigure base c) :
    getNumLoop base true n 0 0 b =
      .ok (figuresValue base 0 figs, b.advance (figs.length + 1)) := by
  obtain ⟨m, rfl⟩ : ∃ m, n = figs.length + (m + 1) := ⟨n - figs.length - 1, by omega⟩
  have hread : 0 + figs.length ≠ 0 := by omega
  rw [getNumLoop_figures figs h hfigs, getNumLoop,
    Lex.bind_eq (getFigure_other (Bio.At.advance h) hc hno)]
  simp [Nat.ne_of_gt hpos]

theorem figuresValue_nonneg {base : Int} (hb : 0 ≤ base) {figs : List Byte}
    (hfigs : ∀ c ∈ figs, IsFigure base c) {v : Int} (hv : 0 ≤ v) :
    0 ≤ figuresValue base v figs := by
  induction figs generalizing v with
  | nil => exact hv
  | cons c figs ih =>
    refine ih (fun x hx => hfigs x (List.mem_cons_of_mem c hx)) ?_
    exact Int.add_nonneg (Int.mul_nonneg hv hb) (hfigs c List.mem_cons_self).1

end Eel.Lexer
