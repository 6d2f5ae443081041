-- SUMMARY: String literals are read as the bytes they spell, unless an escape with too few figures or a code like the delimiter gets in the way.
import Eel.Compiler.LiteralText

/-!
# Reading string literals

An escape with fewer figures than it could have takes the next character with it,
and an escape that gives the code of the delimiter ends the literal. Away from
these two, `parse_string` returns what the items of the literal denote.
-/

namespace Eel.Lexer

variable {b : Bio} {c : Byte} {text : List Byte} {d : Delim}

/-! ## Reading escapes -/

/-- The number of figures that `parse_string` asks for, negative for a limit. -/
def NumKind.limit : NumKind → Int
  | octal => -3 | decimal => -3 | hex => -2 | unicode => 4

theorem numEscape_eq {base n : Int} {msg : CompileError} {v : Int} {b' : Bio}
    (h : getNum base n b = .ok (v, b')) (hv : 0 ≤ v) :
    numEscape base n msg b = .ok (v, b') := by
  have hneg : ¬v < 0 := Int.not_lt.mpr hv
  rw [numEscape, Lex.bind_eq h]
  simp [hneg]

/-- Once the figures are read, an escape gives their number. -/
theorem readEscape_num (k : NumKind) {figs rest : List Byte} {v : Int} {b' : Bio}
    (h : b.At (k.lead ++ figs ++ rest)) (hpos : 0 < figs.length)
    (hoct : k = .octal → ∀ c ∈ figs.head?, 48 ≤ c.toNat ∧ c.toNat ≤ 51)
    (hnum : getNum k.base k.limit (b.advance k.lead.length) = .ok (v, b')) (hv : 0 ≤ v)
    (huni : k = .unicode → v ≤ 255) : readEscape b = .ok (.code v, b') := by
  cases k with
  | octal =>
    cases figs with
    | nil => simp at hpos
    | cons c figs =>
      have hc := hoct rfl c rfl
      have h32 : 32 ≤ c.toNat := by omega
      have hne : ¬(c.toNat : Int) = -1 := by omega
      have hin : 48 ≤ (c.toNat : Int) ∧ (c.toNat : Int) ≤ 51 := by omega
      rw [readEscape, Lex.bind_eq (lexGetchar_at h (.inl h32))]
      simp only [if_neg hne, if_pos hin]
      have hnum' : getNum 8 (-3) (b.advance 0) = .ok (v, b') := hnum
      rw [Lex.bind_eq (Lex.modify_apply _ _), Bio.ungetc_advance,
        Lex.bind_eq (numEscape_eq hnum' hv)]
      rfl
  | decimal =>
    rw [readEscape, Lex.bind_eq (lexGetchar_at h (.inl (by decide)))]
    have hnum' : getNum 10 (-3) (b.advance 1) = .ok (v, b') := hnum
    change (do return Escape.code (← numEscape 10 (-3) _)) (b.advance 1) = _
    rw [Lex.bind_eq (numEscape_eq hnum' hv)]
    rfl
  | hex =>
    rw [readEscape, Lex.bind_eq (lexGetchar_at h (.inl (by decide)))]
    have hnum' : getNum 16 (-2) (b.advance 1) = .ok (v, b') := hnum
    change (do return Escape.code (← numEscape 16 (-2) _)) (b.advance 1) = _
    rw [Lex.bind_eq (numEscape_eq hnum' hv)]
    rfl
  | unicode =>
    have hle : ¬v > 255 := Int.not_lt.mpr (huni rfl)
    rw [readEscape, Lex.bind_eq (lexGetchar_at h (.inl (by decide)))]
    have hnum' : getNum 16 4 (b.advance 1) = .ok (v, b') := hnum
    change (numEscape 16 4 _ >>= _) (b.advance 1) = _
    rw [Lex.bind_eq (numEscape_eq hnum' hv)]
    simp only [if_neg hle]
    rfl

theorem readEscape_named (n : Named) (h : b.At (n.letter :: text)) :
    readEscape b = .ok (.code n.char.toNat, b.advance 1) := by
  have h32 : 32 ≤ n.letter.toNat := by cases n <;> decide
  rw [readEscape, Lex.bind_eq (lexGetchar_at h (.inl h32))]
  cases n <;> rfl

theorem namedEscape_none (h : ∀ n : Named, c ≠ n.letter) : namedEscape c.toNat = none := by
  have hne : ∀ n : Named, (c.toNat : Int) ≠ n.letter.toNat :=
    fun n heq => h n (toNat_inj.mp heq)
  have h1 : (c.toNat : Int) ≠ 97 := hne .bell
  have h2 : (c.toNat : Int) ≠ 98 := hne .backspace
  have h3 : (c.toNat : Int) ≠ 102 := hne .formFeed
  have h4 : (c.toNat : Int) ≠ 110 := hne .newline
  have h5 : (c.toNat : Int) ≠ 114 := hne .return
  have h6 : (c.toNat : Int) ≠ 116 := hne .tab
  have h7 : (c.toNat : Int) ≠ 118 := hne .verticalTab
  simp only [namedEscape, if_neg h1, if_neg h2, if_neg h3, if_neg h4, if_neg h5, if_neg h6,
    if_neg h7]

theorem readEscape_quoted {next : List Byte} (hval : (LitItem.quoted c).Valid d next)
    (hc : 32 ≤ c.toNat ∨ isBreak c.toNat = true) (h : b.At (c :: text)) :
    readEscape b = .ok (.char c.toNat, b.advance 1) := by
  obtain ⟨hoct, hd, hx, hu, hn⟩ := hval
  have h0 : ¬(c.toNat : Int) = -1 := by omega
  have h1 : ¬(48 ≤ (c.toNat : Int) ∧ (c.toNat : Int) ≤ 51) := by omega
  have h2 : ¬(c.toNat : Int) = 100 := fun heq => hd (toNat_inj.mp heq)
  have h3 : ¬(c.toNat : Int) = 120 := fun heq => hx (toNat_inj.mp heq)
  have h4 : ¬(c.toNat : Int) = 117 := fun heq => hu (toNat_inj.mp heq)
  rw [readEscape, Lex.bind_eq (lexGetchar_at h hc)]
  simp only [if_neg h0, if_neg h1, if_neg h2, if_neg h3, if_neg h4, namedEscape_none hn]
  rfl

/-! ## Reading items -/

theorem readPiece_plain (hc : 32 ≤ c.toNat) (hne : c ≠ 92) (h : b.At (c :: text)) :
    readPiece d b = .ok (some (.code c.toNat), b.advance 1) := by
  have h0 : ¬(c.toNat : Int) = -1 := by omega
  have h1 : ¬(c.toNat : Int) = 92 := fun heq => hne (toNat_inj.mp heq)
  have h2 : isBreak (c.toNat : Int) = false := by
    simp only [isBreak, Bool.or_eq_false_iff, beq_eq_false_iff_ne]
    omega
  rw [readPiece, Lex.bind_eq (lexGetchar_at h (.inl hc))]
  simp [h0, h1, h2]

theorem readPiece_escape {e : Escape} {b' : Bio} (h : b.At (92 :: text))
    (he : readEscape (b.advance 1) = .ok (e, b')) : readPiece d b = .ok (some e, b') := by
  rw [readPiece, Lex.bind_eq (lexGetchar_at h (.inl (by decide)))]
  change (do return some (← readEscape)) (b.advance 1) = _
  rw [Lex.bind_eq he]
  rfl

/-- The condition on a single item: a quoted character is one that the lexer
accepts, and a numeric escape has all its figures and not the delimiter's code. -/
def LitItem.Separate (d : Delim) : LitItem → Prop
  | plain _ => True
  | quoted c => 32 ≤ c.toNat ∨ isBreak c.toNat = true
  | named _ => True
  | num k figures => figures.length = k.maxFigures ∧ figuresValue k.base 0 figures ≠ d.code

theorem getNum_full (k : NumKind) {figs : List Byte} (h : b.At (figs ++ text))
    (hfigs : ∀ c ∈ figs, IsFigure k.base c) (hlen : figs.length = k.maxFigures) :
    getNum k.base k.limit b = .ok (figuresValue k.base 0 figs, b.advance figs.length) := by
  have hmax : k.limit.natAbs = figs.length := by cases k <;> exact hlen.symm
  rw [getNum, hmax]
  exact getNumLoop_full h hfigs

theorem NumKind.base_nonneg (k : NumKind) : 0 ≤ k.base := by cases k <;> decide

/-- An item that stands for itself is one round of the loop. -/
theorem parseLoop_item {it : LitItem} {next : List Byte} {fuel : Nat} {buf : List Byte}
    (hval : it.Valid d next) (hsep : it.Separate d) (h : b.At (it.text ++ text)) :
    parseLoop d (fuel + 1) buf b =
      parseLoop d fuel (buf ++ [it.denote]) (b.advance it.text.length) := by
  cases it with
  | plain c =>
    have hne : ¬(c.toNat : Int) = d.code := by
      rw [d.code_eq]
      exact fun heq => hval.2.2 (toNat_inj.mp heq)
    rw [parseLoop, Lex.bind_eq (readPiece_plain hval.1 hval.2.1 h)]
    simp only [if_neg hne, ofInt_toNat]
    rfl
  | quoted c =>
    have h' : (b.advance 1).At (c :: text) := h.tail
    rw [parseLoop, Lex.bind_eq (readPiece_escape h (readEscape_quoted hval hsep h'))]
    simp only [ofInt_toNat, Bio.advance_advance]
    rfl
  | named n =>
    have hne : ¬(n.char.toNat : Int) = d.code := by cases n <;> cases d <;> decide
    have h' : (b.advance 1).At (n.letter :: text) := h.tail
    rw [parseLoop, Lex.bind_eq (readPiece_escape h (readEscape_named n h'))]
    simp only [if_neg hne, ofInt_toNat, Bio.advance_advance]
    rfl
  | num k figs =>
    obtain ⟨hpos, -, hfigs, hoct, huni, -⟩ := hval
    have h' : (b.advance 1).At (k.lead ++ figs ++ text) := h.tail
    have h'' : ((b.advance 1).advance k.lead.length).At (figs ++ text) := by
      rw [List.append_assoc] at h'
      exact h'.advance
    have he := readEscape_num k h' hpos hoct (getNum_full k h'' hfigs hsep.1)
      (figuresValue_nonneg k.base_nonneg hfigs (Int.le_refl 0)) fun hk => (huni hk).2
    rw [parseLoop, Lex.bind_eq (readPiece_escape h he)]
    simp only [if_neg hsep.2, Bio.advance_advance]
    have hlen : 1 + (k.lead.length + figs.length) = (LitItem.num k figs).text.length := by
      simp [LitItem.text]
      omega
    rw [Nat.add_assoc, hlen]
    rfl

/-- An escape with too few figures is one round that reads a character more. -/
theorem parseLoop_short {k : NumKind} {figs next : List Byte} {fuel : Nat} {buf : List Byte}
    (hval : (LitItem.num k figs).Valid d (c :: next)) (hshort : figs.length < k.maxFigures)
    (hne : figuresValue k.base 0 figs ≠ d.code) (hc : 32 ≤ c.toNat)
    (h : b.At ((LitItem.num k figs).text ++ c :: text)) :
    parseLoop d (fuel + 1) buf b =
      parseLoop d fuel (buf ++ [(LitItem.num k figs).denote])
        (b.advance ((LitItem.num k figs).text.length + 1)) := by
  obtain ⟨hpos, -, hfigs, hoct, huni, hnext⟩ := hval
  have hk : k ≠ .unicode := fun hk => by
    subst hk
    exact absurd (huni rfl).1 (Nat.ne_of_lt hshort)
  have h' : (b.advance 1).At (k.lead ++ figs ++ c :: text) := h.tail
  have h'' : ((b.advance 1).advance k.lead.length).At (figs ++ c :: text) := by
    rw [List.append_assoc] at h'
    exact h'.advance
  have hnum : getNum k.base k.limit ((b.advance 1).advance k.lead.length) =
      .ok (figuresValue k.base 0 figs,
        ((b.advance 1).advance k.lead.length).advance (figs.length + 1)) := by
    have hmax : k.limit.natAbs = k.maxFigures := by cases k <;> rfl
    have hlim : decide (k.limit < 0) = true := by
      cases k <;> first | rfl | exact absurd rfl hk
    rw [getNum, hmax, hlim]
    exact getNumLoop_short h'' hfigs hpos hshort hc (hnext hshort c rfl)
  have he := readEscape_num k h' hpos hoct hnum
    (figuresValue_nonneg k.base_nonneg hfigs (Int.le_refl 0)) fun hk' => absurd hk' hk
  rw [parseLoop, Lex.bind_eq (readPiece_escape h he)]
  simp only [if_neg hne, Bio.advance_advance]
  have hlen : 1 + (k.lead.length + (figs.length + 1)) =
      (LitItem.num k figs).text.length + 1 := by
    simp [LitItem.text]
    omega
  rw [Nat.add_assoc, hlen]
  rfl

end Eel.Lexer
