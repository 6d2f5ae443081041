-- SUMMARY: Skipping white space behind a literal, and the theorem that literals denote what they spell away from the two defects of escapes.
import Eel.Compiler.LiteralRead

/-!
# Parsing string literals
-/

namespace Eel.Lexer

variable {b : Bio} {c : Byte} {text ws tok : List Byte} {d : Delim}

/-! ## Comments -/

theorem IsEoln.legal (h : IsEoln c) : Legal c := by
  rcases h with h | h
  · exact .inr (.inr (by simp [isBreak, h]))
  · exact .inr (.inl h)

/-- An end of line is read as a line feed. -/
theorem lexGetchar_eoln (h : b.At (c :: text)) (hc : IsEoln c) :
    lexGetchar b = .ok (10, b.advance 1) := by
  rw [lexGetchar_legal h hc.legal]
  rcases hc with hc | hc
  · simp [hc]
  · rw [if_pos hc]

/-- A legal character is read as some code, which is that of a printable character
only when it is this character. -/
theorem lexGetchar_code (h : b.At (c :: text)) (hc : Legal c) :
    ∃ v : Int, lexGetchar b = .ok (v, b.advance 1) ∧ ¬v < 0 ∧ (v = 10 ↔ IsEoln c) ∧
      ∀ x : Byte, 32 ≤ x.toNat → (v = x.toNat ↔ c = x) := by
  refine ⟨_, lexGetchar_legal h hc, ?_, ?_, fun x hx => ?_⟩
  · split <;> omega
  · unfold IsEoln
    split <;> omega
  · rw [← toNat_inj]
    split <;> omega

theorem lineComment_body {body : List Byte} {fuel : Nat}
    (hbody : ∀ x ∈ body, Legal x ∧ ¬IsEoln x) (hc : IsEoln c) (hf : body.length < fuel)
    (h : b.At (body ++ c :: text)) :
    lineComment fuel b = .ok ((), b.advance (body.length + 1)) := by
  induction body generalizing b fuel with
  | nil =>
    obtain ⟨fuel, rfl⟩ := Nat.exists_eq_succ_of_ne_zero (Nat.ne_of_gt hf)
    rw [lineComment, Lex.bind_eq (lexGetchar_eoln h hc)]
    simp
  | cons x body ih =>
    obtain ⟨fuel, rfl⟩ := Nat.exists_eq_succ_of_ne_zero (Nat.ne_of_gt (Nat.zero_lt_of_lt hf))
    obtain ⟨hlegal, hne⟩ := hbody x List.mem_cons_self
    obtain ⟨v, hv, hneg, heol, -⟩ := lexGetchar_code h hlegal
    have hcond : ¬(v < 0 ∨ v = 10) := fun hor => hor.elim hneg fun heq => hne (heol.mp heq)
    rw [lineComment, Lex.bind_eq hv]
    simp only [if_neg hcond]
    rw [ih (fun y hy => hbody y (List.mem_cons_of_mem x hy)) (Nat.lt_of_succ_lt_succ hf) h.tail,
      Bio.advance_advance, List.length_cons, Nat.add_comm 1]

/-- A block comment ends at the first star with a slash behind it. The induction
carries that the character read last and the text ahead do not make up a pair. -/
theorem blockComment_body {body : List Byte} {fuel : Nat} {prevc : Int}
    (hbody : ∀ x ∈ body, Legal x) (hprev : prevc = 42 → ∀ x ∈ body.head?, x ≠ 47)
    (hpair : ¬[42, 47] <:+: body) (hf : body.length + 1 < fuel)
    (h : b.At (body ++ 42 :: 47 :: text)) :
    blockComment fuel prevc b = .ok ((), b.advance (body.length + 2)) := by
  induction body generalizing b fuel prevc with
  | nil =>
    obtain ⟨fuel, rfl⟩ : ∃ n, fuel = n + 2 := ⟨fuel - 2, by simp at hf; omega⟩
    have h' : (b.advance 1).At (47 :: text) := h.tail
    rw [blockComment, Lex.bind_eq (lexGetchar_at h (.inl (by decide)))]
    have hno : ¬(((42 : Byte).toNat : Int) < 0 ∨
        prevc = 42 ∧ ((42 : Byte).toNat : Int) = 47) := by
      rintro (hlt | ⟨-, heq⟩)
      · exact absurd hlt (by decide)
      · exact absurd heq (by decide)
    simp only [if_neg hno]
    rw [blockComment, Lex.bind_eq (lexGetchar_at h' (.inl (by decide)))]
    rfl
  | cons x body ih =>
    obtain ⟨fuel, rfl⟩ := Nat.exists_eq_succ_of_ne_zero (Nat.ne_of_gt (Nat.zero_lt_of_lt hf))
    obtain ⟨v, hv, hneg, -, hcode⟩ := lexGetchar_code h (hbody x List.mem_cons_self)
    have h47 : v = 47 ↔ x = 47 := hcode 47 (by decide)
    have h42 : v = 42 ↔ x = 42 := hcode 42 (by decide)
    have hcond : ¬(v < 0 ∨ prevc = 42 ∧ v = 47) := by
      rintro (hlt | ⟨hp, heq⟩)
      · exact hneg hlt
      · exact hprev hp x rfl (h47.mp heq)
    rw [blockComment, Lex.bind_eq hv]
    simp only [if_neg hcond]
    rw [ih (fun y hy => hbody y (List.mem_cons_of_mem x hy)) ?_ ?_ (Nat.lt_of_succ_lt_succ hf)
      h.tail, Bio.advance_advance, List.length_cons, Nat.add_comm 1, Nat.add_right_comm]
    · intro heq y hy hy47
      obtain rfl := h42.mp heq
      obtain ⟨rest, rfl⟩ : ∃ rest, body = 47 :: rest := by
        cases body with
        | nil => cases hy
        | cons z rest =>
          obtain rfl : z = y := by simpa using hy
          exact ⟨rest, by rw [hy47]⟩
      exact hpair (List.IsPrefix.isInfix ⟨rest, rfl⟩)
    · exact fun hin => hpair (hin.trans (List.suffix_cons x body).isInfix)

/-! ## White space -/

/-- The character behind a slash that starts a token can be read. -/
def SlashFollowed (tok : List Byte) : Prop :=
  tok.head? = some 47 → ∃ x ∈ tok.tail.head?, Legal x

/-- `skipwhite` stops at the end of a line, in front of more white space, or at
the token. -/
theorem skipWhite_white {fuel : Nat} (hws : White ws) (ht : Token d tok)
    (hslash : SlashFollowed tok) (hf : ws.length < fuel) (h : b.At (ws ++ tok)) :
    (∃ pre post, ws = pre ++ post ∧ pre ≠ [] ∧ White post ∧
        skipWhite true fuel b = .ok (10, b.advance pre.length)) ∨
      ∃ c ∈ tok.head?, skipWhite true fuel b = .ok ((c.toNat : Int), b.advance (ws.length + 1)) := by
  induction hws generalizing b fuel with
  | nil =>
    obtain ⟨fuel, rfl⟩ := Nat.exists_eq_succ_of_ne_zero (Nat.ne_of_gt hf)
    right
    obtain @⟨c, rest, hc, -, hcomment⟩ := ht
    refine ⟨c, rfl, ?_⟩
    rw [skipWhite, Lex.bind_eq (lexGetchar_at h (.inl (by omega)))]
    have hblank : ¬((c.toNat : Int) = 32 ∨ (c.toNat : Int) = 9 ∨ (c.toNat : Int) = 13) := by
      omega
    have heol : ¬(c.toNat : Int) = 10 := by omega
    simp only [if_neg hblank, if_neg heol]
    by_cases hs : c = 47
    · subst hs
      obtain ⟨x, hx, hlegal⟩ := hslash rfl
      obtain ⟨rest', rfl⟩ : ∃ rest', rest = x :: rest' := by
        cases rest with
        | nil => cases hx
        | cons y rest' =>
          obtain rfl : y = x := by simpa using hx
          exact ⟨rest', rfl⟩
      have h' : (b.advance 1).At (x :: rest') := h.tail
      obtain ⟨hne47, hne42⟩ := hcomment rfl x rfl
      obtain ⟨v, hv, -, -, hcode⟩ := lexGetchar_code h' hlegal
      have hv47 : ¬v = 47 := fun heq => hne47 ((hcode 47 (by decide)).mp heq)
      have hv42 : ¬v = 42 := fun heq => hne42 ((hcode 42 (by decide)).mp heq)
      have hslash47 : ((47 : Byte).toNat : Int) = 47 := rfl
      simp only [hslash47, if_true]
      rw [Lex.bind_eq hv]
      simp only [if_neg hv47, if_neg hv42]
      rw [Lex.bind_eq (Lex.modify_apply _ _), Bio.advance_advance, Bio.ungetc_advance]
      rfl
    · have hne : ¬(c.toNat : Int) = 47 := fun heq => hs (toNat_inj.mp heq)
      simp only [if_neg hne]
      rfl
  | @blank c ws hc hws ih =>
    obtain ⟨fuel, rfl⟩ := Nat.exists_eq_succ_of_ne_zero (Nat.ne_of_gt (Nat.zero_lt_of_lt hf))
    have hread : lexGetchar b = .ok ((c.toNat : Int), b.advance 1) := by
      refine lexGetchar_at h ?_
      rcases hc with hc | hc | hc
      · exact .inl (by omega)
      · exact .inr (by simp [isBreak, hc])
      · exact .inr (by simp [isBreak, hc])
    have hblank : (c.toNat : Int) = 32 ∨ (c.toNat : Int) = 9 ∨ (c.toNat : Int) = 13 := by
      omega
    rw [skipWhite, Lex.bind_eq hread]
    simp only [if_pos hblank]
    rcases ih (Nat.lt_of_succ_lt_succ hf) h.tail with ⟨pre, post, rfl, hpre, hpost, hskip⟩ | ⟨x, hx, hskip⟩
    · refine .inl ⟨c :: pre, post, rfl, List.cons_ne_nil _ _, hpost, ?_⟩
      rw [hskip, Bio.advance_advance, List.length_cons, Nat.add_comm 1]
    · refine .inr ⟨x, hx, ?_⟩
      rw [hskip, Bio.advance_advance, List.length_cons, Nat.add_comm 1]
  | @eoln c ws hc hws ih =>
    obtain ⟨fuel, rfl⟩ := Nat.exists_eq_succ_of_ne_zero (Nat.ne_of_gt (Nat.zero_lt_of_lt hf))
    refine .inl ⟨[c], ws, rfl, List.cons_ne_nil _ _, hws, ?_⟩
    rw [skipWhite, Lex.bind_eq (lexGetchar_eoln h hc)]
    rfl
  | @line body ws c hbody hc hws ih =>
    obtain ⟨fuel, rfl⟩ := Nat.exists_eq_succ_of_ne_zero (Nat.ne_of_gt (Nat.zero_lt_of_lt hf))
    have h₁ : (b.advance 1).At (47 :: (body ++ c :: (ws ++ tok))) := by
      simpa using h.tail
    have h₂ : (b.advance 2).At (body ++ c :: (ws ++ tok)) := by simpa using h₁.tail
    have h₃ : (b.advance (2 + (body.length + 1))).At (ws ++ tok) := by
      simpa [Nat.add_assoc] using (Bio.At.advance h₂).tail
    have hleft : body.length < (b.advance 2).left := by
      rw [h₂.left_eq]
      simp
    have hrun : skipWhite true (fuel + 1) b =
        skipWhite true fuel (b.advance (2 + (body.length + 1))) := by
      rw [skipWhite, Lex.bind_eq (lexGetchar_at h (.inl (by decide)))]
      change (lexGetchar >>= _) (b.advance 1) = _
      rw [Lex.bind_eq (lexGetchar_at h₁ (.inl (by decide))), Bio.advance_advance]
      rw [if_pos (by decide), Lex.bind_eq (Lex.get_apply _), Lex.bind_eq (lineComment_body hbody hc hleft h₂), Bio.advance_advance]
    rw [hrun]
    have hfuel : ws.length < fuel := by simp at hf; omega
    rcases ih hfuel h₃ with ⟨pre, post, rfl, hpre, hpost, hskip⟩ | ⟨x, hx, hskip⟩
    · refine .inl ⟨47 :: 47 :: (body ++ c :: pre), post, by simp, List.cons_ne_nil _ _, hpost, ?_⟩
      rw [hskip, Bio.advance_advance]
      congr 3
      simp
      omega
    · refine .inr ⟨x, hx, ?_⟩
      rw [hskip, Bio.advance_advance]
      congr 3
      simp
      omega
  | @block body ws hbody hpair hws ih =>
    obtain ⟨fuel, rfl⟩ := Nat.exists_eq_succ_of_ne_zero (Nat.ne_of_gt (Nat.zero_lt_of_lt hf))
    have h₁ : (b.advance 1).At (42 :: (body ++ 42 :: 47 :: (ws ++ tok))) := by
      simpa using h.tail
    have h₂ : (b.advance 2).At (body ++ 42 :: 47 :: (ws ++ tok)) := by simpa using h₁.tail
    have h₃ : (b.advance (2 + (body.length + 2))).At (ws ++ tok) := by
      simpa [Nat.add_assoc] using (Bio.At.advance h₂).tail.tail
    have hleft : body.length + 1 < (b.advance 2).left := by
      rw [h₂.left_eq]
      simp
    have hrun : skipWhite true (fuel + 1) b =
        skipWhite true fuel (b.advance (2 + (body.length + 2))) := by
      rw [skipWhite, Lex.bind_eq (lexGetchar_at h (.inl (by decide)))]
      change (lexGetchar >>= _) (b.advance 1) = _
      rw [Lex.bind_eq (lexGetchar_at h₁ (.inl (by decide))), Bio.advance_advance]
      rw [if_neg (by decide), if_pos (by decide), Lex.bind_eq (Lex.get_apply _), Lex.bind_eq (blockComment_body hbody (fun h0 => absurd h0 (by decide)) hpair hleft h₂),
        Bio.advance_advance]
    rw [hrun]
    have hfuel : ws.length < fuel := by simp at hf; omega
    rcases ih hfuel h₃ with ⟨pre, post, rfl, hpre, hpost, hskip⟩ | ⟨x, hx, hskip⟩
    · refine .inl ⟨47 :: 42 :: (body ++ 42 :: 47 :: pre), post, by simp, List.cons_ne_nil _ _,
        hpost, ?_⟩
      rw [hskip, Bio.advance_advance]
      congr 3
      simp
      omega
    · refine .inr ⟨x, hx, ?_⟩
      rw [hskip, Bio.advance_advance]
      congr 3
      simp
      omega

/-- All white space is skipped, over any number of lines. -/
theorem skipToNext_white {fuel : Nat} (hws : White ws) (ht : Token d tok)
    (hslash : SlashFollowed tok) (hf : ws.length < fuel) (h : b.At (ws ++ tok)) :
    ∃ c ∈ tok.head?, skipToNext fuel b = .ok ((c.toNat : Int), b.advance (ws.length + 1)) := by
  induction fuel generalizing b ws with
  | zero => omega
  | succ fuel ih =>
    have hleft : ws.length < b.left := by
      obtain @⟨c, rest, -, -, -⟩ := ht
      rw [h.left_eq]
      simp
    rw [skipToNext, Lex.bind_eq (Lex.get_apply b)]
    rcases skipWhite_white hws ht hslash hleft h with
      ⟨pre, post, rfl, hpre, hpost, hskip⟩ | ⟨c, hc, hskip⟩
    · have hpos : 0 < pre.length := List.length_pos_of_ne_nil hpre
      rw [Lex.bind_eq hskip]
      rw [List.append_assoc] at h
      obtain ⟨c, hc, hnext⟩ := ih hpost (by simp at hf; omega) (Bio.At.advance h)
      refine ⟨c, hc, ?_⟩
      simp only [if_true]
      rw [hnext, Bio.advance_advance]
      congr 3
      simp
      omega
    · refine ⟨c, hc, ?_⟩
      have hne : ¬(c.toNat : Int) = 10 := by
        obtain @⟨x, rest, hx, -, -⟩ := ht
        obtain rfl : x = c := by simpa using hc
        omega
      rw [Lex.bind_eq hskip]
      simp only [if_neg hne]
      rfl

/-! ## Literals -/

/-- A character that is read as itself where no backslash stands in front of it. -/
def Storable (d : Delim) (c : Byte) : Prop := 32 ≤ c.toNat ∧ c ≠ 92 ∧ c ≠ d.byte

/-- The items are read as what they are. An escape with too few figures swallows
the backslash behind it; that does no harm when the character the backslash was
for is read as itself, or is another backslash whose own character is. -/
inductive Readable (d : Delim) : List LitItem → Prop
  | nil : Readable d []
  | cons {it : LitItem} {items : List LitItem} : it.Separate d → Readable d items →
      Readable d (it :: items)
  | short {k : NumKind} {figs : List Byte} {n : Nat} {c : Byte} {items : List LitItem} :
      figs.length < k.maxFigures → figuresValue k.base 0 figs ≠ d.code → Storable d c →
      Readable d items →
      Readable d (.num k figs :: (List.replicate n (.quoted 92) ++ .quoted c :: items))

/-- Quoted backslashes read the same from the second character on. -/
theorem backslashes_shift (n : Nat) (text : List Byte) :
    92 :: (textOf (List.replicate n (.quoted 92)) ++ text) =
      textOf (List.replicate n (.quoted 92)) ++ 92 :: text := by
  induction n with
  | zero => rfl
  | succ n ih =>
    rw [List.replicate_succ, textOf_cons]
    simp only [LitItem.text, List.cons_append, List.nil_append, ih]

theorem parseLoop_backslashes (n : Nat) {fuel : Nat} {buf : List Byte}
    (h : b.At (textOf (List.replicate n (.quoted 92)) ++ text)) :
    parseLoop d (n + fuel) buf b =
      parseLoop d fuel (buf ++ (List.replicate n (LitItem.quoted 92)).map LitItem.denote)
        (b.advance (textOf (List.replicate n (.quoted 92))).length) := by
  induction n generalizing b buf with
  | zero => simp
  | succ n ih =>
    rw [List.replicate_succ, textOf_cons, List.append_assoc] at h
    have hval : (LitItem.quoted 92).Valid d [] :=
      ⟨by decide, by decide, by decide, by decide, by intro n; cases n <;> decide⟩
    rw [Nat.add_right_comm, parseLoop_item hval (.inl (by decide)) h, ih h.advance]
    simp [List.replicate_succ]

/-- The loop over the items of a literal and its delimiter. The induction follows
how the items are read: one by one, or an escape with too few figures together
with the backslashes it shifts. -/
theorem parseLoop_literal {items : List LitItem} {fuel : Nat} {buf : List Byte}
    (hread : Readable d items) (hspells : Spells d items) (hws : White ws) (ht : Token d tok)
    (hslash : SlashFollowed tok) (hf : items.length < fuel)
    (h : b.At (textOf items ++ d.byte :: (ws ++ tok))) :
    parseLoop d fuel buf b =
      .ok (buf ++ items.map LitItem.denote,
        b.advance ((textOf items).length + (1 + ws.length))) := by
  induction hread generalizing b fuel buf with
  | nil =>
    obtain ⟨fuel, rfl⟩ := Nat.exists_eq_succ_of_ne_zero (Nat.ne_of_gt hf)
    have hd32 : 32 ≤ d.byte.toNat := by cases d <;> decide
    have hd92 : d.byte ≠ 92 := by cases d <;> decide
    have h' : (b.advance 1).At (ws ++ tok) := h.tail
    have hleft : ws.length < (b.advance 1).left + 1 := by
      rw [h'.left_eq, List.length_append]
      omega
    obtain ⟨c, hc, hskip⟩ := skipToNext_white hws ht hslash hleft h'
    have hne : ¬(c.toNat : Int) = d.code := by
      obtain @⟨x, rest, -, hx, -⟩ := ht
      obtain rfl : x = c := by simpa using hc
      rw [d.code_eq]
      exact fun heq => hx (toNat_inj.mp heq)
    rw [parseLoop, Lex.bind_eq (readPiece_plain hd32 hd92 h)]
    simp only [if_pos d.code_eq.symm]
    rw [Lex.bind_eq (Lex.get_apply _), Lex.bind_eq hskip]
    simp only [if_neg hne]
    rw [Lex.bind_eq (Lex.modify_apply _ _), Bio.ungetc_advance]
    simp
  | @cons it items hsep _ ih =>
    obtain ⟨fuel, rfl⟩ := Nat.exists_eq_succ_of_ne_zero (Nat.ne_of_gt (Nat.zero_lt_of_lt hf))
    rw [textOf_cons, List.append_assoc] at h
    rw [parseLoop_item hspells.1 hsep h,
      ih hspells.2 (Nat.lt_of_succ_lt_succ hf) h.advance]
    simp [Nat.add_assoc]
  | @short k figs n c items hshort hne hc _ ih =>
    have hlen : 1 + n + 1 + items.length < fuel := by simp at hf; omega
    obtain ⟨rest, rfl⟩ : ∃ rest, fuel = (n + (rest + 1)) + 1 := ⟨fuel - n - 2, by omega⟩
    have hsp : ∀ n, Spells d (List.replicate n (.quoted 92) ++ .quoted c :: items) →
        Spells d (.quoted c :: items) := by
      intro n hs
      induction n with
      | zero => exact hs
      | succ n ihn => exact ihn hs.2
    obtain ⟨hquoted, hitems⟩ := hsp n hspells.2
    -- Behind the figures there is a backslash, and then what is read as if it were not there.
    have htext : textOf (List.replicate n (.quoted 92) ++ .quoted c :: items) ++
        d.byte :: (ws ++ tok) = 92 :: (textOf (List.replicate n (.quoted 92)) ++
          c :: (textOf items ++ d.byte :: (ws ++ tok))) := by
      rw [backslashes_shift]
      simp [LitItem.text]
    have hval := hspells.1
    rw [textOf_cons, List.append_assoc, htext] at h
    obtain ⟨next, hnext⟩ : ∃ next,
        textOf (List.replicate n (.quoted 92) ++ .quoted c :: items) ++ [d.byte] = 92 :: next := by
      rw [textOf_append, textOf_cons]
      cases n with
      | zero => exact ⟨_, rfl⟩
      | succ n => exact ⟨_, rfl⟩
    rw [hnext] at hval
    have hplain : (LitItem.plain c).Valid d [] := hc
    have h₁ := Bio.At.tail (Bio.At.advance h)
    have h₂ := Bio.At.advance h₁
    have h₃ := Bio.At.advance (p := (LitItem.plain c).text) h₂
    rw [parseLoop_short hval hshort hne (by decide) h, ← Bio.advance_advance,
      parseLoop_backslashes n h₁, parseLoop_item hplain trivial h₂,
      ih hitems (by omega) h₃]
    simp only [Bio.advance_advance]
    congr 2
    · simp [LitItem.denote]
    · congr 1
      have hl : (textOf (List.replicate n (.quoted 92) ++ .quoted c :: items)).length =
          (textOf (List.replicate n (.quoted 92))).length + 2 + (textOf items).length := by
        simp [LitItem.text]
        omega
      simp only [textOf_cons, List.length_append, hl, LitItem.text, List.length_cons,
        List.length_nil]
      omega

/-- A literal whose items are readable, with white space behind it and then a
token other than its delimiter, is parsed as the bytes its items denote, and the
source is left right behind the white space. A slash that is the token must have
a legal character behind it. -/
theorem parseString_spells (d : Delim) (items : List LitItem) (pre ws tok : List Byte)
    (hspells : Spells d items) (hws : White ws) (ht : Token d tok)
    (hread : Readable d items) (hslash : SlashFollowed tok) :
    parseString d ⟨pre ++ (textOf items ++ d.byte :: (ws ++ tok)), pre.length⟩ =
      .ok (items.map LitItem.denote,
        ⟨pre ++ (textOf items ++ d.byte :: (ws ++ tok)),
          pre.length + ((textOf items).length + (1 + ws.length))⟩) := by
  have h : Bio.At ⟨pre ++ (textOf items ++ d.byte :: (ws ++ tok)), pre.length⟩
      (textOf items ++ d.byte :: (ws ++ tok)) :=
    ⟨List.drop_left, by simp⟩
  have hitems : items.length ≤ (textOf items).length := by
    clear hspells hread h
    induction items with
    | nil => exact Nat.le_refl 0
    | cons it items ih =>
      have hpos : 0 < it.text.length := by cases it <;> simp [LitItem.text]
      rw [textOf_cons, List.length_append, List.length_cons]
      omega
  have hf : items.length <
      Bio.left ⟨pre ++ (textOf items ++ d.byte :: (ws ++ tok)), pre.length⟩ := by
    rw [h.left_eq]
    simp
    omega
  rw [parseString, Lex.bind_eq (Lex.get_apply _),
    parseLoop_literal hread hspells hws ht hslash hf h]
  rfl

/-- `\1\\\q\x41` in quotes, in front of a comment and a slash: the octal escape
swallows a backslash, and the two characters that lose theirs are read the same. -/
theorem parseString_spells_shifted :
    parseString .string
      ⟨34 :: (textOf [.num .octal [49], .quoted 92, .quoted 113, .num .hex [52, 49]] ++
        34 :: ([32, 47, 47, 34, 10] ++ [47, 120])), 1⟩ =
      .ok ([1, 92, 113, 65],
        ⟨34 :: (textOf [.num .octal [49], .quoted 92, .quoted 113, .num .hex [52, 49]] ++
          34 :: ([32, 47, 47, 34, 10] ++ [47, 120])), 17⟩) := by
  refine parseString_spells .string
    [.num .octal [49], .quoted 92, .quoted 113, .num .hex [52, 49]] [34] [32, 47, 47, 34, 10]
    [47, 120] ?_ ?_ ?_ ?_ ?_
  · refine ⟨?_, ?_, ?_, ?_, trivial⟩
    · simp [LitItem.Valid, NumKind.maxFigures, NumKind.base, IsFigure, figureValue, textOf,
        LitItem.text]
    · exact ⟨by decide, by decide, by decide, by decide, by intro n; cases n <;> decide⟩
    · exact ⟨by decide, by decide, by decide, by decide, by intro n; cases n <;> decide⟩
    · simp [LitItem.Valid, NumKind.maxFigures, NumKind.base, IsFigure, figureValue]
  · refine .blank (.inl rfl) (@White.line [34] [] 10 ?_ (.inl rfl) .nil)
    simp [Legal, IsEoln]
  · exact .mk (by decide) (by decide) (by decide)
  · refine .short (n := 1) (by decide) (by decide) ⟨by decide, by decide, by decide⟩ ?_
    exact .cons ⟨rfl, by decide⟩ .nil
  · intro _
    exact ⟨120, rfl, .inl (by decide)⟩

/-- `\1b` in quotes spells two bytes, and is parsed as one: the scanner of octal
figures takes the `b`. -/
theorem parseString_loses_character :
    Spells .string [.num .octal [49], .plain 98] ∧ White [32] ∧ Token .string [120] ∧
    [LitItem.num .octal [49], .plain 98].map LitItem.denote = [1, 98] ∧
    parseString .string ⟨34 :: (textOf [.num .octal [49], .plain 98] ++ 34 :: ([32] ++ [120])), 1⟩ =
      .ok ([1], ⟨34 :: (textOf [.num .octal [49], .plain 98] ++ 34 :: ([32] ++ [120])), 6⟩) := by
  refine ⟨⟨?_, ⟨by decide, by decide, by decide⟩, trivial⟩, .blank (.inl rfl) .nil,
    .mk (by decide) (by decide) (by decide), rfl, rfl⟩
  simp [LitItem.Valid, NumKind.maxFigures, NumKind.base, IsFigure, figureValue, textOf,
    LitItem.text]

/-- `\x22` in quotes spells the delimiter, which ends the literal; the quote behind
it then continues it, up to the end of the source. -/
theorem parseString_ends_at_escape :
    Spells .string [.num .hex [50, 50]] ∧
    parseString .string ⟨34 :: (textOf [.num .hex [50, 50]] ++ 34 :: ([32] ++ [120])), 1⟩ =
      .error "End of file inside string literal!" := by
  refine ⟨⟨?_, trivial⟩, rfl⟩
  simp [LitItem.Valid, NumKind.maxFigures, NumKind.base, IsFigure, figureValue]

/-- The conditions are not necessary: two slashes lost to escapes in the literal
can come back as the two slashes of a comment behind it, when the last escape has
swallowed the delimiter and a quote in the comment ends the literal instead. -/
theorem parseString_coincidence :
    let items := [LitItem.num .decimal [52, 55], .plain 47, .num .decimal [52, 55], .plain 47,
      .num .decimal [52, 55]]
    let source := 34 :: (textOf items ++ 34 :: ([47, 47, 34, 10] ++ [120]))
    ¬Readable .string items ∧
    parseString .string ⟨source, 1⟩ =
      .ok (items.map LitItem.denote, ⟨source, 1 + ((textOf items).length + (1 + 4))⟩) := by
  refine ⟨?_, by decide +kernel⟩
  intro h
  generalize hi : [LitItem.num .decimal [52, 55], .plain 47, .num .decimal [52, 55], .plain 47,
    .num .decimal [52, 55]] = items at h
  cases h with
  | nil => cases hi
  | cons hsep _ =>
    cases hi
    exact absurd hsep.1 (by decide)
  | @short k figs n c rest _ _ _ _ =>
    cases n with
    | zero => cases hi
    | succ n => cases hi

end Eel.Lexer
