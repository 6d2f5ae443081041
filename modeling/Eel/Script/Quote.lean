-- SUMMARY: quote: the text of a literal for a sequence of bytes, which the lexer reads as these bytes, whatever the flags.
import Eel.Compiler.LiteralParse
import Eel.Script.Figures

/-!
# Quoted text

With `STRINGS_MULTILINE` a line feed ends a line of the text as well. Between quotes the line
is a literal of its own then, which the lexer puts together with the one on the next line;
without quotes it is a line feed within the literal, which the lexer skips.
-/

namespace Eel

namespace Strings

/-- `STRINGS_NOQUOTES`. -/
def noQuotes : BitVec 32 := 1

/-- `STRINGS_MULTILINE`. -/
def multiline : BitVec 32 := 2

/-- `STRINGS_JSONESCAPES`. -/
def jsonEscapes : BitVec 32 := 4

def ascii (text : List Char) : List Byte := text.map fun c => BitVec.ofNat 8 c.toNat

/-- What is appended for a character, which is the last one or not. -/
def quoteChar (flags : BitVec 32) (last : Bool) (c : Byte) : Option (List Byte) :=
  let jsonesc := flags &&& jsonEscapes ≠ 0
  match c.toNat with
  | 92 => some (ascii ['\\', '\\'])
  | 7 => some (if jsonesc then ascii ['\\', 'u', '0', '0', '0', '7'] else ascii ['\\', 'a'])
  | 8 => some (ascii ['\\', 'b'])
  | 12 => some (ascii ['\\', 'f'])
  | 10 =>
    if flags &&& multiline ≠ 0 then
      if flags &&& noQuotes ≠ 0 then some (ascii ['\\', 'n', '\n'])
      else if last then some (ascii ['\\', 'n'])
      else some (ascii ['\\', 'n', '"', '\n', '"'])
    else some (ascii ['\\', 'n'])
  | 13 => some (ascii ['\\', 'r'])
  | 9 => some (ascii ['\\', 't'])
  | 11 => some (if jsonesc then ascii ['\\', 'u', '0', '0', '0', 'B'] else ascii ['\\', 'v'])
  | 34 => some (ascii ['\\', '"'])
  | 39 => some (if jsonesc then [39] else [92, 39])
  | code =>
    if code < 32 ∨ 126 < code then
      if jsonesc then (hexstr 0 (c.setWidth 32) 4).map (ascii ['\\', 'u'] ++ ·)
      else (octstr 0 (c.setWidth 32) 3).map (ascii ['\\'] ++ ·)
    else some [c]

/-- The loop. -/
def quoteChars (flags : BitVec 32) : List Byte → Option (List Byte)
  | [] => some []
  | c :: data => do
    let text ← quoteChar flags data.isEmpty c
    let rest ← quoteChars flags data
    some (text ++ rest)

def quote (data : List Byte) (flags : BitVec 32) : Option (List Byte) := do
  let buf := if flags &&& noQuotes ≠ 0 then [] else ascii ['"']
  let text ← quoteChars flags data
  some (buf ++ text ++ if flags &&& noQuotes ≠ 0 then [] else ascii ['"'])

/-! ## Text that is read as bytes -/

open Lexer

variable {d : Delim} {text text' data data' : List Byte} {flags : BitVec 32} {last : Bool} {c : Byte}

/-- Rounds of the loop over a literal get to the end of the text, with these bytes, from wherever it stands. -/
def Spells (d : Delim) (text data : List Byte) : Prop :=
  ∃ turns ≤ text.length, ∀ {b : Bio} {rest buf : List Byte} {fuel : Nat}, b.At (text ++ rest) →
    parseLoop d (turns + fuel) buf b = parseLoop d fuel (buf ++ data) (b.advance text.length)

theorem Spells.nil : Spells d [] [] := by
  refine ⟨0, Nat.le_refl 0, fun {b rest buf fuel} _ => ?_⟩
  rw [Nat.zero_add, List.append_nil, List.length_nil, Bio.advance_zero]

theorem Spells.append (h : Spells d text data) (h' : Spells d text' data') :
    Spells d (text ++ text') (data ++ data') := by
  obtain ⟨turns, hle, h⟩ := h
  obtain ⟨turns', hle', h'⟩ := h'
  refine ⟨turns + turns', ?_, fun {b rest buf fuel} hb => ?_⟩
  · rw [List.length_append]
    exact Nat.add_le_add hle hle'
  · rw [List.append_assoc] at hb
    rw [Nat.add_assoc, h hb, h' hb.advance, List.append_assoc, Bio.advance_advance, List.length_append]

theorem Spells.item (it : LitItem) (hval : it.Valid d []) (hsep : it.Separate d) : Spells d it.text [it.denote] := by
  refine ⟨1, ?_, fun {b rest buf fuel} hb => ?_⟩
  · cases it <;> simp [LitItem.text]
  · rw [Nat.add_comm]
    exact parseLoop_item hval hsep hb

/-- A line feed within a literal. -/
theorem Spells.lineFeed : Spells d [10] [] := by
  refine ⟨1, Nat.le_refl 1, fun {b rest buf fuel} hb => ?_⟩
  have hpiece : readPiece d b = .ok (none, b.advance 1) := by
    rw [readPiece, Lex.bind_eq (lexGetchar_at hb (.inr rfl))]
    rfl
  rw [Nat.add_comm, parseLoop, Lex.bind_eq hpiece, List.append_nil]
  rfl

/-- The end of a literal and the beginning of the next one, on the next line. -/
theorem Spells.nextLiteral : Spells .string [34, 10, 34] [] := by
  refine ⟨1, by decide, fun {b rest buf fuel} hb => ?_⟩
  have hquote : (b.advance 1).At ([10] ++ 34 :: rest) := hb.tail
  -- To skip white space, any token will do.
  have htoken : Lexer.Token .character (34 :: rest) := .mk (by decide) (by decide) nofun
  have hleft : [(10 : Byte)].length < (b.advance 1).left + 1 := by
    rw [hquote.left_eq]
    simp
  obtain ⟨c, hc, hskip⟩ := skipToNext_white (.eoln (.inl rfl) .nil) htoken nofun hleft hquote
  cases hc
  rw [Nat.add_comm, parseLoop, Lex.bind_eq (readPiece_plain (by decide) (by decide) hb), List.append_nil]
  change (do let c ← skipToNext ((← get).left + 1); if c = 34 then _ else _) (b.advance 1) = _
  rw [Lex.bind_eq (Lex.get_apply _), Lex.bind_eq hskip, Bio.advance_advance]
  rfl

/-! ## Characters -/

theorem figureValue_figure : ∀ n < 16, figureValue (figure n).toNat = n := by
  decide

theorem figure_range : ∀ n < 4, 48 ≤ (figure n).toNat ∧ (figure n).toNat ≤ 51 := by
  decide

theorem isFigure_figure (base : Nat) {n : Nat} (hbase : base ≤ 16) (h : n < base) : IsFigure base (figure n) := by
  unfold IsFigure
  rw [figureValue_figure n (Nat.lt_of_lt_of_le h hbase)]
  exact ⟨Int.natCast_nonneg n, Int.ofNat_lt.mpr h⟩

/-- The figures that are shifted out of a byte. -/
theorem masked_byte (R : Radix) (s : Nat) :
    ((c.setWidth 32).sshiftRight s &&& R.mask).toNat = c.toNat / 2 ^ s % 2 ^ R.bits := by
  have hsign : (c.setWidth 32).msb = false := by
    rw [BitVec.msb_setWidth, BitVec.getLsbD_of_ge _ _ (by decide), Bool.and_false]
  rw [Radix.masked_eq (.inr hsign), BitVec.toNat_setWidth_of_le (by decide)]

theorem octstr_byte : octstr 0 (c.setWidth 32) 3 =
    some [figure (c.toNat / 64 % 8), figure (c.toNat / 8 % 8), figure (c.toNat % 8)] := by
  have h : octstr 0 (c.setWidth 32) 3 = _ := Radix.str_inside (n := 3) (by decide) (by decide)
  rw [h]
  simp only [masked_byte]
  simp [oct, List.range_succ]

theorem hexstr_byte : hexstr 0 (c.setWidth 32) 4 =
    some [figure 0, figure 0, figure (c.toNat / 16), figure (c.toNat % 16)] := by
  have hlt : c.toNat < 256 := c.isLt
  have h : hexstr 0 (c.setWidth 32) 4 = _ := Radix.str_inside (n := 4) (by decide) (by decide)
  rw [h]
  simp only [masked_byte]
  have h3 : c.toNat / 4096 % 16 = 0 := by omega
  have h2 : c.toNat / 256 % 16 = 0 := by omega
  have h1 : c.toNat / 16 % 16 = c.toNat / 16 := by omega
  simp [hex, List.range_succ, h1, h2, h3]

/-- An escape with all figures of a byte. -/
theorem Spells.num (k : NumKind) {figures : List Byte} (hlen : figures.length = k.maxFigures)
    (hfigures : ∀ x ∈ figures, IsFigure k.base x)
    (hhead : k = .octal → ∀ x ∈ figures.head?, 48 ≤ x.toNat ∧ x.toNat ≤ 51)
    (hvalue : figuresValue k.base 0 figures = c.toNat) (hc : c ≠ d.byte) :
    Spells d (92 :: k.lead ++ figures) [c] := by
  have hpos : 0 < figures.length := by
    rw [hlen]
    cases k <;> decide
  have hle : figuresValue k.base 0 figures ≤ 255 := by
    have := c.isLt
    omega
  have hunicode (hk : k = .unicode) : figures.length = 4 ∧ figuresValue k.base 0 figures ≤ 255 := by
    subst hk
    exact ⟨hlen, hle⟩
  have hcode : figuresValue k.base 0 figures ≠ d.code := by
    rw [hvalue, d.code_eq]
    exact fun heq => hc (toNat_inj.mp heq)
  have hvalid : (LitItem.num k figures).Valid d [] := ⟨hpos, hlen.le, hfigures, hhead, hunicode, fun hlt => (hlt.ne hlen).elim⟩
  have hitem : Spells d (LitItem.num k figures).text [_] := .item _ hvalid ⟨hlen, hcode⟩
  rw [LitItem.denote, hvalue, ofInt_toNat] at hitem
  exact hitem

theorem Spells.octal (hc : c ≠ d.byte) :
    Spells d [92, figure (c.toNat / 64 % 8), figure (c.toNat / 8 % 8), figure (c.toNat % 8)] [c] := by
  have hlt : c.toNat < 256 := c.isLt
  refine .num .octal rfl (fun x hx => ?_) (fun _ x hx => ?_) ?_ hc
  · simp only [List.mem_cons, List.not_mem_nil, or_false] at hx
    rcases hx with rfl | rfl | rfl
    all_goals exact isFigure_figure 8 (by decide) (Nat.mod_lt _ (by decide))
  · cases hx
    exact figure_range _ (by omega)
  · unfold figuresValue
    simp only [List.foldl_cons, List.foldl_nil]
    rw [figureValue_figure, figureValue_figure, figureValue_figure]
    · simp only [NumKind.base]
      omega
    all_goals omega

theorem Spells.unicode (hc : c ≠ d.byte) :
    Spells d [92, 117, figure 0, figure 0, figure (c.toNat / 16), figure (c.toNat % 16)] [c] := by
  have hlt : c.toNat < 256 := c.isLt
  refine .num .unicode rfl (fun x hx => ?_) nofun ?_ hc
  · simp only [List.mem_cons, List.not_mem_nil, or_false] at hx
    rcases hx with rfl | rfl | rfl | rfl
    all_goals exact isFigure_figure 16 (Nat.le_refl 16) (by omega)
  · unfold figuresValue
    simp only [List.foldl_cons, List.foldl_nil]
    rw [figureValue_figure, figureValue_figure, figureValue_figure]
    · simp only [NumKind.base]
      omega
    all_goals omega

theorem Spells.named (n : Named) : Spells d [92, n.letter] [n.char] :=
  .item (.named n) trivial trivial

/-- Character literals have no JSON escapes, and are on one line. -/
def Fits (flags : BitVec 32) (d : Delim) : Prop :=
  d = .character → flags &&& jsonEscapes = 0 ∧ (flags &&& multiline = 0 ∨ flags &&& noQuotes ≠ 0)

theorem Spells.quoted (hc : 32 ≤ c.toNat) (hval : (LitItem.quoted c).Valid d []) : Spells d [92, c] [c] :=
  .item (.quoted c) hval (.inl hc)

theorem quoteChar_spells (hfits : Fits flags d) (last : Bool) (c : Byte) :
    ∃ text, quoteChar flags last c = some text ∧ Spells d text [c] := by
  have hquoted {x : Byte} (h : x = 92 ∨ x = 34 ∨ x = 39) : Spells d [92, x] [x] := by
    refine .quoted ?_ ⟨?_, ?_, ?_, ?_, fun n => ?_⟩
    all_goals rcases h with rfl | rfl | rfl
    all_goals first | decide | (cases n <;> decide)
  unfold quoteChar
  dsimp only
  split
  · rename_i h
    obtain rfl : c = 92 := BitVec.eq_of_toNat_eq h
    exact ⟨_, rfl, hquoted (.inl rfl)⟩
  · rename_i h
    obtain rfl : c = 7 := BitVec.eq_of_toNat_eq h
    refine ⟨_, rfl, ?_⟩
    have hunicode : Spells d (ascii ['\\', 'u', '0', '0', '0', '7']) [7] := .unicode (c := 7) (by cases d <;> decide)
    split
    · exact hunicode
    · exact .named .bell
  · rename_i h
    obtain rfl : c = 8 := BitVec.eq_of_toNat_eq h
    exact ⟨_, rfl, .named .backspace⟩
  · rename_i h
    obtain rfl : c = 12 := BitVec.eq_of_toNat_eq h
    exact ⟨_, rfl, .named .formFeed⟩
  · rename_i h
    obtain rfl : c = 10 := BitVec.eq_of_toNat_eq h
    have hnewline : Spells d [92, 110] [10] := .named .newline
    split
    · rename_i hmulti
      split
      · exact ⟨_, rfl, hnewline.append .lineFeed⟩
      · rename_i hquotes
        split
        · exact ⟨_, rfl, hnewline⟩
        · cases d with
          | string => exact ⟨_, rfl, hnewline.append .nextLiteral⟩
          | character => exact ((hfits rfl).2.elim hmulti hquotes).elim
    · exact ⟨_, rfl, hnewline⟩
  · rename_i h
    obtain rfl : c = 13 := BitVec.eq_of_toNat_eq h
    exact ⟨_, rfl, .named .return⟩
  · rename_i h
    obtain rfl : c = 9 := BitVec.eq_of_toNat_eq h
    exact ⟨_, rfl, .named .tab⟩
  · rename_i h
    obtain rfl : c = 11 := BitVec.eq_of_toNat_eq h
    refine ⟨_, rfl, ?_⟩
    have hunicode : Spells d (ascii ['\\', 'u', '0', '0', '0', 'B']) [11] := .unicode (c := 11) (by cases d <;> decide)
    split
    · exact hunicode
    · exact .named .verticalTab
  · rename_i h
    obtain rfl : c = 34 := BitVec.eq_of_toNat_eq h
    exact ⟨_, rfl, hquoted (.inr (.inl rfl))⟩
  · rename_i h
    obtain rfl : c = 39 := BitVec.eq_of_toNat_eq h
    refine ⟨_, rfl, ?_⟩
    split
    · rename_i hjson
      cases d with
      | string => exact .item (.plain 39) ⟨by decide, by decide, by decide⟩ trivial
      | character => exact (hjson (hfits rfl).1).elim
    · exact hquoted (.inr (.inr rfl))
  · rename_i h92 _ _ _ _ _ _ _ h34 h39
    have hc : c ≠ d.byte := by
      rintro rfl
      cases d with
      | string => exact h34 rfl
      | character => exact h39 rfl
    split
    · split
      · rw [hexstr_byte]
        exact ⟨_, rfl, .unicode hc⟩
      · rw [octstr_byte]
        exact ⟨_, rfl, .octal hc⟩
    · rename_i hplain
      exact ⟨_, rfl, .item (.plain c) ⟨by omega, fun h => h92 (congrArg BitVec.toNat h), hc⟩ trivial⟩

/-! ## Texts -/

theorem quoteChars_spells (hfits : Fits flags d) (data : List Byte) :
    ∃ text, quoteChars flags data = some text ∧ Spells d text data := by
  induction data with
  | nil => exact ⟨[], rfl, .nil⟩
  | cons c data ih =>
    obtain ⟨text, hchar, hspells⟩ := quoteChar_spells hfits data.isEmpty c
    obtain ⟨rest, hrest, hspells'⟩ := ih
    refine ⟨text ++ rest, ?_, hspells.append hspells'⟩
    rw [quoteChars, hchar, hrest]
    rfl

/-- The text between the delimiters is read as these bytes, whatever white space and which token are behind it. -/
def ReadAs (d : Delim) (text data : List Byte) : Prop :=
  ∀ pre ws tok, White ws → Lexer.Token d tok → SlashFollowed tok →
    parseString d ⟨pre ++ (text ++ d.byte :: (ws ++ tok)), pre.length⟩ =
      .ok (data, ⟨pre ++ (text ++ d.byte :: (ws ++ tok)), pre.length + (text.length + (1 + ws.length))⟩)

theorem Spells.readAs (h : Spells d text data) : ReadAs d text data := by
  intro pre ws tok hws ht hslash
  obtain ⟨turns, hle, h⟩ := h
  have hb : Bio.At ⟨pre ++ (text ++ d.byte :: (ws ++ tok)), pre.length⟩ (text ++ d.byte :: (ws ++ tok)) :=
    ⟨List.drop_left, by simp⟩
  obtain ⟨fuel, hfuel⟩ : ∃ fuel, Bio.left ⟨pre ++ (text ++ d.byte :: (ws ++ tok)), pre.length⟩ = turns + (fuel + 1) := by
    refine ⟨text.length - turns + (ws ++ tok).length, ?_⟩
    rw [hb.left_eq, List.length_append, List.length_cons]
    omega
  -- Nothing is left but the delimiter.
  have hend : parseLoop d (fuel + 1) ([] ++ data) _ = _ :=
    parseLoop_literal .nil trivial hws ht hslash (Nat.succ_pos fuel) hb.advance
  rw [parseString, Lex.bind_eq (Lex.get_apply _), hfuel, h hb, hend]
  simp [Bio.advance, Nat.add_assoc]

/-- `quote` comes to an end, and what it returns is read as what was quoted: as a literal of its own, or between
quotes that are put around it. -/
theorem quote_readAs (data : List Byte) (flags : BitVec 32) :
    ∃ text, quote data flags = some (if flags &&& noQuotes ≠ 0 then text else 34 :: (text ++ [34])) ∧
      ReadAs .string text data ∧
      (flags &&& noQuotes ≠ 0 → flags &&& jsonEscapes = 0 → ReadAs .character text data) := by
  have hfits : Fits flags .string := nofun
  obtain ⟨text, htext, hstring⟩ := quoteChars_spells hfits data
  refine ⟨text, ?_, hstring.readAs, fun hquotes hjson => ?_⟩
  · unfold quote
    rw [htext]
    split
    · exact congrArg some (List.append_nil _)
    · rfl
  · obtain ⟨text', htext', hchar⟩ := quoteChars_spells (d := .character) (fun _ => ⟨hjson, .inr hquotes⟩) data
    obtain rfl : text = text' := Option.some.inj (htext.symm.trans htext')
    exact hchar.readAs

/-- Two lines that end in line feeds, as two literals. -/
example : quote [97, 10, 34, 10] multiline =
    some (ascii ['"', 'a', '\\', 'n', '"', '\n', '"', '\\', '"', '\\', 'n', '"']) := by
  decide +kernel

end Strings

end Eel
