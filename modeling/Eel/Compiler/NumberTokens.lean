-- SUMMARY: When the scanner of numbers succeeds, with which value, and which numerals become integer tokens.
import Eel.Compiler.LiteralParse
import Eel.Compiler.Numerals
import Eel.Compiler.Tokens

/-!
# Number tokens

At the end of the source, the scanner reads the last character again or does not return. Elsewhere it
reads the numeral that a text starts with, and leaves what is behind it.
-/

namespace Eel

namespace Lexer

/-- The scanner returns this with rounds enough. -/
def Succeeds (b : Bio) (r : Bool × ℚ) (b' : Bio) : Prop :=
  ∃ k, ∀ rounds, k < rounds → bioReadNum rounds b = some (.ok r, b')

/-- The scanner returns an error with rounds enough, and where it started. -/
def Fails (b : Bio) : Prop := ∃ k, ∀ rounds, k < rounds → ∃ e, bioReadNum rounds b = some (.error e, b)

variable {b b' : Bio} {c : Byte} {t rest : List Byte} {rounds : Nat} {L : Numeral} {S : SymTables} {X : NumCasts}
  {flags : LexFlags}

theorem seekSet_pos (h : b.pos ≤ b.data.length) : b.seekSet b.pos = b := by
  unfold Bio.seekSet
  rw [Int.toNat_natCast, Nat.min_eq_left h]

theorem bioReadNum_ok {r : Bool × ℚ} (h : readNum rounds b = some (.ok (r, b'))) :
    bioReadNum rounds b = some (.ok r, b'.ungetc) := by
  unfold bioReadNum
  rw [h]
  rfl

theorem bioReadNum_error {e : NumError} (hpos : b.pos ≤ b.data.length) (h : readNum rounds b = some (.error e)) :
    bioReadNum rounds b = some (.error e, b) := by
  unfold bioReadNum
  rw [h]
  dsimp only [Option.map_some]
  rw [seekSet_pos hpos]

/-- A failure does not move the position. -/
theorem bioReadNum_error_eq {e : NumError} (hpos : b.pos ≤ b.data.length)
    (h : bioReadNum rounds b = some (.error e, b')) : b' = b := by
  unfold bioReadNum at h
  obtain ⟨r, -, hr⟩ := Option.map_eq_some_iff.mp h
  cases r with
  | ok r => cases hr
  | error e' =>
    dsimp only at hr
    rw [seekSet_pos hpos] at hr
    exact (congrArg Prod.snd hr).symm

theorem succeeds_of_reads (hread : L.Reads t (c :: rest)) (h : b.On t) (hstart : ∀ d ∈ t.head?, StartsNumber d) :
    ∃ b', Succeeds b (L.isReal, L.value) b' ∧ b'.data = b.data ∧ b'.At (c :: rest) := by
  obtain ⟨b', h', hdata, hon⟩ := readNum_read hread h hstart (Nat.lt_succ_self t.length)
  have hsame (rounds : Nat) (hlt : t.length < rounds) :
      bioReadNum rounds b = some (.ok (L.isReal, L.value), b'.ungetc) := by
    obtain ⟨b'', h'', hdata'', hon''⟩ := readNum_read hread h hstart hlt
    have heq : b'' = b' := Bio.On.unique hon'' hon (hdata''.trans hdata.symm)
    rw [bioReadNum_ok h'', heq]
  exact ⟨b'.ungetc, ⟨t.length, hsame⟩, Bio.ungetc_data.trans hdata, hon.ungetc⟩

/-! ## The lexer at the start of a token -/

theorem getchar_at {α : Type} {f : Int → Scan CompileError α} (h : b.At (c :: t)) (hc : 32 ≤ c.toNat) :
    (Scan.lexGetchar >>= f) b = f c.toNat (b.advance 1) :=
  Scan.bind_ok (congrArg some (lexGetchar_at h (.inl hc)))

/-- A slash that starts no comment has something else behind it. -/
def StartsToken (t : List Byte) : Prop := ∃ x ∈ t.head?, Legal x ∧ x ≠ 47 ∧ x ≠ 42

theorem skipwhiteLoop_token {reportEoln : Bool} (h : b.At (c :: t)) (hc : 32 < c.toNat)
    (hslash : c = 47 → StartsToken t) :
    skipwhiteLoop reportEoln (rounds + 1) b = some (.ok (c.toNat, b.advance 1)) := by
  have hblank : ¬ ((c.toNat : Int) = 32 ∨ (c.toNat : Int) = 9 ∨ (c.toNat : Int) = 13) := by
    omega
  have heoln : ¬ (c.toNat : Int) = 10 := by
    omega
  unfold skipwhiteLoop
  rw [getchar_at h (Nat.le_of_lt hc), if_neg hblank, if_neg heoln]
  by_cases hc' : c = 47
  · subst hc'
    obtain ⟨x, hx, hlegal, hne, hne'⟩ := hslash rfl
    obtain ⟨r, rfl⟩ : ∃ r, t = x :: r := by
      cases t with
      | nil => cases hx
      | cons y r => exact ⟨r, congrArg (· :: r) (Option.some.inj hx)⟩
    obtain ⟨v, hv, -, -, hcode⟩ := lexGetchar_code h.tail hlegal
    have hread : Scan.lexGetchar (b.advance 1) = some (.ok (v, (b.advance 1).advance 1)) := congrArg some hv
    have hslash' : ((47 : Byte).toNat : Int) = 47 := rfl
    have hv47 : v ≠ 47 := fun heq => hne ((hcode 47 (by decide)).mp heq)
    have hv42 : v ≠ 42 := fun heq => hne' ((hcode 42 (by decide)).mp heq)
    rw [hslash', if_pos rfl, Scan.bind_ok hread, if_neg hv47, if_neg hv42]
    have hback : ((b.advance 1).advance 1).ungetc = b.advance 1 := by
      rw [Bio.advance_advance]
      exact Bio.ungetc_advance b 1
    exact congrArg (fun b => some (Except.ok ((47 : Int), b))) hback
  · rw [if_neg (byte_ne (k := 47) hc' rfl)]
    rfl

/-- Neither white space nor its absence matters to a token that is there. -/
theorem lexToken_at (h : b.At (c :: t)) (hc : 32 < c.toNat) (hslash : c = 47 → StartsToken t) :
    lexToken S X flags (rounds + 1) b = lexFrom S X flags (rounds + 1) c.toNat (b.advance 1) := by
  unfold lexToken
  cases flags.noSkipwhite with
  | true => exact getchar_at h (Nat.le_of_lt hc)
  | false => exact Scan.bind_ok (skipwhiteLoop_token h hc hslash)

/-- What starts no name and is not returned as a character is looked up as an operator. -/
theorem lexFrom_rest (hc : 32 < c.toNat) (hlow : c.toNat < 128) (hchars : flags.characters = false)
    (hname : startsName c.toNat = false) (hquote : c ≠ 34 ∧ c ≠ 39) :
    lexFrom S X flags (rounds + 1) c.toNat b =
      lexRest S X flags (rounds + 1) c.toNat ⟨S.scope, flags.localsOnly⟩ b := by
  have hnames : lexNames S flags (rounds + 1) c.toNat ⟨S.scope, flags.localsOnly⟩ b =
      some (.ok (.inr (c.toNat, ⟨S.scope, flags.localsOnly⟩), b)) := by
    unfold lexNames
    rw [hname]
    rfl
  unfold lexFrom
  have htokenized : ¬ (essTokenBase ≤ c.toNat ∧ (c.toNat : Int) < essTokenBase + essTokens) := by
    unfold essTokenBase
    omega
  have hcharacters : ¬ (flags.characters ∧ (32 : Int) < c.toNat ∧ (c.toNat : Int) ≤ 127) := by
    rw [hchars]
    exact fun hand => nomatch hand.1
  rw [if_neg (by omega), if_neg htokenized, if_neg hcharacters, if_neg (byte_ne (k := 39) hquote.2 rfl),
    if_neg (byte_ne (k := 34) hquote.1 rfl), Scan.bind_ok hnames]

/-- What is no operator is read as a number. -/
theorem lexRest_number {l : Lookup} (hpos : b.pos ≤ b.data.length) (hopen : c ≠ 40)
    (hop : (c.toNat : Int) ∉ operatorChars) :
    lexRest S X flags rounds c.toNat l b = lexNumber X rounds b := by
  unfold lexRest
  split
  · rfl
  · have hweak : checkWeakassign c.toNat b = some (.ok (false, b)) := by
      unfold checkWeakassign
      rw [if_neg (byte_ne (k := 40) hopen rfl)]
      rfl
    have hgrab : grabOperator 17 c.toNat [] b = some (.ok ([], b)) := by
      unfold grabOperator
      rw [if_neg hop]
      rfl
    have hfind : findOperator S l [] ([] : List Byte).length false b = some (.ok (none, b)) := rfl
    have hback : (modify fun b' : Bio => b'.seekSet b.pos : Scan CompileError PUnit) b = some (.ok (⟨⟩, b)) :=
      congrArg (fun b => some (Except.ok (PUnit.unit, b))) (seekSet_pos hpos)
    rw [Scan.get_bind, Scan.bind_ok hweak, if_neg Bool.false_ne_true, Scan.bind_ok hgrab, Scan.bind_ok hfind]
    exact Scan.bind_ok hback

/-- Digits start neither names nor operators. -/
theorem digit_facts (h : IsDigit 10 c) : 32 < c.toNat ∧ c.toNat < 128 ∧ startsName c.toNat = false ∧ c ≠ 34 ∧ c ≠ 39 ∧
    c ≠ 40 ∧ c ≠ 47 ∧ (c.toNat : Int) ∉ operatorChars := by
  revert c
  decide

theorem lexToken_digit (h : b.On (c :: t)) (hc : IsDigit 10 c) (hchars : flags.characters = false) :
    lexToken S X flags (rounds + 1) b.ungetc = lexNumber X (rounds + 1) b := by
  obtain ⟨hlow, hhigh, hname, hq, hq', hopen, hslash, hop⟩ := digit_facts hc
  have hback : b.ungetc.advance 1 = b := by
    have hpos := h.pos
    unfold Bio.ungetc Bio.advance
    rw [if_pos hpos]
    obtain ⟨data, pos⟩ := b
    exact congrArg (Bio.mk data) (Nat.sub_add_cancel hpos)
  rw [lexToken_at h.ungetc hlow (fun heq => absurd heq hslash), hback, lexFrom_rest hlow hhigh hchars hname ⟨hq, hq'⟩,
    lexRest_number h.le hopen hop]

theorem numToken_nat {n : Nat} (hn : n < 2 ^ 31) : numToken X false n = (.inum, .integer (BitVec.ofNat 32 n)) := by
  have htruncate : truncate (n : ℚ) = n := by
    unfold truncate
    rw [if_pos (Nat.cast_nonneg n), Int.floor_natCast]
  have hcast : toInteger X n = n := by
    unfold toInteger
    rw [htruncate, if_pos ⟨by omega, by omega⟩]
  unfold numToken
  rw [hcast, if_neg Bool.false_ne_true, if_pos (Int.cast_natCast n), BitVec.ofInt_natCast]

theorem numToken_fraction {r : ℚ} (hlow : 0 ≤ r) (hhigh : r < 2 ^ 31) (hne : ∀ n : Int, (n : ℚ) ≠ r) :
    numToken X false r = (.rnum, .real r) := by
  have htruncate : truncate r = ⌊r⌋ := if_pos hlow
  have hfloor : 0 ≤ ⌊r⌋ := Int.floor_nonneg.mpr hlow
  have hlt : ⌊r⌋ < 2 ^ 31 := by
    have hcast : (⌊r⌋ : ℚ) < ((2 ^ 31 : Int) : ℚ) := by
      push_cast
      exact (Int.floor_le r).trans_lt hhigh
    exact_mod_cast hcast
  have hint : toInteger X r = ⌊r⌋ := by
    unfold toInteger
    rw [htruncate, if_pos ⟨by omega, by omega⟩]
  have huint : toUinteger X r = ⌊r⌋ := by
    unfold toUinteger
    rw [htruncate, if_pos ⟨hfloor, by omega⟩]
  unfold numToken
  rw [hint, huint, if_neg Bool.false_ne_true, if_neg (hne _), if_neg (hne _)]

/-! ## What is read -/

theorem not_isDigit_semicolon {base : Nat} : ¬ IsDigit base 59 := not_isDigit_of_eq (k := 59) rfl (by decide)

theorem fractionRead_semicolon {base : Nat} {frac : Option (List Byte)} (h : FractionRead base frac t rest) :
    59 ∈ t → 59 ∈ rest := by
  intro hmem
  cases frac with
  | none => exact h.1 ▸ hmem
  | some ds =>
    obtain ⟨t', rfl, hread⟩ := h
    rw [hread.text] at hmem
    rcases List.mem_cons.mp hmem with hdot | hmem
    · cases hdot
    · exact (List.mem_append.mp hmem).resolve_left fun hds => not_isDigit_semicolon (hread.figures _ hds)

theorem exponentRead_semicolon {base : Nat} {exp : Option Exponent} (h : ExponentRead base exp t rest) :
    59 ∈ t → 59 ∈ rest := by
  intro hmem
  cases exp with
  | none => exact h.1 ▸ hmem
  | some e =>
    obtain ⟨hmarker, hsign, -, t', rfl, hread⟩ := h
    rw [List.cons_append, hread.text] at hmem
    rcases List.mem_cons.mp hmem with heq | hmem
    · rw [← heq] at hmarker
      cases hmarker
    rcases List.mem_append.mp hmem with hmem | hmem
    · rcases hsign with hsign | hsign | hsign
      all_goals
        rw [hsign] at hmem
        exact absurd hmem (by decide)
    · exact (List.mem_append.mp hmem).resolve_left fun hds => not_isDigit_semicolon (hread.figures _ hds)

theorem prefixRead_semicolon {pre : List Byte} {base : Nat} (h : PrefixRead pre base t rest) : 59 ∈ t → 59 ∈ rest := by
  intro hmem
  rw [h.exists_append] at hmem
  refine (List.mem_append.mp hmem).resolve_left fun hpre => ?_
  cases h with
  | none _ => cases hpre
  | letter h =>
    simp only [List.mem_cons, Prod.mk.injEq, List.not_mem_nil, or_false] at h
    rcases h with ⟨rfl, -⟩ | ⟨rfl, -⟩ | ⟨rfl, -⟩ | ⟨rfl, -⟩ | ⟨rfl, -⟩
    all_goals exact absurd hpre (by decide)
  | decimal _ => exact absurd hpre (by decide)
  | duodecimal => exact absurd hpre (by decide)
  | parens hds =>
    simp only [List.mem_cons, List.mem_append, List.not_mem_nil, or_false] at hpre
    rcases hpre with heq | heq | heq | hpre | heq
    · cases heq
    · cases heq
    · cases heq
    · exact not_isDigit_semicolon (hds _ hpre)
    · cases heq

/-- There are no semicolons in numerals. -/
theorem reads_semicolon (h : L.Reads t rest) (hmem : 59 ∈ t) : 59 ∈ rest := by
  obtain ⟨⟨u, hpre, t₁, t₂, hint, hfrac, hexp⟩, -⟩ := h
  have hu := prefixRead_semicolon hpre hmem
  rw [hint.text] at hu
  have ht₁ := (List.mem_append.mp hu).resolve_left fun hds => not_isDigit_semicolon (hint.figures _ hds)
  exact exponentRead_semicolon hexp (fractionRead_semicolon hfrac ht₁)

/-- A numeral without a dot starts with a digit. -/
theorem isDigit_of_reads (hread : L.Reads (c :: t) rest) (hreal : L.isReal = false) (hstart : StartsNumber c) :
    IsDigit 10 c := by
  refine hstart.resolve_right ?_
  rintro rfl
  obtain ⟨⟨u, hpre, t₁, t₂, hint, hfrac, -⟩, -⟩ := hread
  obtain ⟨-, -, rfl⟩ := hpre.eq_none (by decide)
  have hnone : L.parts.frac = none := Option.isSome_eq_false_iff.mp hreal |> Option.isNone_iff_eq_none.mp
  rw [hnone] at hfrac
  cases hds : L.parts.int with
  | nil =>
    have htext := hint.text
    rw [hds, List.nil_append] at htext
    refine hfrac.2 46 ?_ rfl
    rw [← hfrac.1, ← htext]
    rfl
  | cons d ds =>
    have htext := hint.text
    rw [hds] at htext
    obtain rfl : 46 = d := (List.cons.inj htext).1
    exact not_isDigit_of_eq (k := 46) rfl (by decide) (hint.figures 46 (hds ▸ List.mem_cons_self))

theorem fails_or_reads (h : b.On t) (hstart : ∀ d ∈ t.head?, StartsNumber d) (hfits : BaseFits t)
    (hend : ∀ L : Numeral, ¬ L.Reads t []) :
    (∃ (L : Numeral) (c : Byte) (rest : List Byte), L.Reads t (c :: rest)) ∨ Fails b := by
  by_cases hread : ∃ (L : Numeral) (c : Byte) (rest : List Byte), L.Reads t (c :: rest)
  · exact .inl hread
  · refine .inr ⟨t.length, fun rounds hrounds => ?_⟩
    rcases readNum_cases h hstart hfits hrounds with hsome | ⟨L, hL, -⟩ | ⟨e, he⟩
    · exact absurd hsome hread
    · exact absurd hL (hend L)
    · exact ⟨e, bioReadNum_error h.le he⟩

theorem not_fails_of_succeeds {r : Bool × ℚ} (h : Succeeds b r b') : ¬ Fails b := by
  rintro ⟨k', hfail⟩
  obtain ⟨k, hok⟩ := h
  obtain ⟨e, he⟩ := hfail (max k k' + 1) (by omega)
  rw [hok (max k k' + 1) (by omega)] at he
  cases he

theorem succeeds_iff (h : b.On t) (hstart : ∀ d ∈ t.head?, StartsNumber d) (hfits : BaseFits t)
    (hend : ∀ L : Numeral, ¬ L.Reads t []) :
    ((∃ r b', Succeeds b r b') ↔ ∃ (L : Numeral) (rest : List Byte), L.Reads t rest) ∧
      ((¬ ∃ (L : Numeral) (rest : List Byte), L.Reads t rest) → Fails b) := by
  have hcases := fails_or_reads h hstart hfits hend
  refine ⟨⟨?_, ?_⟩, fun hnone => hcases.resolve_left fun ⟨L, c, rest, hL⟩ => hnone ⟨L, _, hL⟩⟩
  · rintro ⟨r, b', hok⟩
    rcases hcases with ⟨L, c, rest, hL⟩ | hfail
    · exact ⟨L, _, hL⟩
    · exact absurd hfail (not_fails_of_succeeds hok)
  · rintro ⟨L, rest, hL⟩
    cases rest with
    | nil => exact absurd hL (hend L)
    | cons c rest =>
      obtain ⟨b', hok, -⟩ := succeeds_of_reads hL h hstart
      exact ⟨_, b', hok⟩

/-- The token of a numeral that denotes an integer. -/
theorem lexToken_integer (hread : L.Reads t (c :: rest)) (h : b.On t) (hstart : ∀ d ∈ t.head?, StartsNumber d)
    (hreal : L.isReal = false) {n : Nat} (hn : n < 2 ^ 31) (hvalue : L.value = n) (hchars : flags.characters = false) :
    ∃ b', b'.data = b.data ∧ b'.At (c :: rest) ∧ ∃ k, ∀ rounds, k < rounds →
      lexToken S X flags rounds b.ungetc = some (.ok ((.inum, .integer (BitVec.ofNat 32 n)), b')) := by
  obtain ⟨d, r, rfl⟩ := List.exists_cons_of_ne_nil h.ne_nil
  obtain ⟨b', ⟨k, hok⟩, hdata, hat⟩ := succeeds_of_reads hread h hstart
  refine ⟨b', hdata, hat, k, fun rounds hrounds => ?_⟩
  obtain ⟨j, rfl⟩ := Nat.exists_eq_add_one_of_ne_zero (Nat.ne_of_gt (Nat.zero_lt_of_lt hrounds))
  rw [lexToken_digit h (isDigit_of_reads hread hreal (hstart d rfl)) hchars]
  unfold lexNumber
  rw [hok _ hrounds, hreal, hvalue]
  exact congrArg (fun r => some (Except.ok (r, b'))) (numToken_nat hn)

end Lexer

/-! ## Numerals -/

open Lexer in
/-- Where no numeral reaches the end of the source, the scanner succeeds if a numeral starts there, with its value and
with what is behind it left; otherwise it fails where it started. Integers become integer tokens. -/
theorem reads_numerals {b : Bio} {t : List Byte} (h : b.On t) (hstart : ∀ c ∈ t.head?, StartsNumber c) :
    (∀ rounds e b', bioReadNum rounds b = some (.error e, b') → b' = b) ∧
    (BaseFits t → (∀ L : Numeral, ¬ L.Reads t []) →
      ((∃ r b', Succeeds b r b') ↔ ∃ (L : Numeral) (rest : List Byte), L.Reads t rest) ∧
      ((¬ ∃ (L : Numeral) (rest : List Byte), L.Reads t rest) → Fails b) ∧
      ∀ (L : Numeral) (rest : List Byte), L.Reads t rest →
        (∃ b', Succeeds b (L.isReal, L.value) b' ∧ b'.data = b.data ∧ b'.At rest) ∧
        ∀ n : Nat, L.isReal = false → n < 2 ^ 31 → L.value = n → ∀ S X flags, flags.characters = false →
          ∃ b', b'.data = b.data ∧ b'.At rest ∧ ∃ k, ∀ rounds, k < rounds →
            lexToken S X flags rounds b.ungetc = some (.ok ((.inum, .integer (BitVec.ofNat 32 n)), b'))) := by
  refine ⟨fun rounds e b' herror => bioReadNum_error_eq h.le herror, fun hfits hend => ?_⟩
  obtain ⟨hiff, hfails⟩ := succeeds_iff h hstart hfits hend
  refine ⟨hiff, hfails, fun L rest hread => ?_⟩
  cases rest with
  | nil => exact absurd hread (hend L)
  | cons c rest =>
    exact ⟨succeeds_of_reads hread h hstart, fun n hreal hn hvalue S X flags hchars =>
      lexToken_integer hread h hstart hreal hn hvalue hchars⟩

open Lexer in
theorem reads_numerals_hex : ∃ b', Succeeds ⟨[48, 120, 49, 70, 59], 1⟩ (false, 31) b' ∧ b'.At [59] := by
  have h : Bio.On ⟨[48, 120, 49, 70, 59], 1⟩ [48, 120, 49, 70, 59] := ⟨by decide, rfl, by decide⟩
  have hstart : ∀ c ∈ [(48 : Byte), 120, 49, 70, 59].head?, StartsNumber c := by
    rintro c ⟨⟩
    exact .inl (by decide)
  have hfits : BaseFits [48, 120, 49, 70, 59] := fun ds rest heq => nomatch heq
  have hend (L : Numeral) : ¬ L.Reads [48, 120, 49, 70, 59] [] := fun hread =>
    nomatch reads_semicolon hread (by decide)
  have hread : (⟨[48, 120], 16, ⟨[49, 70], none, none⟩⟩ : Numeral).Reads [48, 120, 49, 70, 59] [59] := by
    refine ⟨⟨[49, 70, 59], .letter (by decide), [59], [59], ⟨rfl, by decide, ?_⟩, ⟨rfl, by decide⟩, ⟨rfl, by decide⟩⟩,
      .inl (List.cons_ne_nil _ _)⟩
    rintro c ⟨⟩
    decide
  obtain ⟨b', hok, -, hat⟩ := (((reads_numerals h hstart).2 hfits hend).2.2 _ _ hread).1
  have hvalue : (⟨[48, 120], 16, ⟨[49, 70], none, none⟩⟩ : Numeral).value = 31 := by
    have hfigures : valueOf 16 [49, 70] = 31 := rfl
    unfold Numeral.value NumParts.value NumParts.expValue
    dsimp only [Option.getD_none]
    rw [hfigures, valueOf_nil]
    norm_num
  rw [hvalue] at hok
  exact ⟨b', hok, hat⟩

/-- Numerals as such, however they are read. -/
def Numeral.InGrammar (L : Numeral) : Prop :=
  PrefixRead L.basePrefix L.base L.basePrefix [] ∧ (∀ c ∈ L.parts.int, IsDigit L.base c) ∧
    (∀ ds, L.parts.frac = some ds → ∀ c ∈ ds, IsDigit L.base c) ∧
    (∀ e, L.parts.exp = some e → Lexer.isMarker e.marker.toNat ∧ (e.sign = [] ∨ e.sign = [43] ∨ e.sign = [45]) ∧
      e.digits ≠ [] ∧ ∀ c ∈ e.digits, IsDigit L.base c) ∧
    (L.basePrefix ≠ [] ∨ L.parts.HasFigures)

open Lexer in
/-- An exponent marker is committed to, and a numeral without a dot may have a fraction as its value. -/
theorem not_reads_numerals :
    (∃ L : Numeral, L.InGrammar ∧ [49, 101, 59] = L.text ++ [101, 59] ∧
      ¬ ∃ r b', Succeeds ⟨[49, 101, 59], 1⟩ r b') ∧
    ∃ L : Numeral, L.InGrammar ∧ L.isReal = false ∧ [49, 101, 45, 49, 59] = L.text ++ [59] ∧ L.value < 2 ^ 31 ∧
      ∀ X, lexNumber X 9 ⟨[49, 101, 45, 49, 59], 1⟩ =
        some (.ok ((.rnum, .real L.value), ⟨[49, 101, 45, 49, 59], 4⟩)) := by
  have hnone : PrefixRead [] 10 [] [] := .none fun c t' heq => nomatch heq
  refine ⟨⟨⟨[], 10, [49], none, none⟩, ⟨hnone, by decide, nofun, nofun, .inr (.inl (by decide))⟩, rfl, ?_⟩,
    ⟨[], 10, [49], none, some ⟨101, [45], [49]⟩⟩, ⟨hnone, by decide, nofun, ?_, .inr (.inl (by decide))⟩, rfl, rfl, ?_⟩
  · rintro ⟨r, b', k, hok⟩
    have herror : bioReadNum (k + 5) ⟨[49, 101, 59], 1⟩ = some (.error .badExponent, ⟨[49, 101, 59], 1⟩) := rfl
    rw [hok (k + 5) (Nat.lt_add_of_pos_right (Nat.succ_pos _))] at herror
    cases herror
  · rintro e ⟨⟩
    exact ⟨rfl, .inr (.inr rfl), by decide, by decide⟩
  have hvalue : (⟨[], 10, ⟨[49], none, some ⟨101, [45], [49]⟩⟩⟩ : Numeral).value = 1 / 10 := by
    have hfigures : valueOf 10 [49] = 1 := rfl
    have hexp : Exponent.value 10 ⟨101, [45], [49]⟩ = -1 := rfl
    unfold Numeral.value NumParts.value NumParts.expValue
    dsimp only [Option.getD_none]
    rw [hfigures, hexp, valueOf_nil]
    norm_num
  rw [hvalue]
  refine ⟨by norm_num, fun X => ?_⟩
  have hread : bioReadNum 9 ⟨[49, 101, 45, 49, 59], 1⟩ =
      some (.ok (false, (1 + 0 / 10 ^ 0) * 10 ^ (-1 : Int)), ⟨[49, 101, 45, 49, 59], 4⟩) := rfl
  have hexact : ((1 + 0 / 10 ^ 0) * 10 ^ (-1 : Int) : ℚ) = 1 / 10 := by norm_num
  have htoken : numToken X false (1 / 10) = (.rnum, .real (1 / 10)) := by
    refine numToken_fraction (by norm_num) (by norm_num) fun n hn => ?_
    have hten : ((n * 10 : Int) : ℚ) = 1 := by
      rw [Int.cast_mul, hn]
      norm_num
    have hten' : n * 10 = 1 := by exact_mod_cast hten
    omega
  unfold lexNumber
  rw [hread, hexact]
  exact congrArg (fun r => some (Except.ok (r, _))) htoken

end Eel
