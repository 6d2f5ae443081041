-- SUMMARY: Runs of the lexer end, unless it comes to a token at the end of the source that it does not get past.
import Eel.Compiler.LexReturns

/-!
# Runs of the lexer

At the end of the source, nothing is read, but what is pushed back is pushed back all the same. Where the
lexer can get stuck in this way is said by what it looks at.
-/

namespace Eel

open Lexer
open Scan (Ends)

/-- The name of a namespace is read, from its first character on. -/
structure NamespaceAt (S : SymTables) (flags : LexFlags) (l : Lookup) (c : Int) (b : Bio) (name : List Byte)
    (table : Nat) (b' : Bio) : Prop where
  plain : flags.characters = false ∧ flags.dottedName = false
  starts : startsName c = true
  read : ∃ x t, b.On (x :: t) ∧ name = x :: t.takeWhile (isNameByte false) ∧
    b' = b.advance (t.takeWhile (isNameByte false)).length
  found : ∃ sym, S.find l.st l.localsOnly LexSymType.isNamed name = some sym ∧ sym.type = .snamespace table

/-- The lexer, called at `b`, looks at a character, and in which tables: at first, or behind the names of
namespaces. -/
inductive Looks (S : SymTables) (flags : LexFlags) (b : Bio) : (qualified : Bool) → Lookup → Int → Bio → Prop
  | first {c : Int} {b' : Bio}
    (h : (if flags.noSkipwhite then lexGetchar b else skipWhite flags.reportEoln b.left b) = .ok (c, b')) :
    Looks S flags b false ⟨S.scope, flags.localsOnly⟩ c b'
  | behind {q : Bool} {l : Lookup} {c c' : Int} {b₁ b₂ b₃ b' : Bio} {name : List Byte} {table : Nat}
    (h : Looks S flags b q l c b₁) (hname : NamespaceAt S flags l c b₁ name table b₂)
    (hdot : skipWhite flags.reportEoln b₂.left b₂ = .ok (46, b₃))
    (hnext : skipWhite flags.reportEoln b₃.left b₃ = .ok (c', b')) : Looks S flags b true ⟨[table], true⟩ c' b'

/-- What the lexer does not get past. -/
inductive Stuck (S : SymTables) (flags : LexFlags) (b : Bio) : Prop
  /-- A slash is the last character, and white space is skipped in front of it. -/
  | slash {q : Bool} {l : Lookup} {b' : Bio} (h : Looks S flags b q l 47 b')
    (hskip : q = true ∨ flags.noSkipwhite = false) (hlast : b'.At [47])
  /-- A numeral ends in the last character, or a dot is behind a namespace at the end. -/
  | number {q : Bool} {l : Lookup} {c : Int} {b' : Bio} {x : Byte} {t : List Byte} (h : Looks S flags b q l c b')
    (hchars : flags.characters = false) (hq : q = true ∨ 0 ≤ c) (hon : b'.On (x :: t)) (hstart : StartsNumber x)
    (hend : Endless (x :: t))
  /-- Operator characters reach the end, and only the first of them is an operator. -/
  | operator {l : Lookup} {c : Int} {b' : Bio} {x : Byte} {t : List Byte} {sym : LexSymbol}
    (h : Looks S flags b false l c b') (hchars : flags.characters = false) (hops : flags.noOperators = false)
    (hon : b'.On (x :: t)) (hrun : ∀ y ∈ x :: t, IsOperatorChar y) (hlen : (x :: t).length ≤ 16)
    (hop : LongestOperator S flags (x :: t) [x] sym) (hshort : ¬ IsShorthand sym t)
  /-- The name of a namespace is one character, and the end or a slash at the end is behind it. -/
  | «namespace» {l : Lookup} {c : Int} {b' b'' : Bio} {x : Byte} {t : List Byte} {table : Nat}
    (h : Looks S flags b false l c b') (hname : NamespaceAt S flags l c b' [x] table b'') (hat : b''.At t)
    (hlast : t = [] ∨ t = [47])

namespace Lexer

variable {S : SymTables} {X : NumCasts} {flags : LexFlags} {b b₁ b₂ b' : Bio} {q : Bool} {l : Lookup} {c : Int}
  {name t : List Byte} {x : Byte} {table rounds : Nat}

theorem startsName_range (h : startsName c = true) : 32 < c ∧ c ≤ 127 := by
  unfold startsName isAlpha at h
  simp only [Bool.or_eq_true, Bool.and_eq_true, decide_eq_true_eq, beq_iff_eq] at h
  omega

theorem seen_of_startsName (h : b.Seen c) (hstart : startsName c = true) : ∃ x t, b.On (x :: t) ∧ c = x.toNat := by
  obtain ⟨x, t, hon, -, hcode⟩ := h
  have hrange := startsName_range hstart
  exact ⟨x, t, hon, hcode.resolve_right fun hlow => by omega⟩

theorem takeWhile_ahead (h : b.On (x :: t)) (p : Byte → Bool) : b.Ahead (b.advance (t.takeWhile p).length) := by
  have hlen := (List.takeWhile_prefix (p := p) (l := t)).length_le
  have hpos := h.pos_eq
  rw [List.length_cons] at hpos
  refine ⟨⟨rfl, ?_⟩, Nat.le_add_right ..⟩
  show b.pos + _ ≤ b.data.length
  omega

/-- Where the lexer is when it looks at a character. -/
theorem looks_stops (hpos : b.pos ≤ b.data.length) (h : Looks S flags b q l c b') :
    b.Ahead b' ∧ (q = true → b.pos + 2 ≤ b'.pos) ∧
      ((c = -1 ∧ b'.left = 0) ∨ ((q = true ∨ flags.noSkipwhite = false) ∧ c = 47 ∧ b'.At [47]) ∨
        (b'.Seen c ∧ b.pos < b'.pos ∧ (q = true → b.pos + 3 ≤ b'.pos))) := by
  induction h with
  | first h =>
    split at h
    · have hahead := lexGetchar_ahead b _ _ hpos h
      refine ⟨hahead, fun hq => (nomatch hq), ?_⟩
      rcases lexGetchar_seen h with ⟨rfl, rfl, hleft⟩ | ⟨rfl, -, hseen⟩
      · exact .inl ⟨rfl, hleft⟩
      · exact .inr (.inr ⟨hseen, Nat.lt_succ_self _, fun hq => (nomatch hq)⟩)
    · next hskip =>
      obtain ⟨hahead, hcases⟩ := skipWhite_stops hpos (Nat.le_refl _) h
      refine ⟨hahead, fun hq => (nomatch hq), hcases.imp_right (Or.imp ?_ ?_)⟩
      · exact fun hslash => ⟨.inr (Bool.eq_false_of_not_eq_true hskip), hslash⟩
      · exact fun ⟨hseen, hlt⟩ => ⟨hseen, hlt, fun hq => (nomatch hq)⟩
  | @behind _ _ _ _ b₁ _ _ _ _ _ _ hname hdot hnext ih =>
    obtain ⟨hahead, -, hcases⟩ := ih
    obtain ⟨-, hstart, ⟨x, t, hon, -, rfl⟩, -⟩ := hname
    have hseen : b.pos < b₁.pos := by
      rcases hcases with ⟨rfl, -⟩ | ⟨-, rfl, -⟩ | ⟨-, hlt, -⟩
      · cases hstart
      · cases hstart
      · exact hlt
    have hahead₁ := takeWhile_ahead hon (isNameByte false)
    obtain ⟨hahead₂, hcases₂⟩ := skipWhite_stops hahead₁.1.2 (Nat.le_refl _) hdot
    obtain ⟨hahead₃, hcases₃⟩ := skipWhite_stops hahead₂.1.2 (Nat.le_refl _) hnext
    have hdotted := (hcases₂.resolve_left fun h => absurd h.1 (by decide)).resolve_left fun h => absurd h.1 (by decide)
    have hle₁ := hahead₁.2
    have hlt₂ := hdotted.2
    have hle₃ := hahead₃.2
    refine ⟨hahead.trans (hahead₁.trans (hahead₂.trans hahead₃)), fun _ => by omega, ?_⟩
    refine hcases₃.imp_right (Or.imp (fun hslash => ⟨.inl rfl, hslash⟩) fun ⟨hseen₃, hlt₃⟩ => ?_)
    exact ⟨hseen₃, by omega, fun _ => by omega⟩

theorem skipwhiteLoop_ends {reportEoln : Bool} (hpos : b.pos ≤ b.data.length) (hrounds : b.left < rounds) :
    Ends (skipwhiteLoop reportEoln rounds) b fun c b' => skipWhite reportEoln b.left b = .ok (c, b') :=
  ⟨_, skipwhiteLoop_eq hpos hrounds (Nat.le_refl _), fun _ _ h => h⟩

/-! ## Names and namespaces -/

/-- Behind the name of a namespace, what is no dot is given back. That is behind where the lexer was called,
unless it gets stuck. -/
theorem namespace_pos {c' : Int} (hpos : b.pos ≤ b.data.length) (hstuck : ¬ Stuck S flags b)
    (hlook : Looks S flags b q l c b₁) (hname : NamespaceAt S flags l c b₁ name table b₂)
    (hnext : skipWhite flags.reportEoln b₂.left b₂ = .ok (c', b')) : b.pos < b'.ungetc.pos := by
  obtain ⟨hahead, -, hcases⟩ := looks_stops hpos hlook
  have hnamed := hname
  obtain ⟨-, hstart, ⟨x, t, hon, rfl, hb₂⟩, -⟩ := hname
  obtain ⟨hseen, hlt, hfar⟩ : b₁.Seen c ∧ b.pos < b₁.pos ∧ (q = true → b.pos + 3 ≤ b₁.pos) := by
    rcases hcases with ⟨rfl, -⟩ | ⟨-, rfl, -⟩ | hseen
    · cases hstart
    · cases hstart
    · exact hseen
  have hahead₁ := takeWhile_ahead hon (isNameByte false)
  rw [← hb₂] at hahead₁
  obtain ⟨hahead₂, hcases₂⟩ := skipWhite_stops hahead₁.1.2 (Nat.le_refl _) hnext
  have hdata : b'.data = b₁.data := hahead₂.1.1.trans hahead₁.1.1
  have hle₂ := hahead₂.2
  have hback (h : b.pos + 1 < b'.pos) : b.pos < b'.ungetc.pos := by
    unfold Bio.ungetc
    rw [if_pos (Nat.zero_lt_of_lt h)]
    show b.pos < b'.pos - 1
    omega
  have hlong (hk : 0 < (t.takeWhile (isNameByte false)).length) : b.pos + 1 < b₂.pos := by
    rw [hb₂]
    show b.pos + 1 < b₁.pos + _
    omega
  refine hback ?_
  cases q with
  | true =>
    have hfar' := hfar rfl
    have hle₁ := hahead₁.2
    omega
  | false =>
    by_cases hk : 0 < (t.takeWhile (isNameByte false)).length
    · exact Nat.lt_of_lt_of_le (hlong hk) hle₂
    -- a name of one character: what is behind it decides
    have hnil : t.takeWhile (isNameByte false) = [] := List.length_eq_zero_iff.mp (Nat.eq_zero_of_not_pos hk)
    rw [hnil] at hb₂ hnamed
    obtain rfl : b₂ = b₁ := hb₂
    have hat : b₂.At t := hon.at_behind
    by_contra hnear
    have hsame : b'.pos = b₂.pos := by omega
    refine hstuck (.namespace hlook hnamed hat ?_)
    rcases hcases₂ with ⟨-, hleft⟩ | ⟨-, hslash⟩ | ⟨-, hlt₂⟩
    · refine .inl (List.length_eq_zero_iff.mp ?_)
      rw [← hat.left_eq, ← hleft]
      unfold Bio.left
      rw [hsame, hdata]
    · refine .inr ?_
      rw [← hat.1, ← hslash.1, hsame, hdata]
    · omega

/-- The character goes on to names, operators and numbers. -/
def Asked (flags : LexFlags) (q : Bool) (c : Int) : Prop :=
  (q = true ∨ 0 ≤ c) ∧ (32 < c ∧ c ≤ 127 → flags.characters = false)

/-- Names are read, up to a token or to a character that no name starts with. -/
theorem lexNames_ends (hpos : b.pos ≤ b.data.length) (hstuck : ¬ Stuck S flags b)
    (hlook : Looks S flags b q l c b₁) (hasked : Asked flags q c) (hrounds : b₁.left < rounds) :
    Ends (lexNames S flags rounds c l) b₁ fun r b' => (∀ token, r = .inl token → b.pos < b'.pos) ∧
      ∀ c' l', r = .inr (c', l') → ∃ q', Looks S flags b q' l' c' b' ∧ Asked flags q' c' := by
  induction rounds generalizing q l c b₁ with
  | zero => exact absurd hrounds (Nat.not_lt_zero _)
  | succ rounds ih =>
    have hinl {token : LexToken × LVal} {b' : Bio} (h : b.pos < b'.pos) :
        Ends (Pure.pure (.inl token) : Scan CompileError ((LexToken × LVal) ⊕ (Int × Lookup))) b' fun r b' =>
          (∀ token, r = .inl token → b.pos < b'.pos) ∧
            ∀ c' l', r = .inr (c', l') → ∃ q', Looks S flags b q' l' c' b' ∧ Asked flags q' c' :=
      .pure ⟨fun _ _ => h, by rintro _ _ ⟨⟩⟩
    unfold lexNames
    split
    · next hstart =>
      have hchars := hasked.2 (startsName_range hstart)
      obtain ⟨hahead, -, hcases⟩ := looks_stops hpos hlook
      obtain ⟨hseen, hlt, -⟩ : b₁.Seen c ∧ b.pos < b₁.pos ∧ (q = true → b.pos + 3 ≤ b₁.pos) := by
        rcases hcases with ⟨rfl, -⟩ | ⟨-, rfl, -⟩ | hseen
        · cases hstart
        · cases hstart
        · exact hseen
      obtain ⟨x, t, hon, rfl⟩ := seen_of_startsName hseen hstart
      have hleft : t.length = b₁.left := hon.at_behind.left_eq.symm
      refine .bind (readName_ends hon (by omega)) ?_
      rintro name b₂ ⟨hname, hb₂⟩
      have hahead₁ := takeWhile_ahead hon (isNameByte flags.dottedName)
      rw [← hb₂] at hahead₁
      have hlt₂ : b.pos < b₂.pos := Nat.lt_of_lt_of_le hlt hahead₁.2
      split
      · exact hinl hlt₂
      · next hdotted =>
        have hplain : flags.dottedName = false := Bool.eq_false_of_not_eq_true hdotted
        split
        · exact hinl hlt₂
        · next sym hfind =>
          split
          · next table htype =>
            rw [hplain] at hname hb₂
            have hnamespace : NamespaceAt S flags l x.toNat b₁ name table b₂ :=
              ⟨⟨hchars, hplain⟩, hstart, ⟨x, t, hon, hname, hb₂⟩, sym, hfind, htype⟩
            have hleft₂ := hahead₁.left_le
            refine .bind (skipwhiteLoop_ends hahead₁.1.2 (by omega)) fun c₂ b₃ hwhite => ?_
            split
            · refine .bind .move ?_
              rintro _ _ rfl
              exact hinl (namespace_pos hpos hstuck hlook hnamespace hwhite)
            · next hdot =>
              obtain rfl : c₂ = 46 := not_not.mp hdot
              have hends := skipWhite_ends hahead₁.1.2 (Nat.le_refl _) hwhite
              have hleft₃ := hends.left_lt (by decide) (by decide)
              refine .bind (skipwhiteLoop_ends hends.1.1.2 (by omega)) fun c₃ b₄ hwhite' => ?_
              have hleft₄ := (skipWhite_ends hends.1.1.2 (Nat.le_refl _) hwhite').1.left_le
              exact ih (.behind hlook hnamespace hwhite hwhite') ⟨.inl rfl, fun _ => hchars⟩ (by omega)
          · exact hinl hlt₂
    · refine .pure ⟨by rintro _ ⟨⟩, ?_⟩
      rintro _ _ ⟨⟩
      exact ⟨q, hlook, hasked⟩

/-! ## Operators and numbers -/

theorem startsNumber_range (h : StartsNumber x) : 32 < x.toNat ∧ x.toNat ≤ 127 := by
  revert x
  decide

theorem lexNumber_looks (hstuck : ¬ Stuck S flags b) (hlook : Looks S flags b q l c b₁) (hq : q = true ∨ 0 ≤ c)
    (hon : b₁.On (x :: t)) (hchars : StartsNumber x → flags.characters = false) (hrounds : b₁.data.length < rounds) :
    Ends (lexNumber X rounds) b₁ fun _ b' => b₁.pos ≤ b'.pos := by
  have hpos := hon.pos
  have hlen := hon.pos_eq
  exact lexNumber_ends hon (fun hstart hend => hstuck (.number hlook (hchars hstart) hq hon hstart hend)) (by omega)

/-- What is given back of operator characters is behind where the lexer was called, unless it gets stuck. -/
theorem operator_pos {s rest : List Byte} {sym : LexSymbol} {m : Nat} (hstuck : ¬ Stuck S flags b)
    (hchars : flags.characters = false) (hops : flags.noOperators = false) (hlook : Looks S flags b q l c b₁)
    (hlt : b.pos < b₁.pos) (hfar : q = true → b.pos + 3 ≤ b₁.pos)
    (hon : b₁.On (x :: (s ++ rest))) (hrun : ∀ y ∈ x :: s, IsOperatorChar y)
    (hgrab : b₁.pos + s.length ≤ b₂.pos ∨ rest = [] ∧ s.length + 1 ≤ 16 ∧ b₁.pos + s.length ≤ b₂.pos + 1)
    (hm : 0 < m) (hfind : S.find l.st l.localsOnly LexSymType.isOperator ((x :: s).take m) = some sym)
    (hnone : ∀ n, m < n → n ≤ (x :: s).length → S.find l.st l.localsOnly LexSymType.isOperator ((x :: s).take n) = none)
    (hback : b₂.pos + m ≤ b'.pos + (x :: s).length)
    (hshort : sym.type ≠ .soperator true →
      (if m = (x :: s).length then false = true else (x :: s)[m]? = some 61) →
        b₂.pos + m + 1 ≤ b'.pos + (x :: s).length) :
    b.pos < b'.pos := by
  rw [List.length_cons] at hback hshort
  rcases hgrab with hbehind | ⟨rfl, hlen, hend⟩
  · omega
  rw [List.append_nil] at hon
  cases q with
  | true =>
    have hfar' := hfar rfl
    omega
  | false =>
    by_cases hone : m = 1
    swap
    · omega
    subst hone
    by_contra hnear
    have hl : l = ⟨S.scope, flags.localsOnly⟩ := by
      cases hlook
      rfl
    subst hl
    have hop : LongestOperator S flags (x :: s) [x] sym := by
      refine ⟨⟨s, rfl⟩, List.cons_ne_nil _ _, fun y hy => ?_, hfind, fun w hw hwrun hlong => ?_⟩
      · exact hrun y (List.mem_of_mem_take (i := 1) hy)
      · rw [List.prefix_iff_eq_take.mp hw]
        exact hnone _ hlong hw.length_le
    refine hstuck (.operator hlook hchars hops hon hrun hlen hop ?_)
    rintro ⟨htype, heq⟩
    have hshorthand : if 1 = s.length + 1 then false = true else (x :: s)[1]? = some 61 := by
      cases s with
      | nil => cases heq
      | cons y s =>
        rw [if_neg (by simp)]
        exact heq
    have hplus := hshort htype hshorthand
    omega

/-- A namespace comes with plain flags. -/
theorem looks_plain (h : Looks S flags b true l c b₁) : flags.characters = false := by
  cases h with
  | behind _ hname => exact hname.plain.1

theorem lexRest_ends (hpos : b.pos ≤ b.data.length) (hstuck : ¬ Stuck S flags b)
    (hlook : Looks S flags b q l c b₁) (hasked : Asked flags q c) (hrounds : b.data.length < rounds) :
    Ends (lexRest S X flags rounds c l) b₁ fun _ b' => b.pos < b'.pos := by
  obtain ⟨hahead, hpast, hcases⟩ := looks_stops hpos hlook
  have hdata := hahead.1.1
  have hhigh : ∀ v ∈ operatorChars, (32 : Int) < v ∧ v ≤ 127 := by decide
  obtain ⟨hlt, x, t, hon, hnum, hcode⟩ : b.pos < b₁.pos ∧ ∃ x t, b₁.On (x :: t) ∧
      (StartsNumber x → flags.characters = false) ∧
      (c ∈ operatorChars → c = x.toNat ∧ (q = true → b.pos + 3 ≤ b₁.pos)) := by
    rcases hcases with ⟨rfl, hleft⟩ | ⟨hskip, rfl, hlast⟩ | ⟨⟨x, t, hon, -, hcode⟩, hlt, hfar⟩
    · -- the end, behind a namespace
      have hq' : q = true := hasked.1.resolve_right (by decide)
      have hfar := hpast hq'
      have hend : b₁.pos = b₁.data.length := by
        have hle := hahead.1.2
        unfold Bio.left at hleft
        omega
      obtain ⟨x, t, htext⟩ : ∃ x t, b₁.data.drop (b₁.pos - 1) = x :: t :=
        List.exists_cons_of_length_pos (by rw [List.length_drop]; omega)
      subst hq'
      exact ⟨by omega, x, t, ⟨by omega, htext, hahead.1.2⟩, fun _ => looks_plain hlook,
        fun hmem => absurd hmem (by decide)⟩
    · exact absurd (.slash hlook hskip hlast) hstuck
    · refine ⟨hlt, x, t, hon, fun hstart => hasked.2 ?_, fun hmem => ⟨hcode.resolve_right fun hlow => ?_, hfar⟩⟩
      · have hrange := startsNumber_range hstart
        omega
      · have hrange := hhigh c hmem
        omega
  have hnumber : Ends (lexNumber X rounds) b₁ fun _ b' => b.pos < b'.pos :=
    (lexNumber_looks hstuck hlook hasked.1 hon hnum (hdata ▸ hrounds)).mono fun _ _ hle => Nat.lt_of_lt_of_le hlt hle
  -- the position is set back to where the operator began
  have hreset {b' : Bio} (hsame : b₁.Same b') :
      Ends ((modify fun b' : Bio => b'.seekSet b₁.pos) >>= fun _ => lexNumber X rounds) b'
        fun _ b' => b.pos < b'.pos := by
    have hseek : b'.seekSet b₁.pos = b₁ := by
      unfold Bio.seekSet
      rw [hsame.1, Int.toNat_natCast, Nat.min_eq_left hahead.1.2]
    refine .bind .move ?_
    rintro _ _ rfl
    rw [hseek]
    exact hnumber
  unfold lexRest
  split
  · exact hnumber
  · next hno =>
    have hops : flags.noOperators = false := Bool.eq_false_of_not_eq_true hno
    refine .bind .get ?_
    rintro _ _ ⟨rfl, rfl⟩
    refine .bind (checkWeakassign_ends.same (checkWeakassign_keeps c) hahead.1.2) ?_
    rintro weak b₂ ⟨⟨hweak, hplain⟩, hsame⟩
    split
    · next hyes => exact .pure (Nat.lt_of_lt_of_le hlt (hweak hyes))
    · by_cases hmem : c ∈ operatorChars
      · have hne : c ≠ 40 := by
          rintro rfl
          exact absurd hmem (by decide)
        obtain ⟨hc, hfar⟩ := hcode hmem
        subst hc
        obtain rfl := (hplain hne).2
        refine .bind (grabOperator_ends hon hmem) ?_
        rintro word b₃ ⟨s, rest, rfl, rfl, hs, hsame₃, hgrab⟩
        have hrun : ∀ y ∈ x :: s, IsOperatorChar y := by
          intro y hy
          cases hy with
          | head => exact hmem
          | tail _ hy => exact hs y hy
        have hnonempty : 0 < b₃.data.length := by
          have hle := hon.le
          rw [hsame₃.1]
          omega
        refine .bind ((findOperator_ends hsame₃.2 hnonempty fun h : false = true => (nomatch h)).same
          (findOperator_keeps _ _ _ _ _) hsame₃.2) ?_
        rintro r b₄ ⟨hfound, hsame₄⟩
        cases r with
        | some token =>
          obtain ⟨m, sym, hm, -, hfind, hnone, hback, hshort⟩ := hfound token rfl
          have hchars := hasked.2 (hhigh _ hmem)
          exact .pure
            (operator_pos hstuck hchars hops hlook hlt hfar hon hrun hgrab hm hfind hnone hback hshort)
        | none => exact hreset (hsame₃.trans hsame₄)
      · have hgrab : grabOperator 17 c [] b₂ = some (.ok ([], b₂)) := by
          unfold grabOperator
          rw [if_neg hmem]
          rfl
        have hfind : findOperator S l [] ([] : List Byte).length false b₂ = some (.ok (none, b₂)) := rfl
        refine .bind (.ok hgrab (Q := fun word b' => word = [] ∧ b₂ = b') ⟨rfl, rfl⟩) ?_
        rintro _ _ ⟨rfl, rfl⟩
        refine .bind (.ok hfind (Q := fun r b' => r = none ∧ b₂ = b') ⟨rfl, rfl⟩) ?_
        rintro _ _ ⟨rfl, rfl⟩
        exact hreset hsame

/-! ## Tokens -/

theorem lexTokenized_ends : Ends (lexTokenized S flags c) b fun _ b' => b' = b := by
  unfold lexTokenized
  repeat' split
  all_goals first | exact .pure rfl | exact .throw

theorem lexFrom_ends (hpos : b.pos ≤ b.data.length) (hstuck : ¬ Stuck S flags b) (hlook : Looks S flags b false l c b₁)
    (hrounds : b.data.length < rounds) :
    Ends (lexFrom S X flags rounds c) b₁ fun r b' => r.1 = .eof ∨ b.pos < b'.pos := by
  have hl : l = ⟨S.scope, flags.localsOnly⟩ := by
    cases hlook
    rfl
  subst hl
  obtain ⟨hahead, -, hcases⟩ := looks_stops hpos hlook
  have hleft : b₁.left < rounds := by
    have hle := hahead.left_le
    unfold Bio.left at hle ⊢
    omega
  unfold lexFrom
  split
  · exact .pure (.inl rfl)
  next hc =>
  have hq : false = true ∨ 0 ≤ c := .inr (Int.not_lt.mp hc)
  have hlt : b.pos < b₁.pos := by
    rcases hcases with ⟨rfl, -⟩ | ⟨hskip, rfl, hlast⟩ | ⟨-, hlt, -⟩
    · exact absurd (by decide) hc
    · exact absurd (.slash hlook hskip hlast) hstuck
    · exact hlt
  have hafter {α : Type} {x : Scan CompileError α} (h : Ends x b₁ fun _ b' => b₁.pos ≤ b'.pos) :
      Ends x b₁ fun _ b' => b.pos < b'.pos := h.mono fun _ _ hle => Nat.lt_of_lt_of_le hlt hle
  split
  · refine lexTokenized_ends.mono ?_
    rintro _ _ rfl
    exact .inr hlt
  split
  · exact .pure (.inr hlt)
  next hplain =>
  split
  · refine .bind (hafter (parseStringLoop_ends hahead.1.2 hleft)) fun s b₂ hlt₂ => ?_
    split
    · exact .throw
    · exact .pure (.inr hlt₂)
  split
  · exact .bind (hafter (parseStringLoop_ends hahead.1.2 hleft)) fun s b₂ hlt₂ => .pure (.inr hlt₂)
  have hasked : Asked flags false c :=
    ⟨hq, fun hrange => Bool.eq_false_of_not_eq_true fun hchars => hplain ⟨hchars, hrange⟩⟩
  refine .bind (lexNames_ends hpos hstuck hlook hasked hleft) ?_
  rintro r b₂ ⟨htoken, hrest⟩
  cases r with
  | inl token => exact .pure (.inr (htoken token rfl))
  | inr p =>
    obtain ⟨q', hlook', hasked'⟩ := hrest p.1 p.2 rfl
    exact (lexRest_ends hpos hstuck hlook' hasked' hrounds).mono fun _ _ => .inr

theorem lexToken_ends (hpos : b.pos ≤ b.data.length) (hstuck : ¬ Stuck S flags b) (hrounds : b.data.length < rounds) :
    Ends (lexToken S X flags rounds) b fun r b' => r.1 = .eof ∨ b.pos < b'.pos := by
  have hleft : b.left < rounds := Nat.lt_of_le_of_lt (Nat.sub_le ..) hrounds
  unfold lexToken
  dsimp only
  split
  · next hskip =>
    refine .bind (.ofLex fun c b' h => h) fun c b' h => lexFrom_ends hpos hstuck (.first ?_) hrounds
    rw [if_pos hskip]
    exact h
  · next hskip =>
    refine .bind (skipwhiteLoop_ends hpos hleft) fun c b' h => lexFrom_ends hpos hstuck (.first ?_) hrounds
    rw [if_neg hskip]
    exact h

end Lexer

/-! ## Runs -/

/-- Calls of `eel_lex` one after the other, each with tables and flags of its own, that return tokens other than the
end. None of them gets stuck. -/
inductive LexRun (X : NumCasts) (rounds : Nat) (es : LexState) : Nat → LexState → Prop
  | start : LexRun X rounds es 0 es
  | call {n : Nat} {es₁ es₂ : LexState} (h : LexRun X rounds es n es₁) (S : SymTables) (flags : LexFlags)
    (hstuck : ¬ Stuck S flags es₁.bio) (hlex : eelLex S X flags rounds es₁ = some (.ok es₂))
    (htoken : es₂.token ≠ .eof) : LexRun X rounds es (n + 1) es₂

section Runs

variable {S : SymTables} {X : NumCasts} {flags : LexFlags} {rounds n : Nat} {es es₁ es₂ : LexState}

/-- A call returns an error, the end, or a token that is behind where it was called. -/
theorem eelLex_returns (hpos : es.bio.pos ≤ es.bio.data.length) (hrounds : es.bio.data.length < rounds)
    (hstuck : ¬ Stuck S flags es.bio) :
    (∃ e, eelLex S X flags rounds es = some (.error e)) ∨
      ∃ es₁, eelLex S X flags rounds es = some (.ok es₁) ∧ es.bio.Same es₁.bio ∧
        (es₁.token = .eof ∨ es₁.bio.left < es.bio.left) := by
  obtain ⟨r, hr, hprogress⟩ := (lexToken_ends hpos hstuck hrounds).same (lexToken_keeps S X flags rounds) hpos
  cases r with
  | error e => exact .inl ⟨e, eelLex_error hr⟩
  | ok p =>
    obtain ⟨⟨token, lval⟩, b⟩ := p
    obtain ⟨hcases, hsame⟩ := hprogress _ _ rfl
    refine .inr ⟨_, eelLex_ok hr, hsame, hcases.imp_right fun hlt => ?_⟩
    show b.data.length - b.pos < _
    have hle := hsame.2
    rw [hsame.1] at hle ⊢
    unfold Bio.left
    omega

/-- A run moves on in its source with every call. -/
theorem LexRun.left_le (h : LexRun X rounds es n es₁) (hpos : es.bio.pos ≤ es.bio.data.length)
    (hrounds : es.bio.data.length < rounds) : es.bio.Same es₁.bio ∧ n + es₁.bio.left ≤ es.bio.left := by
  induction h with
  | start => exact ⟨⟨rfl, hpos⟩, Nat.le_of_eq (Nat.zero_add _)⟩
  | call _ S flags hstuck hlex htoken ih =>
    obtain ⟨hsame, hle⟩ := ih
    rcases eelLex_returns hsame.2 (hsame.1 ▸ hrounds) hstuck with ⟨e, he⟩ | ⟨es', hok, hsame', hcases⟩
    · cases hlex.symm.trans he
    · obtain rfl := Except.ok.inj (Option.some.inj (hlex.symm.trans hok))
      have hlt := hcases.resolve_left htoken
      exact ⟨hsame.trans hsame', by omega⟩

end Runs

/-- **Lexing ends.** As long as the lexer does not get stuck, every call returns within as many rounds as the source has
characters, and a run of calls has come to the end of the source, or to an error, when there have been as many calls
as there are characters. -/
theorem lexing_ends {X : NumCasts} {rounds : Nat} {es es₁ : LexState} {n : Nat}
    (hpos : es.bio.pos ≤ es.bio.data.length) (hrounds : es.bio.data.length < rounds) (h : LexRun X rounds es n es₁) :
    n ≤ es.bio.left ∧ ∀ S flags, ¬ Stuck S flags es₁.bio →
      (∃ e, eelLex S X flags rounds es₁ = some (.error e)) ∨
        ∃ es₂, eelLex S X flags rounds es₁ = some (.ok es₂) ∧ (es₂.token = .eof ∨ n < es.bio.left) := by
  obtain ⟨hsame, hle⟩ := h.left_le hpos hrounds
  refine ⟨Nat.le_trans (Nat.le_add_right ..) hle, fun S flags hstuck => ?_⟩
  refine (eelLex_returns hsame.2 (hsame.1 ▸ hrounds) hstuck).imp_right ?_
  rintro ⟨es₂, hok, -, hcases⟩
  exact ⟨es₂, hok, hcases.imp_right fun hlt => by omega⟩

/-! ## Characters at the end -/

theorem looks_plus {q : Bool} {l : Lookup} {c : Int} {b' : Bio}
    (h : Looks plusTables defaultFlags ⟨[43, 59], 0⟩ q l c b') : c = 43 ∧ b' = ⟨[43, 59], 1⟩ := by
  induction h with
  | first h =>
    have hread : (if defaultFlags.noSkipwhite then lexGetchar ⟨[43, 59], 0⟩ else skipWhite defaultFlags.reportEoln
        (Bio.left ⟨[43, 59], 0⟩) ⟨[43, 59], 0⟩) = .ok (43, ⟨[43, 59], 1⟩) := rfl
    obtain ⟨rfl, rfl⟩ := Prod.mk.inj (Except.ok.inj (h.symm.trans hread))
    exact ⟨rfl, rfl⟩
  | behind _ hname _ _ ih =>
    have hstart := hname.starts
    rw [ih.1] at hstart
    cases hstart

theorem lexing_ends_plus :
    (∃ e, eelLex plusTables ⟨fun _ => 0, fun _ => 0⟩ defaultFlags 3 (startOf [43, 59]) = some (.error e)) ∨
      ∃ es₂, eelLex plusTables ⟨fun _ => 0, fun _ => 0⟩ defaultFlags 3 (startOf [43, 59]) = some (.ok es₂) ∧
        (es₂.token = .eof ∨ 0 < 2) := by
  have hon : Bio.On ⟨[43, 59], 1⟩ [43, 59] := ⟨by decide, rfl, by decide⟩
  have hstuck : ¬ Stuck plusTables defaultFlags (startOf [43, 59]).bio := by
    rintro (⟨h, -, -⟩ | ⟨h, -, -, hon', hstart, -⟩ | ⟨h, -, -, hon', hrun, -⟩ | ⟨h, hname, -, -⟩)
    · exact absurd (looks_plus h).1 (by decide)
    · obtain ⟨-, rfl⟩ := looks_plus h
      obtain ⟨rfl, -⟩ := List.cons.inj (hon'.text.symm.trans hon.text)
      exact absurd hstart (by decide)
    · obtain ⟨-, rfl⟩ := looks_plus h
      obtain ⟨rfl, rfl⟩ := List.cons.inj (hon'.text.symm.trans hon.text)
      exact absurd (hrun 59 (by decide)) (by decide)
    · have hstart := hname.starts
      rw [(looks_plus h).1] at hstart
      cases hstart
  exact (lexing_ends (by decide) (by decide) .start).2 plusTables defaultFlags hstuck

/-- A number at the end of the source is read forever, and an operator again with every call. -/
theorem not_lexing_ends :
    (∀ X rounds, eelLex plusTables X defaultFlags rounds (startOf [49, 50]) = none) ∧
      ∀ X rounds, 0 < rounds → ∃ es₁, eelLex plusTables X defaultFlags rounds (startOf [43]) = some (.ok es₁) ∧
        es₁.token = .symOperator ∧ es₁.bio = (startOf [43]).bio := by
  refine ⟨fun X rounds => ?_, fun X rounds hrounds => ?_⟩
  · cases rounds with
    | zero => rfl
    | succ k =>
      have hon : Bio.On ⟨[49, 50], 1⟩ [49, 50] := ⟨by decide, rfl, by decide⟩
      have htoken : lexToken plusTables X defaultFlags (k + 1) ⟨[49, 50], 0⟩ = lexNumber X (k + 1) ⟨[49, 50], 1⟩ :=
        lexToken_digit hon (by decide) rfl
      have hnum : readNum (k + 1) ⟨[49, 50], 1⟩ = none := by
        have hfigures : ∀ d ∈ [(49 : Byte), 50], IsDigit 10 d := by decide
        have hinteger : readInteger (k + 1) 10 false ⟨[49, 50], 1⟩ = none := by
          unfold readInteger
          rw [Scan.get_bind, hon.last, if_neg (by decide), Scan.bind_running (parseNum_running hon hfigures)]
        rw [readNum_of_ne_zero hon (by decide) (by decide)]
        exact Scan.bind_running hinteger
      have hbio : bioReadNum (k + 1) ⟨[49, 50], 1⟩ = none := by
        unfold bioReadNum
        rw [hnum]
        rfl
      have hnumber : lexNumber X (k + 1) ⟨[49, 50], 1⟩ = none := by
        unfold lexNumber
        rw [hbio]
        rfl
      have hnone : lexToken plusTables X defaultFlags (k + 1) (startOf [49, 50]).bio = none := htoken.trans hnumber
      unfold eelLex
      rw [hnone]
      rfl
  · obtain ⟨k, rfl⟩ := Nat.exists_eq_add_one_of_ne_zero (Nat.ne_of_gt hrounds)
    exact ⟨_, rfl, rfl, rfl⟩

end Eel
