-- SUMMARY: With rounds enough, the loops over white space and literals do what those that count what is left do.
import Eel.Compiler.ScanRules

/-!
# Loops that return

A loop of the lexer that reads a character a round is done after as many rounds as there are
characters left, and one more.
-/

namespace Eel

/-- The character that was read last. A control code may have been taken for another one. -/
def Bio.Seen (b : Bio) (c : Int) : Prop :=
  ∃ x t, b.On (x :: t) ∧ 0 ≤ c ∧ (c = x.toNat ∨ c < 32 ∧ x.toNat < 32)

/-- A slash that was the last character. -/
theorem Bio.Seen.at_last {b : Bio} (h : (b.advance 1).Seen 47) (hend : (b.advance 1).left = 0) : b.At [47] := by
  obtain ⟨x, t, hon, -, hcode⟩ := h
  obtain rfl : x = 47 := BitVec.eq_of_toNat_eq (by exact_mod_cast (hcode.resolve_right (by omega)).symm)
  obtain rfl : t = [] := by
    have hpos := hon.pos_eq
    have hle := hon.le
    unfold Bio.left at hend
    rw [List.length_cons] at hpos
    exact List.length_eq_zero_iff.mp (by omega)
  have hat := hon.ungetc
  rwa [Bio.ungetc_advance b 0] at hat

namespace Lexer

variable {b b' : Bio} {rounds fuel : Nat}

theorem lexGetchar_seen {c : Int} (h : lexGetchar b = .ok (c, b')) :
    (c = -1 ∧ b' = b ∧ b.left = 0) ∨ (b' = b.advance 1 ∧ b.pos < b.data.length ∧ b'.Seen c) := by
  rcases lexGetchar_pos h with ⟨rfl, rfl, hend⟩ | ⟨hc, rfl, hlt⟩
  · exact .inl ⟨rfl, rfl, Nat.sub_eq_zero_of_le hend⟩
  have hat : b.At (b.data[b.pos] :: b.data.drop (b.pos + 1)) := ⟨List.drop_eq_getElem_cons hlt, Nat.le_of_lt hlt⟩
  refine .inr ⟨rfl, hlt, _, _, hat.on, hc, ?_⟩
  obtain ⟨a, b₁, hget, hrest⟩ := Lex.ok_of_bind h
  have hget' : b.getchar = (a, b₁) := Except.ok.inj hget
  rw [hat.getchar_cons] at hget'
  obtain ⟨rfl, rfl⟩ := Prod.mk.inj hget'
  split at hrest
  · cases hrest
    exact .inl rfl
  split at hrest
  · cases hrest
    exact .inl rfl
  split at hrest
  · cases hrest
    exact .inr ⟨by decide, by omega⟩
  split at hrest
  · cases hrest
    exact .inl rfl
  · cases hrest

/-- A character is there, or the end, or an error. -/
theorem lexGetchar_split (hpos : b.pos ≤ b.data.length) :
    (lexGetchar b = .ok (-1, b) ∧ b.left = 0) ∨ ((∃ e, lexGetchar b = .error e) ∧ 0 < b.left) ∨
      ∃ c, lexGetchar b = .ok (c, b.advance 1) ∧ 0 ≤ c ∧ (b.advance 1).left + 1 = b.left ∧
        (b.advance 1).pos ≤ (b.advance 1).data.length := by
  cases hread : lexGetchar b with
  | error e =>
    refine .inr (.inl ⟨⟨e, rfl⟩, Nat.pos_of_ne_zero fun hleft => ?_⟩)
    have hat : b.At [] := ⟨List.drop_eq_nil_of_le (Nat.le_of_sub_eq_zero hleft), hpos⟩
    have hend : lexGetchar b = .ok (-1, b) := by
      unfold lexGetchar
      have hget : (modifyGet Bio.getchar : Lex Int) b = .ok (-1, b) := congrArg Except.ok hat.getchar_nil
      rw [Lex.bind_eq hget]
      rfl
    rw [hread] at hend
    cases hend
  | ok p =>
    obtain ⟨c, b₁⟩ := p
    rcases lexGetchar_pos hread with ⟨rfl, rfl, hend⟩ | ⟨hc, rfl, hlt⟩
    · exact .inl ⟨rfl, Nat.sub_eq_zero_of_le hend⟩
    · refine .inr (.inr ⟨c, rfl, hc, ?_, hlt⟩)
      show b.data.length - (b.pos + 1) + 1 = b.data.length - b.pos
      omega

variable {α : Type} {f : Int → Scan CompileError α} {g : Int → Lex α}

theorem lexGetchar_bind {c : Int} (h : lexGetchar b = .ok (c, b')) : (Scan.lexGetchar >>= f) b = f c b' :=
  Scan.bind_ok (show Scan.lexGetchar b = _ from congrArg some h)

theorem lexGetchar_error {e : CompileError} (h : lexGetchar b = .error e) :
    (Scan.lexGetchar >>= f) b = some ((lexGetchar >>= g) b) := by
  have hscan : Scan.lexGetchar b = some (.error e) := congrArg some h
  rw [Scan.bind_error hscan]
  change _ = some (lexGetchar b >>= fun p => g p.1 p.2)
  rw [h]
  rfl

theorem lexGetchar_ok {c : Int} (h : lexGetchar b = .ok (c, b')) (hrest : f c b' = some (g c b')) :
    (Scan.lexGetchar >>= f) b = some ((lexGetchar >>= g) b) := by
  rw [lexGetchar_bind h, Lex.bind_eq h, hrest]

/-! ## Comments -/

/-- One round of a loop over a comment. Without a character left it is the last one, whatever is counted. -/
theorem commentRound_eq (comment : Nat → Lex Unit) (rest : Nat → Int → Lex Unit) {stop : Int → Prop} [DecidablePred stop]
    {loop : Int → Scan CompileError Unit} (hend : stop (-1)) (hzero : comment 0 = return ())
    (hsucc : ∀ k, comment (k + 1) = do
      let c ← lexGetchar
      if stop c then return () else rest k c)
    (hpos : b.pos ≤ b.data.length) (hfuel : b.left ≤ fuel)
    (hloop : ∀ k c, fuel = k + 1 → (b.advance 1).left + 1 = b.left → (b.advance 1).pos ≤ (b.advance 1).data.length →
      loop c (b.advance 1) = some (rest k c (b.advance 1))) :
    (do
      let c ← Scan.lexGetchar
      if stop c then return () else loop c : Scan CompileError Unit) b = some (comment fuel b) := by
  rcases lexGetchar_split hpos with ⟨hnone, -⟩ | ⟨⟨e, herror⟩, hleft⟩ | ⟨c, hc, -, hleft, hpos'⟩
  · cases fuel with
    | zero =>
      rw [hzero]
      refine (lexGetchar_bind hnone).trans ?_
      rw [if_pos hend]
      rfl
    | succ fuel =>
      rw [hsucc]
      refine lexGetchar_ok hnone ?_
      rw [if_pos hend, if_pos hend]
      rfl
  · obtain ⟨k, rfl⟩ := Nat.exists_eq_add_one_of_ne_zero (Nat.ne_of_gt (Nat.lt_of_lt_of_le hleft hfuel))
    rw [hsucc]
    exact lexGetchar_error herror
  · obtain ⟨k, rfl⟩ : ∃ k, fuel = k + 1 := ⟨fuel - 1, by omega⟩
    rw [hsucc]
    refine lexGetchar_ok hc ?_
    split
    · rfl
    · exact hloop k c rfl hleft hpos'

theorem lineCommentLoop_eq (hpos : b.pos ≤ b.data.length) (hrounds : b.left < rounds) (hfuel : b.left ≤ fuel) :
    lineCommentLoop rounds b = some (lineComment fuel b) := by
  induction rounds generalizing b fuel with
  | zero => exact absurd hrounds (Nat.not_lt_zero _)
  | succ rounds ih =>
    refine commentRound_eq lineComment (fun k _ => lineComment k) (.inl (by decide)) rfl (fun _ => rfl) hpos hfuel ?_
    intro k c hk hleft hpos'
    exact ih hpos' (by omega) (by omega)

theorem blockCommentLoop_eq {prevc : Int} (hpos : b.pos ≤ b.data.length) (hrounds : b.left < rounds)
    (hfuel : b.left ≤ fuel) : blockCommentLoop rounds prevc b = some (blockComment fuel prevc b) := by
  induction rounds generalizing b fuel prevc with
  | zero => exact absurd hrounds (Nat.not_lt_zero _)
  | succ rounds ih =>
    refine commentRound_eq (fun k => blockComment k prevc) blockComment (.inl (by decide)) rfl (fun _ => rfl) hpos hfuel ?_
    intro k c hk hleft hpos'
    exact ih hpos' (by omega) (by omega)

theorem lineComment_ahead (fuel : Nat) : (lineComment fuel).Ahead := by
  induction fuel with
  | zero => exact .pure _
  | succ fuel ih =>
    refine .bind lexGetchar_ahead fun c => ?_
    split
    · exact .pure _
    · exact ih

theorem blockComment_ahead (fuel : Nat) (prevc : Int) : (blockComment fuel prevc).Ahead := by
  induction fuel generalizing prevc with
  | zero => exact .pure _
  | succ fuel ih =>
    refine .bind lexGetchar_ahead fun c => ?_
    split
    · exact .pure _
    · exact ih c

/-! ## White space -/

/-- A comment, and what goes on behind it. -/
theorem comment_bind {x : Scan CompileError Unit} {y : Lex Unit} {f : Unit → Scan CompileError α} {g : Unit → Lex α}
    (hpos : b.pos ≤ b.data.length) (hx : x b = some (y b)) (hy : y.Ahead)
    (hrest : ∀ b', b.Ahead b' → f () b' = some (g () b')) : (x >>= f) b = some ((y >>= g) b) := by
  cases hr : y b with
  | error e =>
    rw [Scan.bind_error (hx.trans (congrArg some hr))]
    change _ = some (y b >>= fun p => g p.1 p.2)
    rw [hr]
    rfl
  | ok p =>
    obtain ⟨⟨⟩, b'⟩ := p
    rw [Scan.bind_ok (hx.trans (congrArg some hr)), Lex.bind_eq hr]
    exact hrest b' (hy b () b' hpos hr)

theorem skipwhiteLoop_eq {reportEoln : Bool} (hpos : b.pos ≤ b.data.length) (hrounds : b.left < rounds)
    (hfuel : b.left ≤ fuel) : skipwhiteLoop reportEoln rounds b = some (skipWhite reportEoln fuel b) := by
  induction rounds generalizing b fuel with
  | zero => exact absurd hrounds (Nat.not_lt_zero _)
  | succ rounds ih =>
    rcases lexGetchar_split hpos with ⟨hend, -⟩ | ⟨⟨e, herror⟩, hleft⟩ | ⟨c, hc, hnonneg, hleft, hpos'⟩
    · cases fuel with
      | zero => exact lexGetchar_bind hend
      | succ fuel => exact lexGetchar_ok hend rfl
    · obtain ⟨k, rfl⟩ := Nat.exists_eq_add_one_of_ne_zero (Nat.ne_of_gt (Nat.lt_of_lt_of_le hleft hfuel))
      exact lexGetchar_error herror
    · obtain ⟨k, rfl⟩ : ∃ k, fuel = k + 1 := ⟨fuel - 1, by omega⟩
      refine lexGetchar_ok hc ?_
      split
      · exact ih hpos' (by omega) (by omega)
      split
      · split
        · rfl
        · exact ih hpos' (by omega) (by omega)
      split
      · -- a slash: what is behind it decides
        rcases lexGetchar_split hpos' with ⟨hend, -⟩ | ⟨⟨e, herror⟩, -⟩ | ⟨c', hc', -, hleft', hpos''⟩
        · exact lexGetchar_ok hend rfl
        · exact lexGetchar_error herror
        · refine lexGetchar_ok hc' ?_
          have hbehind : ((b.advance 1).advance 1).left + 1 < rounds := by omega
          have hrest (b' : Bio) (h : ((b.advance 1).advance 1).Ahead b') :
              skipwhiteLoop reportEoln rounds b' = some (skipWhite reportEoln k b') := by
            have hle := h.left_le
            exact ih h.1.2 (by omega) (by omega)
          split
          · exact comment_bind (f := fun _ => skipwhiteLoop reportEoln rounds) (g := fun _ => skipWhite reportEoln k)
              hpos'' (lineCommentLoop_eq hpos'' (Nat.lt_of_succ_lt hbehind) (Nat.le_refl _)) (lineComment_ahead _) hrest
          split
          · exact comment_bind (f := fun _ => skipwhiteLoop reportEoln rounds) (g := fun _ => skipWhite reportEoln k)
              hpos'' (blockCommentLoop_eq hpos'' (Nat.lt_of_succ_lt hbehind) (Nat.le_refl _)) (blockComment_ahead _ _)
              hrest
          · rfl
      · rfl

/-- Where white space ends: at the end, at a slash that is the last character, or behind a character. -/
def WhiteEnds (b b' : Bio) (c : Int) : Prop :=
  b.Ahead b' ∧ ((c = -1 ∧ b'.left = 0) ∨ (c = 47 ∧ b'.left = 1) ∨ (0 ≤ c ∧ b.pos < b'.pos))

theorem WhiteEnds.left_lt {c : Int} (h : WhiteEnds b b' c) (hc : c ≠ 47) (hnonneg : c ≠ -1) : b'.left < b.left := by
  obtain ⟨hahead, hcases⟩ := h
  have hlt : b.pos < b'.pos := by
    rcases hcases with ⟨rfl, -⟩ | ⟨rfl, -⟩ | ⟨-, hlt⟩
    · exact absurd rfl hnonneg
    · exact absurd rfl hc
    · exact hlt
  have hle := hahead.1.2
  unfold Bio.left
  rw [hahead.1.1] at hle ⊢
  omega

theorem WhiteEnds.trans {b₁ : Bio} {c c₁ : Int} (h₁ : WhiteEnds b b₁ c₁) (h : WhiteEnds b₁ b' c) : WhiteEnds b b' c :=
  ⟨h₁.1.trans h.1, h.2.imp_right (Or.imp_right fun ⟨hc, hlt⟩ => ⟨hc, Nat.lt_of_le_of_lt h₁.1.2 hlt⟩)⟩

/-- At the end, in front of a slash that is the last character, or behind a character. -/
theorem skipWhite_stops {reportEoln : Bool} {c : Int} (hpos : b.pos ≤ b.data.length) (hfuel : b.left ≤ fuel)
    (h : skipWhite reportEoln fuel b = .ok (c, b')) :
    b.Ahead b' ∧ ((c = -1 ∧ b'.left = 0) ∨ (c = 47 ∧ b'.At [47]) ∨ (b'.Seen c ∧ b.pos < b'.pos)) := by
  induction fuel generalizing b with
  | zero =>
    cases h
    exact ⟨.refl hpos, .inl ⟨rfl, Nat.le_zero.mp hfuel⟩⟩
  | succ fuel ih =>
    obtain ⟨c₁, b₁, hget, hrest⟩ := Lex.ok_of_bind h
    have hahead := lexGetchar_ahead b c₁ b₁ hpos hget
    have hagain (b₂ : Bio) (hlt : b.pos < b₂.pos) (hahead₂ : b.Ahead b₂)
        (h₂ : skipWhite reportEoln fuel b₂ = .ok (c, b')) :
        b.Ahead b' ∧ ((c = -1 ∧ b'.left = 0) ∨ (c = 47 ∧ b'.At [47]) ∨ (b'.Seen c ∧ b.pos < b'.pos)) := by
      have hleft : b₂.left ≤ fuel := by
        unfold Bio.left at hfuel ⊢
        rw [hahead₂.1.1]
        omega
      obtain ⟨hahead', hcases⟩ := ih hahead₂.1.2 hleft h₂
      refine ⟨hahead₂.trans hahead', hcases.imp_right (Or.imp_right ?_)⟩
      exact fun ⟨hc, _⟩ => ⟨hc, Nat.lt_of_lt_of_le hlt hahead'.2⟩
    rcases lexGetchar_seen hget with ⟨rfl, rfl, hend⟩ | ⟨rfl, hlt, hseen⟩
    · cases hrest
      exact ⟨hahead, .inl ⟨rfl, hend⟩⟩
    have hnext : b.pos < (b.advance 1).pos := Nat.lt_succ_self _
    split at hrest
    · exact hagain _ hnext hahead hrest
    split at hrest
    · split at hrest
      · next heoln _ =>
        cases hrest
        exact ⟨hahead, .inr (.inr ⟨heoln ▸ hseen, hnext⟩)⟩
      · exact hagain _ hnext hahead hrest
    split at hrest
    · next hslash =>
      subst hslash
      obtain ⟨c₂, b₂, hget₂, hrest₂⟩ := Lex.ok_of_bind hrest
      have hahead₂ := lexGetchar_ahead _ c₂ b₂ hahead.1.2 hget₂
      have hcomment {y : Lex Unit} (hy : y.Ahead) (h₂ : (y >>= fun _ => skipWhite reportEoln fuel) b₂ = .ok (c, b')) :
          b.Ahead b' ∧ ((c = -1 ∧ b'.left = 0) ∨ (c = 47 ∧ b'.At [47]) ∨ (b'.Seen c ∧ b.pos < b'.pos)) := by
        obtain ⟨⟨⟩, b₃, hbody, hbehind⟩ := Lex.ok_of_bind h₂
        have hahead₃ := hahead₂.trans (hy b₂ () b₃ hahead₂.1.2 hbody)
        exact hagain b₃ (Nat.lt_of_lt_of_le hnext hahead₃.2) (hahead.trans hahead₃) hbehind
      split at hrest₂
      · exact hcomment (lineComment_ahead _) hrest₂
      split at hrest₂
      · exact hcomment (blockComment_ahead _ _) hrest₂
      · obtain ⟨⟨⟩, b₃, hback, hslash⟩ := Lex.ok_of_bind hrest₂
        obtain rfl : b₂.ungetc = b₃ := congrArg Prod.snd (Except.ok.inj hback)
        obtain ⟨rfl, rfl⟩ := Prod.mk.inj (Except.ok.inj hslash)
        rcases lexGetchar_seen hget₂ with ⟨-, rfl, hend⟩ | ⟨rfl, -, -⟩
        · -- nothing behind it: the slash is not taken
          rw [Bio.ungetc_advance b 0]
          exact ⟨.refl hpos, .inr (.inl ⟨rfl, hseen.at_last hend⟩)⟩
        · rw [Bio.advance_advance, Bio.ungetc_advance b 1]
          exact ⟨hahead, .inr (.inr ⟨hseen, hnext⟩)⟩
    · cases hrest
      exact ⟨hahead, .inr (.inr ⟨hseen, hnext⟩)⟩

theorem skipWhite_ends {reportEoln : Bool} {c : Int} (hpos : b.pos ≤ b.data.length) (hfuel : b.left ≤ fuel)
    (h : skipWhite reportEoln fuel b = .ok (c, b')) : WhiteEnds b b' c := by
  obtain ⟨hahead, hcases⟩ := skipWhite_stops hpos hfuel h
  refine ⟨hahead, hcases.imp_right (Or.imp ?_ ?_)⟩
  · exact fun ⟨hc, hat⟩ => ⟨hc, hat.left_eq⟩
  · exact fun ⟨⟨x, t, hon, hc, hcode⟩, hlt⟩ => ⟨hc, hlt⟩

theorem skipToNextLoop_eq (hpos : b.pos ≤ b.data.length) (hrounds : b.left < rounds) (hfuel : b.left < fuel) :
    skipToNextLoop rounds b = some (skipToNext fuel b) := by
  induction rounds generalizing b fuel with
  | zero => exact absurd hrounds (Nat.not_lt_zero _)
  | succ rounds ih =>
    obtain ⟨k, rfl⟩ := Nat.exists_eq_add_one_of_ne_zero (Nat.ne_of_gt (Nat.zero_lt_of_lt hfuel))
    have hwhite : skipwhiteLoop true (rounds + 1) b = some (skipWhite true b.left b) :=
      skipwhiteLoop_eq hpos hrounds (Nat.le_refl _)
    unfold skipToNextLoop skipToNext
    rw [Lex.bind_eq (Lex.get_apply b)]
    cases hr : skipWhite true b.left b with
    | error e =>
      rw [Scan.bind_error (hwhite.trans (congrArg some hr))]
      change _ = some (skipWhite true b.left b >>= _)
      rw [hr]
      rfl
    | ok p =>
      obtain ⟨c, b'⟩ := p
      rw [Scan.bind_ok (hwhite.trans (congrArg some hr)), Lex.bind_eq hr]
      have hends := skipWhite_ends hpos (Nat.le_refl _) hr
      split
      · next hc =>
        have hlt := hends.left_lt (by omega) (by omega)
        exact ih hends.1.1.2 (by omega) (by omega)
      · rfl

theorem skipToNext_ends {c : Int} (hpos : b.pos ≤ b.data.length) (hfuel : b.left < fuel)
    (h : skipToNext fuel b = .ok (c, b')) : WhiteEnds b b' c := by
  induction fuel generalizing b with
  | zero => exact absurd hfuel (Nat.not_lt_zero _)
  | succ fuel ih =>
    obtain ⟨b₀, b₁, hget, hrest⟩ := Lex.ok_of_bind h
    obtain ⟨rfl, rfl⟩ := Prod.mk.inj (Except.ok.inj hget)
    obtain ⟨c₁, b₁, hwhite, hbehind⟩ := Lex.ok_of_bind hrest
    have hends := skipWhite_ends hpos (Nat.le_refl _) hwhite
    split at hbehind
    · next hc =>
      have hlt := hends.left_lt (by omega) (by omega)
      exact hends.trans (ih hends.1.1.2 (by omega) hbehind)
    · obtain ⟨rfl, rfl⟩ := Prod.mk.inj (Except.ok.inj hbehind)
      exact hends

/-! ## Literals -/

theorem readPiece_left {delim : Delim} {e : Option Escape} (h : readPiece delim b = .ok (e, b')) :
    b'.pos ≤ b'.data.length ∧ b'.left < b.left := by
  have hahead := readPiece_ahead h
  have hle := hahead.1.2
  have hlt : b.pos + 1 ≤ b'.pos := hahead.2
  refine ⟨hle, ?_⟩
  have hdata : b'.data = b.data := hahead.1.1
  unfold Bio.left
  rw [hdata] at hle ⊢
  omega

theorem parseStringLoop_eq {delim : Delim} {buf : List Byte} (hpos : b.pos ≤ b.data.length) (hrounds : b.left < rounds)
    (hfuel : b.left ≤ fuel) : parseStringLoop delim rounds buf b = some (parseLoop delim fuel buf b) := by
  induction rounds generalizing b fuel buf with
  | zero => exact absurd hrounds (Nat.not_lt_zero _)
  | succ rounds ih =>
    unfold parseStringLoop
    cases hr : readPiece delim b with
    | error e =>
      have hscan : Scan.ofLex (readPiece delim) b = some (.error e) := congrArg some hr
      rw [Scan.bind_error hscan]
      cases fuel with
      | zero =>
        rcases lexGetchar_split hpos with ⟨hend, -⟩ | ⟨-, hleft⟩ | ⟨c, -, -, hleft, -⟩
        · have hmessage : readPiece delim b = .error delim.eofMessage := by
            unfold readPiece
            rw [Lex.bind_eq hend]
            rfl
          obtain rfl : e = delim.eofMessage := Except.error.inj (hr.symm.trans hmessage)
          rfl
        · omega
        · omega
      | succ fuel =>
        change _ = some (readPiece delim b >>= _)
        rw [hr]
        rfl
    | ok p =>
      obtain ⟨e, b₁⟩ := p
      obtain ⟨hpos₁, hleft₁⟩ := readPiece_left hr
      obtain ⟨k, rfl⟩ : ∃ k, fuel = k + 1 := ⟨fuel - 1, by omega⟩
      have hscan : Scan.ofLex (readPiece delim) b = some (.ok (e, b₁)) := congrArg some hr
      unfold parseLoop
      rw [Scan.bind_ok hscan, Lex.bind_eq hr]
      rcases e with _ | c | c
      · exact ih hpos₁ (by omega) (by omega)
      · exact ih hpos₁ (by omega) (by omega)
      · dsimp only
        split
        · rw [Lex.bind_eq (Lex.get_apply b₁)]
          have hskip : skipToNextLoop (rounds + 1) b₁ = some (skipToNext (b₁.left + 1) b₁) :=
            skipToNextLoop_eq hpos₁ (by omega) (Nat.lt_succ_self _)
          cases hs : skipToNext (b₁.left + 1) b₁ with
          | error e =>
            rw [Scan.bind_error (hskip.trans (congrArg some hs))]
            change _ = some (skipToNext (b₁.left + 1) b₁ >>= _)
            rw [hs]
            rfl
          | ok p =>
            obtain ⟨c', b₂⟩ := p
            rw [Scan.bind_ok (hskip.trans (congrArg some hs)), Lex.bind_eq hs]
            have hends := skipToNext_ends hpos₁ (Nat.lt_succ_self _) hs
            have hle := hends.1.left_le
            split
            · exact ih hends.1.1.2 (by omega) (by omega)
            · rfl
        · exact ih hpos₁ (by omega) (by omega)

end Lexer

end Eel
