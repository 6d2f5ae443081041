-- SUMMARY: The lexer reads the source, and does not change it.
import Eel.Compiler.LiteralText
import Eel.Compiler.Numerals
import Eel.Compiler.Tokens

/-!
# What is read stays

Code that reads the source moves the position about inside of it.
-/

namespace Eel

namespace Bio

/-- The same source, at a position of it. -/
def Same (b b' : Bio) : Prop := b'.data = b.data ∧ b'.pos ≤ b'.data.length

/-- The same source, and no position before the one it was at. -/
def Ahead (b b' : Bio) : Prop := b.Same b' ∧ b.pos ≤ b'.pos

variable {b b' b'' : Bio}

theorem Same.trans (h : b.Same b') (h' : b'.Same b'') : b.Same b'' := ⟨h'.1.trans h.1, h'.2⟩

theorem Ahead.trans (h : b.Ahead b') (h' : b'.Ahead b'') : b.Ahead b'' :=
  ⟨h.1.trans h'.1, Nat.le_trans h.2 h'.2⟩

theorem Ahead.refl (h : b.pos ≤ b.data.length) : b.Ahead b := ⟨⟨rfl, h⟩, Nat.le_refl _⟩

theorem Ahead.left_le (h : b.Ahead b') : b'.left ≤ b.left := by
  unfold left
  rw [h.1.1]
  exact Nat.sub_le_sub_left h.2 _

theorem ungetc_same (h : b.pos ≤ b.data.length) : b.Same b.ungetc := by
  refine ⟨ungetc_data, ?_⟩
  rw [ungetc_data]
  unfold ungetc
  split
  · exact Nat.le_trans (Nat.sub_le ..) h
  · exact h

theorem seekSet_same (offset : Int) : b.Same (b.seekSet offset) := ⟨rfl, Nat.min_le_right ..⟩

theorem getchar_ahead (h : b.pos ≤ b.data.length) : b.Ahead b.getchar.2 := by
  unfold getchar
  split
  · next hc => exact ⟨⟨rfl, (List.getElem?_eq_some_iff.mp hc).1⟩, Nat.le_succ _⟩
  · exact .refl h

end Bio

/-! ## Code with errors -/

namespace Lex

/-- The source stays, and the position does not go back. -/
def Ahead {α : Type} (x : Lex α) : Prop :=
  ∀ b a b', b.pos ≤ b.data.length → x b = .ok (a, b') → b.Ahead b'

variable {α β : Type} {x : Lex α} {f : α → Lex β}

theorem Ahead.pure (a : α) : Ahead (Pure.pure a : Lex α) := by
  intro b a b' hpos h
  cases h
  exact .refl hpos

theorem Ahead.throw (e : CompileError) : Ahead (MonadExcept.throw e : Lex α) := by
  intro b a b' hpos h
  cases h

theorem ok_of_bind {b b' : Bio} {c : β} (h : (x >>= f) b = .ok (c, b')) :
    ∃ a b₁, x b = .ok (a, b₁) ∧ f a b₁ = .ok (c, b') := by
  change (x b >>= fun p => f p.1 p.2) = .ok (c, b') at h
  cases hr : x b with
  | error e =>
    rw [hr] at h
    cases h
  | ok p =>
    rw [hr] at h
    exact ⟨p.1, p.2, rfl, h⟩

theorem Ahead.bind (hx : Ahead x) (hf : ∀ a, Ahead (f a)) : Ahead (x >>= f) := by
  intro b c b' hpos h
  obtain ⟨a, b₁, hfirst, hrest⟩ := ok_of_bind h
  have hahead := hx b a b₁ hpos hfirst
  exact hahead.trans (hf a b₁ c b' hahead.1.2 hrest)

theorem Ahead.getchar : Ahead (modifyGet Bio.getchar) := by
  intro b a b' hpos h
  obtain rfl : b.getchar.2 = b' := congrArg Prod.snd (Except.ok.inj h)
  exact b.getchar_ahead hpos

end Lex

namespace Lexer

theorem lexGetchar_ahead : Lex.Ahead lexGetchar := by
  refine .bind .getchar fun c => ?_
  repeat' split
  all_goals first | exact .pure _ | exact .throw _

theorem getFigure_ahead (base : Int) : Lex.Ahead (getFigure base) := .bind lexGetchar_ahead fun _ => .pure _

theorem getNumLoop_ahead (base : Int) (limitOnly : Bool) (figures : Nat) (value : Int) (figuresRead : Nat) :
    Lex.Ahead (getNumLoop base limitOnly figures value figuresRead) := by
  induction figures generalizing value figuresRead with
  | zero => exact .pure _
  | succ figures ih =>
    refine .bind (getFigure_ahead base) fun n => ?_
    repeat' split
    · exact .pure _
    · exact .pure _
    · exact ih _ _

theorem numEscape_ahead (base figures : Int) (message : CompileError) : Lex.Ahead (numEscape base figures message) := by
  have hnum : Lex.Ahead (getNum base figures) := getNumLoop_ahead _ _ _ _ _
  refine .bind hnum fun c => ?_
  dsimp only
  split
  · exact .bind (.throw _) fun _ => .pure _
  · exact .pure _

/-- A character that was read is behind the position. -/
theorem lexGetchar_pos {b b' : Bio} {c : Int} (h : lexGetchar b = .ok (c, b')) :
    (c = -1 ∧ b' = b ∧ b.data.length ≤ b.pos) ∨ (0 ≤ c ∧ b' = b.advance 1 ∧ b.pos < b.data.length) := by
  obtain ⟨a, b₁, hget, hrest⟩ := Lex.ok_of_bind h
  have hget' : b.getchar = (a, b₁) := Except.ok.inj hget
  unfold Bio.getchar at hget'
  split at hget'
  · next c' hc =>
    obtain ⟨rfl, rfl⟩ := Prod.mk.inj hget'
    have hcode : 0 ≤ c ∧ b' = b.advance 1 := by
      have hnat : (0 : Int) ≤ c'.toNat := Int.natCast_nonneg _
      revert hrest
      repeat' split
      all_goals
        rintro ⟨⟩
      all_goals exact ⟨by omega, rfl⟩
    exact .inr ⟨hcode.1, hcode.2, (List.getElem?_eq_some_iff.mp hc).1⟩
  · next hc =>
    obtain ⟨rfl, rfl⟩ := Prod.mk.inj hget'
    cases hrest
    exact .inl ⟨rfl, rfl, List.getElem?_eq_none_iff.mp hc⟩

/-- An octal figure is read again. -/
theorem readEscape_ahead : Lex.Ahead readEscape := by
  intro b e b' hpos h
  have hnum (base figures : Int) (message : CompileError) :
      Lex.Ahead (Escape.code <$> numEscape base figures message) :=
    .bind (numEscape_ahead _ _ _) fun _ => .pure _
  obtain ⟨c, b₁, hget, hrest⟩ := Lex.ok_of_bind h
  have hahead := lexGetchar_ahead b c b₁ hpos hget
  have hpos₁ := hahead.1.2
  split at hrest
  · cases hrest
  split at hrest
  · next hc =>
    rcases lexGetchar_pos hget with ⟨rfl, -⟩ | ⟨-, rfl, -⟩
    · exact absurd hc.1 (by decide)
    obtain ⟨⟨⟩, b₂, hback, hnumber⟩ := Lex.ok_of_bind hrest
    obtain rfl : (b.advance 1).ungetc = b₂ := congrArg Prod.snd (Except.ok.inj hback)
    rw [Bio.ungetc_advance b 0] at hnumber
    exact hnum _ _ _ b e b' hpos hnumber
  split at hrest
  · exact hahead.trans (hnum _ _ _ b₁ e b' hpos₁ hrest)
  split at hrest
  · exact hahead.trans (hnum _ _ _ b₁ e b' hpos₁ hrest)
  split at hrest
  · obtain ⟨v, b₂, hnumber, hcode⟩ := Lex.ok_of_bind hrest
    have hahead₂ := numEscape_ahead _ _ _ b₁ v b₂ hpos₁ hnumber
    dsimp only at hcode
    split at hcode
    · cases hcode
    · cases hcode
      exact hahead.trans hahead₂
  · cases hname : namedEscape c
    all_goals
      rw [hname] at hrest
      cases hrest
      exact hahead

/-- A piece of a literal takes characters. -/
theorem readPiece_ahead {delim : Delim} {b b' : Bio} {e : Option Escape} (h : readPiece delim b = .ok (e, b')) :
    (b.advance 1).Ahead b' := by
  obtain ⟨c, b₁, hget, hrest⟩ := Lex.ok_of_bind h
  rcases lexGetchar_pos hget with ⟨rfl, -⟩ | ⟨-, rfl, hlt⟩
  · rw [if_pos rfl] at hrest
    cases hrest
  have hrefl : (b.advance 1).Ahead (b.advance 1) := .refl hlt
  split at hrest
  · cases hrest
  split at hrest
  · obtain ⟨v, b₂, hescape, hsome⟩ := Lex.ok_of_bind hrest
    cases hsome
    exact readEscape_ahead _ _ _ hlt hescape
  split at hrest
  all_goals
    cases hrest
    exact hrefl

end Lexer

/-! ## Code that may not return -/

namespace Scan

/-- The source stays. -/
def Keeps {ε α : Type} (x : Scan ε α) : Prop :=
  ∀ b a b', b.pos ≤ b.data.length → x b = some (.ok (a, b')) → b.Same b'

variable {ε α β : Type} {x : Scan ε α} {f : α → Scan ε β}

theorem Keeps.pure (a : α) : Keeps (Pure.pure a : Scan ε α) := by
  intro b a b' hpos h
  cases h
  exact ⟨rfl, hpos⟩

theorem Keeps.throw (e : ε) : Keeps (MonadExcept.throw e : Scan ε α) := by
  intro b a b' hpos h
  cases h

theorem Keeps.running : Keeps (Scan.running : Scan ε α) := by
  intro b a b' hpos h
  cases h

theorem ok_of_bind {b b' : Bio} {c : β} (h : (x >>= f) b = some (.ok (c, b'))) :
    ∃ a b₁, x b = some (.ok (a, b₁)) ∧ f a b₁ = some (.ok (c, b')) := by
  cases hr : x b with
  | none =>
    rw [bind_running hr] at h
    cases h
  | some r =>
    cases r with
    | error e =>
      rw [bind_error hr] at h
      cases h
    | ok p =>
      rw [bind_ok hr] at h
      exact ⟨p.1, p.2, rfl, h⟩

theorem Keeps.bind (hx : Keeps x) (hf : ∀ a, Keeps (f a)) : Keeps (x >>= f) := by
  intro b c b' hpos h
  obtain ⟨a, b₁, hfirst, hrest⟩ := ok_of_bind h
  have hsame := hx b a b₁ hpos hfirst
  exact hsame.trans (hf a b₁ c b' hsame.2 hrest)

theorem Keeps.get : Keeps (MonadState.get : Scan ε Bio) := by
  intro b a b' hpos h
  cases h
  exact ⟨rfl, hpos⟩

theorem Keeps.getchar : Keeps (Scan.getchar : Scan ε Int) := by
  intro b a b' hpos h
  obtain rfl : b.getchar.2 = b' := congrArg Prod.snd (Except.ok.inj (Option.some.inj h))
  exact (b.getchar_ahead hpos).1

theorem Keeps.move {g : Bio → Bio} (hg : ∀ b : Bio, b.pos ≤ b.data.length → b.Same (g b)) :
    Keeps (modify g : Scan ε PUnit) := by
  intro b a b' hpos h
  obtain rfl : g b = b' := congrArg Prod.snd (Except.ok.inj (Option.some.inj h))
  exact hg b hpos

theorem Keeps.ungetc : Keeps (modify Bio.ungetc : Scan ε PUnit) :=
  .move fun _ => Bio.ungetc_same

theorem Keeps.defined (a : Option α) : Keeps (Scan.defined a : Scan ε α) := by
  intro b v b' hpos h
  cases a with
  | none => cases h
  | some a =>
    cases h
    exact ⟨rfl, hpos⟩

theorem Keeps.ofLex {x : Lex α} (hx : x.Ahead) : Keeps (Scan.ofLex x) :=
  fun b a b' hpos h => (hx b a b' hpos (Option.some.inj h)).1

theorem Keeps.lexGetchar : Keeps Scan.lexGetchar := .ofLex Lexer.lexGetchar_ahead

end Scan

namespace Lexer

open Scan

theorem lineCommentLoop_keeps (rounds : Nat) : Keeps (lineCommentLoop rounds) := by
  induction rounds with
  | zero => exact .running
  | succ rounds ih =>
    refine .bind .lexGetchar fun c => ?_
    split
    · exact .pure _
    · exact ih

theorem blockCommentLoop_keeps (rounds : Nat) (prevc : Int) : Keeps (blockCommentLoop rounds prevc) := by
  induction rounds generalizing prevc with
  | zero => exact .running
  | succ rounds ih =>
    refine .bind .lexGetchar fun c => ?_
    split
    · exact .pure _
    · exact ih c

theorem skipwhiteLoop_keeps (reportEoln : Bool) (rounds : Nat) : Keeps (skipwhiteLoop reportEoln rounds) := by
  induction rounds with
  | zero => exact .running
  | succ rounds ih =>
    refine .bind .lexGetchar fun c => ?_
    repeat' split
    · exact ih
    · exact .pure _
    · exact ih
    · refine .bind .lexGetchar fun c => ?_
      repeat' split
      · exact .bind (lineCommentLoop_keeps rounds) fun _ => ih
      · exact .bind (blockCommentLoop_keeps rounds 0) fun _ => ih
      · exact .bind .ungetc fun _ => .pure _
    · exact .pure _

theorem skipToNextLoop_keeps (rounds : Nat) : Keeps (skipToNextLoop rounds) := by
  induction rounds with
  | zero => exact .running
  | succ rounds ih =>
    refine .bind (skipwhiteLoop_keeps true _) fun c => ?_
    split
    · exact ih
    · exact .pure _

theorem parseStringLoop_keeps (delim : Delim) (rounds : Nat) (buf : List Byte) :
    Keeps (parseStringLoop delim rounds buf) := by
  induction rounds generalizing buf with
  | zero => exact .running
  | succ rounds ih =>
    have hpiece : Keeps (Scan.ofLex (readPiece delim)) := by
      intro b e b' hpos h
      exact (readPiece_ahead (Option.some.inj h)).1
    refine .bind hpiece fun e => ?_
    split
    · exact ih buf
    · exact ih _
    · split
      · refine .bind (skipToNextLoop_keeps _) fun c => ?_
        split
        · exact ih buf
        · exact .bind .ungetc fun _ => .pure _
      · exact ih _

theorem nameLoop_keeps (dotted : Bool) (rounds len : Nat) : Keeps (nameLoop dotted rounds len) := by
  induction rounds generalizing len with
  | zero => exact .running
  | succ rounds ih =>
    refine .bind .lexGetchar fun c => ?_
    split
    · exact ih _
    · exact .pure _

theorem readName_keeps (dotted : Bool) (rounds : Nat) : Keeps (readName dotted rounds) := by
  refine .bind .get fun b₀ => .bind (nameLoop_keeps dotted rounds 1) fun len => ?_
  refine .bind (.move fun b _ => b.seekSet_same _) fun _ => ?_
  intro b a b' hpos h
  obtain rfl : (b.read len).2 = b' := congrArg Prod.snd (Except.ok.inj (Option.some.inj h))
  refine ⟨rfl, ?_⟩
  show b.pos + min len (b.data.length - b.pos) ≤ b.data.length
  omega

theorem lexNames_keeps (S : SymTables) (flags : LexFlags) (rounds : Nat) (c : Int) (l : Lookup) :
    Keeps (lexNames S flags rounds c l) := by
  induction rounds generalizing c l with
  | zero => exact .running
  | succ rounds ih =>
    unfold lexNames
    split
    · refine .bind (readName_keeps _ _) fun name => ?_
      split
      · exact .pure _
      · split
        · exact .pure _
        · split
          · refine .bind (skipwhiteLoop_keeps _ _) fun c => ?_
            split
            · exact .bind .ungetc fun _ => .pure _
            · exact .bind (skipwhiteLoop_keeps _ _) fun c => ih c _
          · exact .pure _
    · exact .pure _

theorem lexTokenized_keeps (S : SymTables) (flags : LexFlags) (c : Int) : Keeps (lexTokenized S flags c) := by
  unfold lexTokenized
  repeat' split
  all_goals first | exact .pure _ | exact .throw _

theorem grabOperator_keeps (room : Nat) (c : Int) (buf : List Byte) : Keeps (grabOperator room c buf) := by
  induction room generalizing c buf with
  | zero => exact .throw _
  | succ room ih =>
    unfold grabOperator
    split
    · exact .bind .lexGetchar fun c' => ih c' _
    · dsimp only
      split
      · exact .bind .ungetc fun _ => .pure _
      · exact .pure _

theorem checkWeakassign_keeps (c : Int) : Keeps (checkWeakassign c) := by
  unfold checkWeakassign
  split
  · refine .bind .lexGetchar fun c => ?_
    split
    · refine .bind .lexGetchar fun c => ?_
      split
      · exact .pure _
      · exact .bind .ungetc fun _ => .bind .ungetc fun _ => .pure _
    · exact .bind .ungetc fun _ => .pure _
  · exact .pure _

theorem findOperator_keeps (S : SymTables) (l : Lookup) (word : List Byte) (len : Nat) (removedEq : Bool) :
    Keeps (findOperator S l word len removedEq) := by
  induction len generalizing removedEq with
  | zero => exact .pure _
  | succ len ih =>
    unfold findOperator
    split
    · repeat' split
      · exact .pure _
      · exact .bind .lexGetchar fun _ => .pure _
      · exact .pure _
    · exact .bind .ungetc fun _ => ih _

/-! ## Numbers -/

theorem parseNum_keeps (base rounds figures value : Nat) : Keeps (parseNum base rounds figures value) := by
  induction rounds generalizing figures value with
  | zero => exact .running
  | succ rounds ih =>
    refine .bind .get fun b => ?_
    dsimp only
    split
    · exact .pure _
    · exact .bind .getchar fun _ => ih _ _

theorem parseBase_keeps (rounds base : Nat) : Keeps (parseBase rounds base) := by
  induction rounds generalizing base with
  | zero => exact .running
  | succ rounds ih =>
    refine .bind .getchar fun c => ?_
    repeat' split
    · exact .bind .getchar fun _ => .pure _
    · exact .throw _
    · exact .bind (.defined _) fun base => ih _

theorem readBase_keeps (rounds : Nat) : Keeps (readBase rounds) := by
  refine .bind .getchar fun c => ?_
  repeat' split
  · exact .pure _
  · exact .bind .getchar fun _ => .pure _
  · exact .bind .getchar fun _ => .pure _
  · refine .bind .getchar fun c => ?_
    repeat' split
    · exact .throw _
    · exact .bind .getchar fun _ => .pure _
    · exact .pure _
  · exact .bind .getchar fun _ => .pure _
  · exact .bind .getchar fun _ => .pure _
  · exact .bind .getchar fun _ => .pure _
  · refine .bind .getchar fun c => ?_
    split
    · exact .throw _
    · refine .bind (parseBase_keeps rounds 0) fun base => ?_
      split
      · exact .throw _
      · exact .pure _
  · exact .bind .ungetc fun _ => .pure _

theorem readInteger_keeps (rounds base : Nat) (hasInteger : Bool) : Keeps (readInteger rounds base hasInteger) := by
  refine .bind .get fun b => ?_
  split
  · exact .pure _
  · refine .bind (parseNum_keeps base rounds 0 0) fun r => ?_
    dsimp only
    repeat' split
    all_goals first | exact .throw _ | exact .pure _

theorem readFraction_keeps (rounds base : Nat) : Keeps (readFraction rounds base) := by
  refine .bind .get fun b => ?_
  split
  · exact .bind .getchar fun _ => .bind (parseNum_keeps base rounds 0 0) fun _ => .pure _
  · exact .pure _

theorem skipSign_keeps (c : Int) : Keeps (skipSign c) := by
  unfold skipSign
  split
  · exact .bind .getchar fun _ => .pure _
  · exact .pure _

theorem readExponent_keeps (rounds base : Nat) : Keeps (readExponent rounds base) := by
  refine .bind .get fun b => ?_
  split
  · refine .bind .getchar fun c => ?_
    split
    · exact .throw _
    · refine .bind (skipSign_keeps c) fun _ => .bind (parseNum_keeps base rounds 0 0) fun r => ?_
      dsimp only
      split
      · exact .throw _
      · exact .pure _
  · exact .pure _

theorem readParts_keeps (rounds base : Nat) (hasInteger : Bool) : Keeps (readParts rounds base hasInteger) := by
  refine .bind (readInteger_keeps rounds base hasInteger) fun r => .bind (readFraction_keeps rounds base) fun f => ?_
  dsimp only
  split
  · exact .throw _
  · exact .bind (readExponent_keeps rounds base) fun e => .pure _

theorem readNum_keeps (rounds : Nat) : Keeps (readNum rounds) := by
  refine .bind .get fun b => ?_
  dsimp only
  split
  · exact .throw _
  split
  · refine .bind (readBase_keeps rounds) fun base => ?_
    split
    · exact .pure _
    · split
      · exact .throw _
      · exact readParts_keeps _ _ _
  · exact readParts_keeps _ _ _

/-- Where the scanner of numbers leaves the source, also after an error. -/
theorem bioReadNum_same {rounds : Nat} {b b' : Bio} {r : Except NumError (Bool × ℚ)} (hpos : b.pos ≤ b.data.length)
    (h : bioReadNum rounds b = some (r, b')) : b.Same b' := by
  obtain ⟨x, hx, hr⟩ := Option.map_eq_some_iff.mp h
  cases x with
  | error e =>
    obtain rfl : b.seekSet b.pos = b' := congrArg Prod.snd hr
    exact b.seekSet_same b.pos
  | ok p =>
    obtain rfl : p.2.ungetc = b' := congrArg Prod.snd hr
    have hsame := readNum_keeps rounds b p.1 p.2 hpos hx
    exact hsame.trans (Bio.ungetc_same hsame.2)

theorem lexNumber_keeps (X : NumCasts) (rounds : Nat) : Keeps (lexNumber X rounds) := by
  intro b a b' hpos h
  obtain ⟨⟨r, b₁⟩, hx, hr⟩ := Option.map_eq_some_iff.mp h
  have hsame := bioReadNum_same hpos hx
  rcases r with (_ | _ | _ | _ | _) | r
  all_goals
    cases hr
  all_goals exact hsame

/-! ## The lexer -/

theorem lexRest_keeps (S : SymTables) (X : NumCasts) (flags : LexFlags) (rounds : Nat) (c : Int) (l : Lookup) :
    Keeps (lexRest S X flags rounds c l) := by
  unfold lexRest
  split
  · exact lexNumber_keeps X rounds
  · refine .bind .get fun b => .bind (checkWeakassign_keeps c) fun weak => ?_
    split
    · exact .pure _
    · refine .bind (grabOperator_keeps 17 c []) fun word => .bind (findOperator_keeps S l word _ false) fun r => ?_
      split
      · exact .pure _
      · exact .bind (.move fun b' _ => b'.seekSet_same _) fun _ => lexNumber_keeps X rounds

theorem lexFrom_keeps (S : SymTables) (X : NumCasts) (flags : LexFlags) (rounds : Nat) (c : Int) :
    Keeps (lexFrom S X flags rounds c) := by
  unfold lexFrom
  repeat' split
  · exact .pure _
  · exact lexTokenized_keeps S flags c
  · exact .pure _
  · refine .bind (parseStringLoop_keeps _ _ _) fun s => ?_
    split
    · exact .throw _
    · exact .pure _
  · exact .bind (parseStringLoop_keeps _ _ _) fun s => .pure _
  · refine .bind (lexNames_keeps S flags rounds c _) fun r => ?_
    split
    · exact .pure _
    · exact lexRest_keeps S X flags rounds _ _

/-- The lexer does not change the source. -/
theorem lexToken_keeps (S : SymTables) (X : NumCasts) (flags : LexFlags) (rounds : Nat) :
    Keeps (lexToken S X flags rounds) := by
  unfold lexToken
  dsimp only
  split
  · exact .bind .lexGetchar fun c => lexFrom_keeps S X flags rounds c
  · exact .bind (skipwhiteLoop_keeps _ rounds) fun c => lexFrom_keeps S X flags rounds c

end Lexer

end Eel
