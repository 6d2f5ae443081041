-- SUMMARY: What the parts of the lexer return when they return, and how far they get.
import Eel.Compiler.OperatorTokens
import Eel.Compiler.ScanLoops

/-!
# What the lexer returns

Each part of the lexer is shown to return, with an error or with a result that is known, and the position
is followed: a character that is pushed back at the end is one that was read before.
-/

namespace Eel

namespace Scan

variable {ε α β : Type} {x : Scan ε α} {f : α → Scan ε β} {a : α} {b b' : Bio} {e : ε}
  {Q Q' : α → Bio → Prop} {R : β → Bio → Prop}

/-- The code returns an error, or what `Q` says. -/
def Ends (x : Scan ε α) (b : Bio) (Q : α → Bio → Prop) : Prop :=
  ∃ r : Except ε (α × Bio), x b = some r ∧ ∀ a b', r = .ok (a, b') → Q a b'

theorem Ends.ok (h : x b = some (.ok (a, b'))) (hQ : Q a b') : Ends x b Q := by
  refine ⟨_, h, ?_⟩
  rintro _ _ ⟨⟩
  exact hQ

theorem Ends.error (h : x b = some (.error e)) : Ends x b Q := by
  refine ⟨_, h, ?_⟩
  rintro _ _ ⟨⟩

theorem Ends.pure (h : Q a b) : Ends (Pure.pure a : Scan ε α) b Q := .ok rfl h

theorem Ends.throw : Ends (MonadExcept.throw e : Scan ε α) b Q := .error rfl

theorem Ends.mono (h : Ends x b Q) (himp : ∀ a b', Q a b' → Q' a b') : Ends x b Q' := by
  obtain ⟨r, hr, hQ⟩ := h
  exact ⟨r, hr, fun a b' hok => himp a b' (hQ a b' hok)⟩

theorem Ends.bind (hx : Ends x b Q) (hf : ∀ a b', Q a b' → Ends (f a) b' R) : Ends (x >>= f) b R := by
  obtain ⟨r, hr, hQ⟩ := hx
  cases r with
  | error e => exact .error (bind_error hr)
  | ok p =>
    obtain ⟨r', hr', hR⟩ := hf p.1 p.2 (hQ p.1 p.2 rfl)
    exact ⟨r', (bind_ok hr).trans hr', hR⟩

/-- The source stays. -/
theorem Ends.same (h : Ends x b Q) (hkeeps : Keeps x) (hpos : b.pos ≤ b.data.length) :
    Ends x b fun a b' => Q a b' ∧ b.Same b' := by
  obtain ⟨r, hr, hQ⟩ := h
  refine ⟨r, hr, ?_⟩
  rintro a b' rfl
  exact ⟨hQ a b' rfl, hkeeps b a b' hpos hr⟩

theorem Ends.ofLex {x : Lex α} (h : ∀ a b', x b = .ok (a, b') → Q a b') : Ends (Scan.ofLex x) b Q :=
  ⟨x b, rfl, h⟩

theorem Ends.get : Ends (MonadState.get : Scan ε Bio) b fun b₀ b' => b = b₀ ∧ b = b' := .ok rfl ⟨rfl, rfl⟩

theorem Ends.move {g : Bio → Bio} : Ends (modify g : Scan ε PUnit) b fun _ b' => b' = g b := .ok rfl rfl

end Scan

/-! ## Numerals -/

/-- A numeral has characters. -/
theorem Numeral.Reads.length_lt {L : Numeral} {t rest : List Byte} (h : L.Reads t rest) : rest.length < t.length := by
  obtain ⟨⟨u, hpre, t₁, t₂, hint, hfrac, hexp⟩, hsome⟩ := h
  have hlen := congrArg List.length hpre.exists_append
  have hlen' := congrArg List.length hint.text
  have hle := hfrac.length_le
  have hle' := hexp.length_le
  rw [List.length_append] at hlen hlen'
  rcases hsome with hne | hne | hne
  · have hpos := List.length_pos_iff.mpr hne
    omega
  · have hpos := List.length_pos_iff.mpr hne
    omega
  · cases hds : L.parts.frac with
    | none =>
      rw [hds] at hne
      exact absurd rfl hne
    | some ds =>
      rw [hds] at hfrac
      obtain ⟨t', rfl, hread⟩ := hfrac
      have hle'' := hread.length_le
      rw [List.length_cons] at hlen'
      omega

/-- A numeral with one character is a figure. -/
theorem Numeral.Reads.endsInFigure {L : Numeral} {x : Byte} (h : L.Reads [x] []) : EndsInFigure L.base [x] := by
  obtain ⟨pre, base, p⟩ := L
  obtain ⟨⟨u, hpre, t₁, t₂, hint, hfrac, hexp⟩, hsome⟩ := h
  dsimp only at hpre hint hfrac hexp hsome
  generalize htext : [x] = s at hpre
  cases hpre with
  | letter | decimal | duodecimal | parens => cases (List.cons.inj htext).2
  | none =>
    subst htext
    cases hds : p.int with
    | cons d ds =>
      rw [hds] at hint
      obtain rfl : x = d := (List.cons.inj hint.text).1
      exact ⟨x, rfl, hint.figures x List.mem_cons_self⟩
    | nil =>
      have hfrac' : p.frac.getD [] ≠ [] := by
        rcases hsome with hne | hne | hne
        · exact absurd rfl hne
        · exact absurd hds hne
        · exact hne
      rw [hds] at hint
      obtain rfl : [x] = t₁ := hint.text
      cases hsome' : p.frac with
      | none =>
        rw [hsome'] at hfrac'
        exact absurd rfl hfrac'
      | some ds =>
        rw [hsome'] at hfrac hfrac'
        obtain ⟨t', ht', hread⟩ := hfrac
        obtain rfl : [] = t' := (List.cons.inj ht').2
        exact absurd (List.append_eq_nil_iff.mp hread.text.symm).1 hfrac'

/-- Nothing ends the numeral: its last figure is the last character of the source. Or its base is too big for an
`int`. -/
def Endless (t : List Byte) : Prop := (∃ L : Numeral, L.Reads t [] ∧ EndsInFigure L.base t) ∨ ¬ Lexer.BaseFits t

theorem Bio.At.end_le {b : Bio} {t : List Byte} (h : b.At t) : (b.advance t.length).pos ≤ b.data.length := by
  have hle := h.2
  rw [← h.left_eq]
  show b.pos + (b.data.length - b.pos) ≤ _
  omega

namespace Lexer

open Scan

variable {b b' : Bio} {c : Int} {t rest : List Byte} {x d : Byte} {rounds fuel len : Nat} {dotted : Bool}

theorem lexGetchar_ends : Ends Scan.lexGetchar b fun c b' =>
    (c = -1 ∧ b' = b ∧ b.left = 0) ∨ (b' = b.advance 1 ∧ b.pos < b.data.length ∧ b'.Seen c) :=
  .ofLex fun _ _ h => lexGetchar_seen h

/-! ## Names -/

/-- A byte that goes on with a name. -/
def isNameByte (dotted : Bool) (c : Byte) : Bool := isNameChar dotted c.toNat

theorem isNameChar_of_lt (h : c < 32) : isNameChar dotted c = false := by
  unfold isNameChar isAlpha isNum
  cases dotted
  all_goals
    simp only [Bool.or_eq_false_iff, Bool.and_eq_false_iff, decide_eq_false_iff_not, beq_eq_false_iff_ne]
    omega

theorem nameLoop_ends (h : b.At t) (hrounds : t.length < rounds) :
    Ends (nameLoop dotted rounds len) b fun n _ => n = len + (t.takeWhile (isNameByte dotted)).length := by
  induction rounds generalizing b t len with
  | zero => exact absurd hrounds (Nat.not_lt_zero _)
  | succ rounds ih =>
    refine .bind lexGetchar_ends fun c b' hc => ?_
    cases t with
    | nil =>
      rcases hc with ⟨rfl, -⟩ | ⟨-, hlt, -⟩
      · rw [if_neg (by rw [isNameChar_of_lt (by decide)]; exact Bool.false_ne_true)]
        exact .pure rfl
      · have hleft := h.left_eq
        unfold Bio.left at hleft
        rw [List.length_nil] at hleft
        omega
    | cons x t =>
      rcases hc with ⟨-, -, hend⟩ | ⟨rfl, -, y, u, hon, -, hcode⟩
      · rw [h.left_eq] at hend
        cases hend
      · obtain ⟨rfl, rfl⟩ := List.cons.inj (hon.text.symm.trans h.on.text)
        have hsame : isNameByte dotted y = isNameChar dotted c := by
          rcases hcode with rfl | ⟨hc, hy⟩
          · rfl
          · exact (isNameChar_of_lt (by omega)).trans (isNameChar_of_lt hc).symm
        rw [List.takeWhile_cons, hsame]
        split
        · refine (ih h.tail (Nat.lt_of_succ_lt_succ hrounds)).mono fun n _ hn => ?_
          rw [hn, List.length_cons]
          omega
        · exact .pure rfl

/-- A name goes as far as its characters. -/
theorem readName_ends (h : b.On (x :: t)) (hrounds : t.length < rounds) :
    Ends (readName dotted rounds) b fun name b' =>
      name = x :: t.takeWhile (isNameByte dotted) ∧ b' = b.advance (t.takeWhile (isNameByte dotted)).length := by
  have hpos := h.pos
  have hstart := h.pos_eq
  have hname : (x :: t).take (1 + (t.takeWhile (isNameByte dotted)).length) = x :: t.takeWhile (isNameByte dotted) := by
    rw [Nat.add_comm, List.take_succ_cons]
    congr 1
    exact (List.prefix_iff_eq_take.mp (List.takeWhile_prefix _)).symm
  refine .bind .get ?_
  rintro _ _ ⟨rfl, rfl⟩
  refine .bind ((nameLoop_ends h.at_behind hrounds).same (nameLoop_keeps _ _ _) h.le) ?_
  rintro len b₂ ⟨rfl, hdata, hle⟩
  refine .bind .move ?_
  rintro _ _ rfl
  have hseek : b₂.seekSet ((b.pos - 1 : Nat) : Int) = ⟨b.data, b.pos - 1⟩ := by
    unfold Bio.seekSet
    rw [hdata, Int.toNat_natCast, Nat.min_eq_left (Nat.le_trans (Nat.sub_le ..) h.le)]
  have hleft : (⟨b.data, b.pos - 1⟩ : Bio).left = t.length + 1 := by
    unfold Bio.left
    dsimp only
    rw [List.length_cons] at hstart
    omega
  have hlen := (List.takeWhile_prefix (p := isNameByte dotted) (l := t)).length_le
  rw [hseek]
  refine .ok rfl ?_
  rw [hleft, Nat.min_eq_left (by omega)]
  refine ⟨(congrArg (List.take _) h.text).trans hname, ?_⟩
  show (⟨b.data, b.pos - 1 + _⟩ : Bio) = ⟨b.data, b.pos + _⟩
  congr 1
  omega

theorem legal_of_ok (h : b.At (x :: t)) (hread : lexGetchar b = .ok (c, b')) : Legal x := by
  obtain ⟨a, b₁, hget, hrest⟩ := Lex.ok_of_bind hread
  have hget' : b.getchar = (a, b₁) := Except.ok.inj hget
  rw [h.getchar_cons] at hget'
  obtain ⟨rfl, rfl⟩ := Prod.mk.inj hget'
  split at hrest
  · exact .inl (by omega)
  split at hrest
  · omega
  split at hrest
  · exact .inr (.inl (by omega))
  split at hrest
  · next hbreak => exact .inr (.inr hbreak)
  · cases hrest

/-! ## Operators -/

variable {S : SymTables} {X : NumCasts} {flags : LexFlags} {l : Lookup} {s word buf : List Byte} {room : Nat}

/-- Operator characters that reach the end: the last one is read again. -/
theorem grabOperator_end (hd : IsOperatorChar d) (hs : ∀ y ∈ s, IsOperatorChar y) (hroom : s.length + 1 < room)
    (h : b.At s) : grabOperator room d.toNat buf b = some (.ok (buf ++ d :: s, (b.advance s.length).ungetc)) := by
  induction s generalizing room d buf b with
  | nil =>
    obtain ⟨k, rfl⟩ : ∃ k, room = k + 2 := ⟨room - 2, by simp only [List.length_nil] at hroom; omega⟩
    have hread : Scan.lexGetchar b = some (.ok (-1, b)) := by
      rcases lexGetchar_split h.2 with ⟨hread, -⟩ | ⟨-, hleft⟩ | ⟨c, -, -, hleft, -⟩
      · exact congrArg some hread
      · rw [h.left_eq] at hleft
        cases hleft
      · rw [h.left_eq] at hleft
        cases hleft
    rw [grabOperator_step hd hread,
      grabOperator_stop (by decide) (List.append_ne_nil_of_right_ne_nil _ (List.cons_ne_nil _ _))]
    rfl
  | cons y s ih =>
    obtain ⟨k, rfl⟩ := Nat.exists_eq_add_one_of_ne_zero (Nat.ne_of_gt (Nat.zero_lt_of_lt hroom))
    have hy : IsOperatorChar y := hs y List.mem_cons_self
    rw [grabOperator_step hd (lexGetchar_operatorChar h hy),
      ih hy (fun z hz => hs z (List.mem_cons_of_mem _ hz)) (Nat.lt_of_succ_lt_succ hroom) h.tail, List.append_assoc,
      Bio.advance_advance, List.length_cons, Nat.add_comm 1]
    rfl

/-- Operator characters that there is no room for, or that an illegal character follows. -/
theorem grabOperator_error (hd : IsOperatorChar d) (hs : ∀ y ∈ s, IsOperatorChar y) (h : b.At (s ++ rest))
    (hbad : room ≤ s.length + 1 ∨ ∃ e, lexGetchar (b.advance s.length) = .error e) :
    ∃ e, grabOperator room d.toNat buf b = some (.error e) := by
  induction s generalizing room d buf b with
  | nil =>
    cases room with
    | zero => exact ⟨_, rfl⟩
    | succ room =>
      cases hread : lexGetchar b with
      | error e =>
        have hd' : (d.toNat : Int) ∈ operatorChars := hd
        have hread' : Scan.lexGetchar b = some (.error e) := congrArg some hread
        unfold grabOperator
        rw [if_pos hd', Scan.bind_error hread']
        exact ⟨e, rfl⟩
      | ok p =>
        obtain rfl : room = 0 := by
          rcases hbad with hroom | ⟨e, he⟩
          · exact Nat.le_zero.mp (Nat.le_of_succ_le_succ hroom)
          · cases hread.symm.trans he
        rw [grabOperator_step hd (congrArg some hread)]
        exact ⟨_, rfl⟩
  | cons y s ih =>
    cases room with
    | zero => exact ⟨_, rfl⟩
    | succ room =>
      have hy : IsOperatorChar y := hs y List.mem_cons_self
      have hat : b.At (y :: (s ++ rest)) := h
      rw [grabOperator_step hd (lexGetchar_operatorChar hat hy)]
      refine ih hy (fun z hz => hs z (List.mem_cons_of_mem _ hz)) hat.tail (hbad.imp Nat.le_of_succ_le_succ ?_)
      rw [Bio.advance_advance, Nat.add_comm 1]
      exact id

/-- Where the operator characters end. -/
theorem exists_operatorRun (t : List Byte) :
    ∃ s rest, t = s ++ rest ∧ (∀ y ∈ s, IsOperatorChar y) ∧ ∀ y ∈ rest.head?, ¬ IsOperatorChar y := by
  induction t with
  | nil => exact ⟨[], [], rfl, fun _ h => (nomatch h), fun _ h => (nomatch h)⟩
  | cons x t ih =>
    by_cases hx : IsOperatorChar x
    · obtain ⟨s, rest, rfl, hs, hrest⟩ := ih
      refine ⟨x :: s, rest, rfl, fun y hy => ?_, hrest⟩
      cases hy with
      | head => exact hx
      | tail _ hy => exact hs y hy
    · refine ⟨[], x :: t, rfl, fun _ h => (nomatch h), fun y hy => ?_⟩
      obtain rfl := Option.some.inj hy
      exact hx

/-- All operator characters in a row are taken. The position is behind them, or in front of the last one
if there is nothing else. -/
theorem grabOperator_ends (h : b.On (x :: t)) (hx : IsOperatorChar x) :
    Ends (grabOperator 17 x.toNat []) b fun word b' =>
      ∃ s rest, t = s ++ rest ∧ word = x :: s ∧ (∀ y ∈ s, IsOperatorChar y) ∧ b.Same b' ∧
        (b.pos + s.length ≤ b'.pos ∨ rest = [] ∧ s.length + 1 ≤ 16 ∧ b.pos + s.length ≤ b'.pos + 1) := by
  obtain ⟨s, rest, rfl, hs, hrest⟩ := exists_operatorRun t
  have hat : b.At (s ++ rest) := h.at_behind
  by_cases hlen : s.length + 1 < 17
  swap
  · obtain ⟨e, he⟩ := @grabOperator_error _ _ _ _ [] _ hx hs hat (.inl (Nat.not_lt.mp hlen))
    exact .error he
  cases rest with
  | nil =>
    rw [List.append_nil] at hat
    have hsame : (b.advance s.length).Same (b.advance s.length).ungetc := Bio.ungetc_same hat.end_le
    refine .ok (grabOperator_end hx hs hlen hat) ⟨s, [], rfl, rfl, hs, hsame, .inr ⟨rfl, Nat.le_of_lt_succ hlen, ?_⟩⟩
    unfold Bio.ungetc
    split
    · show b.pos + s.length ≤ b.pos + s.length - 1 + 1
      omega
    · exact Nat.le_succ _
  | cons y rest =>
    have hat' : (b.advance s.length).At (y :: rest) := hat.advance
    cases hread : lexGetchar (b.advance s.length) with
    | error e =>
      obtain ⟨e, he⟩ := @grabOperator_error _ _ _ _ [] _ hx hs hat (.inr ⟨e, hread⟩)
      exact .error he
    | ok p =>
      have hlegal : Legal y := legal_of_ok hat' hread
      refine .ok (grabOperator_run hx hs hlegal (hrest y rfl) hlen hat)
        ⟨s, y :: rest, rfl, rfl, hs, ⟨rfl, hat'.2⟩, .inl (Nat.le_refl _)⟩

/-- The operator that is found, and how far it is given back. -/
theorem findOperator_ends {removedEq : Bool} (hpos : b.pos ≤ b.data.length) (hdata : 0 < b.data.length)
    (heq : removedEq = true → b.pos < b.data.length) :
    Ends (findOperator S l word len removedEq) b fun r b' => ∀ token, r = some token →
      ∃ m sym, 0 < m ∧ m ≤ len ∧ S.find l.st l.localsOnly LexSymType.isOperator (word.take m) = some sym ∧
        (∀ n, m < n → n ≤ len → S.find l.st l.localsOnly LexSymType.isOperator (word.take n) = none) ∧
        b.pos + m ≤ b'.pos + len ∧
        (sym.type ≠ .soperator true → (if m = len then removedEq = true else word[m]? = some 61) →
          b.pos + m + 1 ≤ b'.pos + len) := by
  induction len generalizing b removedEq with
  | zero => exact .pure fun _ h => (nomatch h)
  | succ len ih =>
    have hlongest : ∀ n, len + 1 < n → n ≤ len + 1 →
        S.find l.st l.localsOnly LexSymType.isOperator (word.take n) = none :=
      fun n hlt hle => absurd hle (Nat.not_le.mpr hlt)
    unfold findOperator
    split
    · next sym hfind =>
      split
      · next hshort =>
        refine .pure fun _ _ => ⟨len + 1, sym, Nat.succ_pos _, Nat.le_refl _, hfind, hlongest, Nat.le_refl _, ?_⟩
        exact fun hno => absurd hshort hno
      split
      · next hremoved =>
        refine .bind lexGetchar_ends ?_
        rintro c b' (⟨-, -, hleft⟩ | ⟨rfl, -, -⟩)
        · have hlt := heq hremoved
          unfold Bio.left at hleft
          omega
        · refine .pure fun _ _ => ⟨len + 1, sym, Nat.succ_pos _, Nat.le_refl _, hfind, hlongest, ?_, fun _ _ => ?_⟩
          · show b.pos + (len + 1) ≤ b.pos + 1 + (len + 1)
            omega
          · show b.pos + (len + 1) + 1 ≤ b.pos + 1 + (len + 1)
            omega
      · next hremoved =>
        refine .pure fun _ _ => ⟨len + 1, sym, Nat.succ_pos _, Nat.le_refl _, hfind, hlongest, Nat.le_refl _, ?_⟩
        intro _ hyes
        rw [if_pos rfl] at hyes
        exact absurd hyes hremoved
    · next hfind =>
      have hback : b.pos ≤ b.ungetc.pos + 1 := by
        unfold Bio.ungetc
        split
        · show b.pos ≤ b.pos - 1 + 1
          omega
        · exact Nat.le_succ _
      have hlt : b.ungetc.pos < b.ungetc.data.length := by
        rw [Bio.ungetc_data]
        unfold Bio.ungetc
        split
        · show b.pos - 1 < b.data.length
          omega
        · omega
      refine .bind .move ?_
      rintro _ _ rfl
      refine (ih (Nat.le_of_lt hlt) (Nat.zero_lt_of_lt hlt) fun _ => hlt).mono fun r b' hr token htoken => ?_
      obtain ⟨m, sym, hm, hmle, hfound, hnone, hle, hshort⟩ := hr token htoken
      refine ⟨m, sym, hm, Nat.le_succ_of_le hmle, hfound, fun n hn hn' => ?_, by omega, fun htype hyes => ?_⟩
      · rcases Nat.eq_or_lt_of_le hn' with rfl | hlt
        · exact hfind
        · exact hnone n hn (Nat.le_of_lt_succ hlt)
      · rw [if_neg (by omega)] at hyes
        have hyes' : if m = len then decide (word[len]? = some 61) = true else word[m]? = some 61 := by
          split
          · next hmlen => exact decide_eq_true (hmlen ▸ hyes)
          · exact hyes
        have hplus := hshort htype hyes'
        omega

theorem checkWeakassign_ends : Ends (checkWeakassign c) b fun weak b' =>
    (weak = true → b.pos ≤ b'.pos) ∧ (c ≠ 40 → weak = false ∧ b' = b) := by
  have hread (b : Bio) : Ends Scan.lexGetchar b fun _ b' => b.pos ≤ b'.pos := by
    refine lexGetchar_ends.mono ?_
    rintro _ _ (⟨-, rfl, -⟩ | ⟨rfl, -, -⟩)
    · exact Nat.le_refl _
    · exact Nat.le_succ _
  unfold checkWeakassign
  split
  · next hopen =>
    refine .bind (hread b) fun c₁ b₁ hle₁ => ?_
    split
    · refine .bind (hread b₁) fun c₂ b₂ hle₂ => ?_
      split
      · exact .pure ⟨fun _ => Nat.le_trans hle₁ hle₂, fun hc => absurd hopen hc⟩
      · refine .bind .move fun _ b₃ _ => .bind .move fun _ b₄ _ => ?_
        exact .pure ⟨fun h => (nomatch h), fun hc => absurd hopen hc⟩
    · exact .bind .move fun _ b₂ _ => .pure ⟨fun h => (nomatch h), fun hc => absurd hopen hc⟩
  · exact .pure ⟨fun h => (nomatch h), fun _ => ⟨rfl, rfl⟩⟩

/-! ## Numbers -/

/-- The scanner of numbers returns, and not in front of where it started. -/
theorem bioReadNum_returns (h : b.On (x :: t)) (hend : StartsNumber x → ¬ Endless (x :: t))
    (hrounds : (x :: t).length < rounds) :
    ∃ r b', bioReadNum rounds b = some (r, b') ∧ b.pos ≤ b'.pos := by
  have herror {e : NumError} (he : readNum rounds b = some (.error e)) :
      ∃ r b', bioReadNum rounds b = some (r, b') ∧ b.pos ≤ b'.pos :=
    ⟨_, b, bioReadNum_error h.le he, Nat.le_refl _⟩
  have hlen := h.pos_eq
  by_cases hstart : StartsNumber x
  · have hhead : ∀ y ∈ (x :: t).head?, StartsNumber y := by
      rintro y ⟨⟩
      exact hstart
    have hfits : BaseFits (x :: t) := not_not.mp fun hno => hend hstart (.inr hno)
    rcases readNum_cases h hhead hfits hrounds with ⟨L, c, rest, hread⟩ | ⟨L, hread, hends⟩ | ⟨e, he⟩
    · obtain ⟨b₁, hok, hdata, hon⟩ := readNum_read hread h hhead hrounds
      refine ⟨_, _, bioReadNum_ok hok, ?_⟩
      have hlen₁ := hon.pos_eq
      have hlt := hread.length_lt
      rw [hdata] at hlen₁
      unfold Bio.ungetc
      split
      · show b.pos ≤ b₁.pos - 1
        omega
      · omega
    · rcases hends with ⟨-, hfigure⟩ | ⟨r, b₁, hok, hdata, hpos⟩ | ⟨e, he⟩
      · exact absurd (.inl ⟨L, hread, hfigure⟩) (hend hstart)
      · refine ⟨_, _, bioReadNum_ok hok, ?_⟩
        -- one character is not enough to get here
        have hlong : t ≠ [] := by
          rintro rfl
          exact hend hstart (.inl ⟨L, hread, hread.endsInFigure⟩)
        have hlong' := List.length_pos_iff.mpr hlong
        rw [List.length_cons] at hlen
        unfold Bio.ungetc
        split
        · show b.pos ≤ b₁.pos - 1
          omega
        · omega
      · exact herror he
    · exact herror he
  · refine herror (e := .noNumber) ?_
    have hno : ¬ isNum x.toNat = true ∧ (x.toNat : Int) ≠ 46 := by
      refine ⟨fun hnum => hstart (.inl (isNum_iff.mp hnum)), fun hdot => hstart (.inr ?_)⟩
      exact BitVec.eq_of_toNat_eq (by exact_mod_cast hdot)
    unfold readNum
    rw [Scan.get_bind, h.last, if_pos hno]
    rfl

theorem lexNumber_ends (h : b.On (x :: t)) (hend : StartsNumber x → ¬ Endless (x :: t))
    (hrounds : (x :: t).length < rounds) : Ends (lexNumber X rounds) b fun _ b' => b.pos ≤ b'.pos := by
  obtain ⟨r, b', hread, hle⟩ := bioReadNum_returns h hend hrounds
  unfold lexNumber Ends
  dsimp only
  rw [hread]
  rcases r with (_ | _ | _ | _ | _) | ⟨isReal, r⟩
  all_goals
    refine ⟨_, rfl, ?_⟩
    rintro _ _ ⟨⟩
  · exact hle
  · exact hle

/-! ## Literals -/

/-- A literal is not given back. -/
theorem parseLoop_pos {delim : Delim} {buf' : List Byte} (hpos : b.pos ≤ b.data.length)
    (h : parseLoop delim fuel buf b = .ok (buf', b')) : b.pos ≤ b'.pos := by
  induction fuel generalizing b buf with
  | zero => cases h
  | succ fuel ih =>
    obtain ⟨e, b₁, hpiece, hrest⟩ := Lex.ok_of_bind h
    have hahead := readPiece_ahead hpiece
    have hnext : b.pos + 1 ≤ b₁.pos := hahead.2
    have hgo {buf : List Byte} (h₁ : parseLoop delim fuel buf b₁ = .ok (buf', b')) : b.pos ≤ b'.pos :=
      Nat.le_trans (Nat.le_of_succ_le hnext) (ih hahead.1.2 h₁)
    rcases e with _ | c | c
    · exact hgo hrest
    · exact hgo hrest
    · dsimp only at hrest
      split at hrest
      · obtain ⟨b₀, b₁', hget, hskip⟩ := Lex.ok_of_bind hrest
        obtain ⟨rfl, rfl⟩ := Prod.mk.inj (Except.ok.inj hget)
        obtain ⟨c', b₂, hto, hbehind⟩ := Lex.ok_of_bind hskip
        have hends := skipToNext_ends hahead.1.2 (Nat.lt_succ_self _) hto
        have hle := hends.1.2
        split at hbehind
        · exact Nat.le_trans (Nat.le_trans (Nat.le_of_succ_le hnext) hle) (ih hends.1.1.2 hbehind)
        · obtain ⟨⟨⟩, b₃, hback, hbuf⟩ := Lex.ok_of_bind hbehind
          obtain rfl : b₂.ungetc = b₃ := congrArg Prod.snd (Except.ok.inj hback)
          obtain ⟨-, rfl⟩ := Prod.mk.inj (Except.ok.inj hbuf)
          unfold Bio.ungetc
          split
          · show b.pos ≤ b₂.pos - 1
            omega
          · omega
      · exact hgo hrest

theorem parseStringLoop_ends {delim : Delim} (hpos : b.pos ≤ b.data.length) (hrounds : b.left < rounds) :
    Ends (parseStringLoop delim rounds buf) b fun _ b' => b.pos ≤ b'.pos := by
  refine ⟨_, parseStringLoop_eq hpos hrounds (Nat.le_refl _), ?_⟩
  intro s b' h
  exact parseLoop_pos hpos h

end Lexer

end Eel
