-- SUMMARY: Which operator a text starts with, what the lexer makes of it, and tokens that are pushed back.
import Eel.Compiler.NumberTokens
import Eel.Compiler.ScanRules

/-!
# Operator tokens

All operator characters in a row are read, and given back one by one until an operator is left.
-/

namespace Eel

def IsOperatorChar (c : Byte) : Prop := (c.toNat : Int) ∈ Lexer.operatorChars

instance (c : Byte) : Decidable (IsOperatorChar c) := inferInstanceAs (Decidable (_ ∈ _))

/-- An operator with a name of operator characters that a text starts with, and none with a longer one. -/
structure LongestOperator (S : SymTables) (flags : LexFlags) (text w : List Byte) (sym : LexSymbol) : Prop where
  starts : w <+: text
  ne_nil : w ≠ []
  chars : ∀ c ∈ w, IsOperatorChar c
  found : S.find S.scope flags.localsOnly LexSymType.isOperator w = some sym
  longest : ∀ w', w' <+: text → (∀ c ∈ w', IsOperatorChar c) → w.length < w'.length →
    S.find S.scope flags.localsOnly LexSymType.isOperator w' = none

/-- What follows an operator makes it a shorthand one. -/
def IsShorthand (sym : LexSymbol) (rest : List Byte) : Prop := sym.type ≠ .soperator true ∧ rest.head? = some 61

instance (sym : LexSymbol) (rest : List Byte) : Decidable (IsShorthand sym rest) := inferInstanceAs (Decidable (_ ∧ _))

/-- A comment starts with these characters, where white space is skipped. -/
def StartsComment (flags : LexFlags) (run : List Byte) : Prop :=
  flags.noSkipwhite = false ∧ ([47, 47] <+: run ∨ [47, 42] <+: run)

namespace Lexer

variable {S : SymTables} {X : NumCasts} {flags : LexFlags} {b : Bio} {c d : Byte} {run s rest text w : List Byte}
  {sym : LexSymbol} {room rounds k : Nat} {buf : List Byte} {l : Lookup}

/-- Operator characters start neither names nor literals. -/
theorem operatorChar_facts (h : IsOperatorChar c) : 32 < c.toNat ∧ c.toNat < 128 ∧ startsName c.toNat = false ∧ c ≠ 34 ∧
    c ≠ 39 ∧ c ≠ 40 := by
  revert c
  decide

theorem legal_of_isOperatorChar (h : IsOperatorChar c) : Legal c := .inl (Nat.le_of_lt (operatorChar_facts h).1)

/-- What is read behind operator characters is none, whatever it is read as. -/
theorem lexGetchar_behind (h : b.At (c :: rest)) (hc : Legal c) (hno : ¬ IsOperatorChar c) :
    ∃ v, Scan.lexGetchar b = some (.ok (v, b.advance 1)) ∧ v ∉ operatorChars := by
  obtain ⟨v, hv, -, -, hcode⟩ := lexGetchar_code h hc
  refine ⟨v, congrArg some hv, fun hmem => hno ?_⟩
  have hchar : ∃ x : Byte, 32 ≤ x.toNat ∧ v = x.toNat := by
    refine ⟨BitVec.ofInt 8 v, ?_⟩
    revert hmem
    clear hcode hv
    revert v
    decide
  obtain ⟨x, hx, rfl⟩ := hchar
  obtain rfl := (hcode x hx).mp rfl
  exact hmem

theorem lexGetchar_operatorChar (h : b.At (c :: rest)) (hc : IsOperatorChar c) :
    Scan.lexGetchar b = some (.ok ((c.toNat : Int), b.advance 1)) :=
  congrArg some (lexGetchar_at h (.inl (Nat.le_of_lt (operatorChar_facts hc).1)))

theorem grabOperator_step {v : Int} {b' : Bio} (hd : IsOperatorChar d)
    (hread : Scan.lexGetchar b = some (.ok (v, b'))) :
    grabOperator (room + 1) d.toNat buf b = grabOperator room v (buf ++ [d]) b' := by
  have hd' : (d.toNat : Int) ∈ operatorChars := hd
  conv => lhs; unfold grabOperator
  rw [if_pos hd', Scan.bind_ok hread, ofInt_toNat]

theorem grabOperator_stop {v : Int} (hv : v ∉ operatorChars) (hbuf : buf ≠ []) :
    grabOperator (room + 1) v buf b = some (.ok (buf, b.ungetc)) := by
  unfold grabOperator
  rw [if_neg hv, if_pos hbuf]
  rfl

/-- Operator characters are read up to what is none. -/
theorem grabOperator_run (hd : IsOperatorChar d) (hs : ∀ x ∈ s, IsOperatorChar x) (hc : Legal c)
    (hno : ¬ IsOperatorChar c) (hroom : s.length + 1 < room) (h : b.At (s ++ c :: rest)) :
    grabOperator room d.toNat buf b = some (.ok (buf ++ d :: s, b.advance s.length)) := by
  induction s generalizing room d buf b with
  | nil =>
    obtain ⟨k, rfl⟩ : ∃ k, room = k + 2 := ⟨room - 2, by simp only [List.length_nil] at hroom; omega⟩
    obtain ⟨v, hv, hmem⟩ := lexGetchar_behind h hc hno
    rw [grabOperator_step hd hv, grabOperator_stop hmem (List.append_ne_nil_of_right_ne_nil _ (List.cons_ne_nil _ _)),
      Bio.ungetc_advance b 0]
    rfl
  | cons x s ih =>
    obtain ⟨k, rfl⟩ := Nat.exists_eq_add_one_of_ne_zero (Nat.ne_of_gt (Nat.zero_lt_of_lt hroom))
    have hx : IsOperatorChar x := hs x List.mem_cons_self
    have hs' : ∀ y ∈ s, IsOperatorChar y := fun y hy => hs y (List.mem_cons_of_mem _ hy)
    rw [grabOperator_step hd (lexGetchar_operatorChar h hx), ih hx hs' (Nat.lt_of_succ_lt_succ hroom) h.tail,
      List.append_assoc, Bio.advance_advance, List.length_cons, Nat.add_comm 1]
    rfl

/-- There is no room for a character more. -/
theorem grabOperator_long (hd : IsOperatorChar d) (hs : ∀ x ∈ s, IsOperatorChar x) (hc : Legal c)
    (hroom : room ≤ s.length + 1) (h : b.At (s ++ c :: rest)) :
    grabOperator room d.toNat buf b = some (.error "That's a pretty long operator token...!") := by
  induction s generalizing room d buf b with
  | nil =>
    cases room with
    | zero => rfl
    | succ room =>
      obtain rfl : room = 0 := by
        simp only [List.length_nil] at hroom
        omega
      rw [grabOperator_step hd (congrArg some (lexGetchar_legal h hc))]
      rfl
  | cons x s ih =>
    cases room with
    | zero => rfl
    | succ room =>
      have hx : IsOperatorChar x := hs x List.mem_cons_self
      have hs' : ∀ y ∈ s, IsOperatorChar y := fun y hy => hs y (List.mem_cons_of_mem _ hy)
      rw [grabOperator_step hd (lexGetchar_operatorChar h hx), ih hx hs' (Nat.le_of_succ_le_succ hroom) h.tail]

/-! ## Giving characters back -/

/-- Words that are no operators are shortened, and what is given back last is known. -/
theorem findOperator_shorten {len k : Nat} {removedEq : Bool} (hle : k ≤ len)
    (hnone : ∀ n, k < n → n ≤ len → S.find l.st l.localsOnly LexSymType.isOperator (run.take n) = none) :
    findOperator S l run len removedEq (b.advance len) =
      findOperator S l run k (if k = len then removedEq else decide (run[k]? = some 61)) (b.advance k) := by
  induction len generalizing removedEq with
  | zero =>
    obtain rfl := Nat.le_zero.mp hle
    rfl
  | succ len ih =>
    rcases Nat.eq_or_lt_of_le hle with rfl | hlt
    · rw [if_pos rfl]
    · have hback : (modify Bio.ungetc : Scan CompileError PUnit) (b.advance (len + 1)) =
          some (.ok (⟨⟩, b.advance len)) :=
        congrArg (fun b => some (Except.ok (PUnit.unit, b))) (Bio.ungetc_advance b len)
      have hremoved : (if k = len then decide (run[len]? = some 61) else decide (run[k]? = some 61)) =
          decide (run[k]? = some 61) := by
        split
        · next heq => rw [heq]
        · rfl
      conv => lhs; unfold findOperator
      rw [hnone (len + 1) hlt (Nat.le_refl _), if_neg (Nat.ne_of_lt hlt), ← hremoved]
      exact (Scan.bind_ok hback).trans (ih (Nat.le_of_lt_succ hlt) fun n hn hn' => hnone n hn (Nat.le_succ_of_le hn'))

theorem findOperator_found {k : Nat} {removedEq : Bool}
    (hfind : S.find l.st l.localsOnly LexSymType.isOperator (run.take (k + 1)) = some sym) :
    findOperator S l run (k + 1) removedEq b =
      if sym.type = .soperator true then some (.ok (some (.symOperator, .symref sym), b))
      else if removedEq then (Scan.lexGetchar >>= fun _ => return some (.symShortop, .symref sym)) b
      else some (.ok (some (.symOperator, .symref sym), b)) := by
  unfold findOperator
  rw [hfind]
  dsimp only
  split
  · rfl
  · split <;> rfl

/-- The longest operator is found, and its end or that of its shorthand form is where the input is left. -/
theorem findOperator_longest {u : List Byte} (hw : w ≠ [])
    (hfind : S.find l.st l.localsOnly LexSymType.isOperator w = some sym)
    (hnone : ∀ n, w.length < n → n ≤ (w ++ u).length →
      S.find l.st l.localsOnly LexSymType.isOperator ((w ++ u).take n) = none)
    (hc : ¬ IsOperatorChar c) (h : b.At (w ++ u ++ c :: rest)) :
    findOperator S l (w ++ u) (w ++ u).length false (b.advance (w ++ u).length) =
      if IsShorthand sym (u ++ c :: rest) then some (.ok (some (.symShortop, .symref sym), b.advance (w.length + 1)))
      else some (.ok (some (.symOperator, .symref sym), b.advance w.length)) := by
  have hle : w.length ≤ (w ++ u).length := by
    rw [List.length_append]
    exact Nat.le_add_right ..
  have htake : (w ++ u).take w.length = w := List.take_left
  obtain ⟨k, hk⟩ := Nat.exists_eq_add_one_of_ne_zero (fun heq => hw (List.length_eq_zero_iff.mp heq))
  rw [findOperator_shorten hle hnone]
  rw [hk] at htake ⊢
  rw [findOperator_found (htake ▸ hfind)]
  by_cases hshort : sym.type = .soperator true
  · rw [if_pos hshort, if_neg fun hand => hand.1 hshort]
  · rw [if_neg hshort]
    cases u with
    | nil =>
      have hno : ¬ IsShorthand sym ([] ++ c :: rest) := by
        rintro ⟨-, heq⟩
        obtain rfl : c = 61 := Option.some.inj heq
        exact hc (by decide)
      rw [List.append_nil, hk, if_pos rfl, if_neg Bool.false_ne_true, if_neg hno]
    | cons x u =>
      have hlt : k + 1 ≠ (w ++ x :: u).length := by
        rw [List.length_append, hk, List.length_cons]
        omega
      have hget : (w ++ x :: u)[k + 1]? = some x := by
        rw [← hk, List.getElem?_append_right (Nat.le_refl _), Nat.sub_self]
        rfl
      rw [if_neg hlt, hget]
      by_cases hx : x = 61
      · subst hx
        have hat : (b.advance (k + 1)).At (61 :: (u ++ c :: rest)) := by
          rw [List.append_assoc] at h
          exact hk ▸ h.advance
        have hyes : IsShorthand sym (61 :: u ++ c :: rest) := ⟨hshort, rfl⟩
        rw [if_pos (decide_eq_true rfl), if_pos hyes, Scan.bind_ok (lexGetchar_operatorChar hat (by decide)),
          Bio.advance_advance]
        rfl
      · have hno : ¬ IsShorthand sym (x :: u ++ c :: rest) := fun hand => hx (Option.some.inj hand.2)
        rw [if_neg (fun heq => hx (Option.some.inj (of_decide_eq_true heq))), if_neg hno]

/-! ## The lexer at an operator -/

theorem longestOperator_append (hop : LongestOperator S flags (run ++ c :: rest) w sym) (hc : ¬ IsOperatorChar c) :
    ∃ u, run = w ++ u := by
  rcases List.prefix_or_prefix_of_prefix hop.starts (List.prefix_append run (c :: rest)) with hw | ⟨t, rfl⟩
  · exact hw.imp fun _ heq => heq.symm
  · cases t with
    | nil => exact ⟨[], by rw [List.append_nil, List.append_nil]⟩
    | cons x t =>
      obtain ⟨r, hr⟩ := hop.starts
      rw [List.append_assoc] at hr
      obtain rfl : x = c := (List.cons.inj (List.append_cancel_left hr)).1
      exact absurd (hop.chars x (List.mem_append_right _ List.mem_cons_self)) hc

/-- Operator characters that start no comment are no white space. -/
theorem lexToken_operator (hchars : flags.characters = false) (hrun : ∀ x ∈ d :: s, IsOperatorChar x) (hc : Legal c)
    (hno : ¬ IsOperatorChar c) (hcomment : ¬ StartsComment flags (d :: s)) (h : b.At (d :: s ++ c :: rest)) :
    lexToken S X flags (k + 1) b =
      lexRest S X flags (k + 1) d.toNat ⟨S.scope, flags.localsOnly⟩ (b.advance 1) := by
  obtain ⟨hlow, hhigh, hname, hq, hq', -⟩ := operatorChar_facts (hrun d List.mem_cons_self)
  have hfrom : lexToken S X flags (k + 1) b = lexFrom S X flags (k + 1) d.toNat (b.advance 1) := by
    cases hskip : flags.noSkipwhite with
    | true =>
      unfold lexToken
      rw [hskip]
      exact getchar_at h (Nat.le_of_lt hlow)
    | false =>
      refine lexToken_at h hlow ?_
      rintro rfl
      cases s with
      | nil =>
        refine ⟨c, rfl, hc, ?_, ?_⟩
        all_goals
          rintro rfl
          exact hno (by decide)
      | cons x s =>
        refine ⟨x, rfl, legal_of_isOperatorChar (hrun x (List.mem_cons_of_mem _ List.mem_cons_self)), ?_, ?_⟩
        · rintro rfl
          exact hcomment ⟨hskip, .inl (List.prefix_append [47, 47] s)⟩
        · rintro rfl
          exact hcomment ⟨hskip, .inr (List.prefix_append [47, 42] s)⟩
  rw [hfrom, lexFrom_rest hlow hhigh hchars hname ⟨hq, hq'⟩]

theorem lexRest_operator (hoperators : flags.noOperators = false) (hrun : ∀ x ∈ d :: s, IsOperatorChar x) (hc : Legal c)
    (hno : ¬ IsOperatorChar c) (hlen : (d :: s).length ≤ 16) (h : b.At (d :: s ++ c :: rest))
    (hop : LongestOperator S flags (d :: s ++ c :: rest) w sym) :
    ∃ rest', d :: s ++ c :: rest = w ++ rest' ∧
      lexRest S X flags k d.toNat ⟨S.scope, flags.localsOnly⟩ (b.advance 1) =
        if IsShorthand sym rest' then some (.ok ((.symShortop, .symref sym), b.advance (w.length + 1)))
        else some (.ok ((.symOperator, .symref sym), b.advance w.length)) := by
  have hd : IsOperatorChar d := hrun d List.mem_cons_self
  obtain ⟨u, hu⟩ := longestOperator_append hop hno
  refine ⟨u ++ c :: rest, by rw [hu, List.append_assoc], ?_⟩
  have hweak : checkWeakassign d.toNat (b.advance 1) = some (.ok (false, b.advance 1)) := by
    unfold checkWeakassign
    rw [if_neg (byte_ne (k := 40) (operatorChar_facts hd).2.2.2.2.2 rfl)]
    rfl
  have hgrab : grabOperator 17 d.toNat [] (b.advance 1) = some (.ok (w ++ u, b.advance (w ++ u).length)) := by
    have hs : ∀ x ∈ s, IsOperatorChar x := fun x hx => hrun x (List.mem_cons_of_mem _ hx)
    rw [grabOperator_run hd hs hc hno (Nat.lt_succ_of_le hlen) h.tail, ← hu, Bio.advance_advance, List.length_cons, Nat.add_comm 1]
    rfl
  have hnone (n : Nat) (hn : w.length < n) (hn' : n ≤ (w ++ u).length) :
      S.find S.scope flags.localsOnly LexSymType.isOperator ((w ++ u).take n) = none := by
    rw [← hu] at hn' ⊢
    refine hop.longest _ ((List.take_prefix n _).trans (List.prefix_append _ _)) (fun x hx => ?_) ?_
    · exact hrun x (List.mem_of_mem_take hx)
    · rw [List.length_take_of_le hn']
      exact hn
  have hfind := findOperator_longest (l := ⟨S.scope, flags.localsOnly⟩) hop.ne_nil hop.found hnone hno (hu ▸ h)
  unfold lexRest
  rw [hoperators, if_neg Bool.false_ne_true, Scan.get_bind, Scan.bind_ok hweak, if_neg Bool.false_ne_true,
    Scan.bind_ok hgrab]
  split at hfind
  · rw [Scan.bind_ok hfind]
    exact (if_pos ‹_›).symm
  · rw [Scan.bind_ok hfind]
    exact (if_neg ‹_›).symm

theorem lexRest_long (hoperators : flags.noOperators = false) (hrun : ∀ x ∈ d :: s, IsOperatorChar x) (hc : Legal c)
    (hlen : 16 < (d :: s).length) (h : b.At (d :: s ++ c :: rest)) :
    lexRest S X flags k d.toNat l (b.advance 1) = some (.error "That's a pretty long operator token...!") := by
  have hd : IsOperatorChar d := hrun d List.mem_cons_self
  have hweak : checkWeakassign d.toNat (b.advance 1) = some (.ok (false, b.advance 1)) := by
    unfold checkWeakassign
    rw [if_neg (byte_ne (k := 40) (operatorChar_facts hd).2.2.2.2.2 rfl)]
    rfl
  have hgrab : grabOperator 17 d.toNat [] (b.advance 1) = some (.error "That's a pretty long operator token...!") :=
    grabOperator_long hd (fun x hx => hrun x (List.mem_cons_of_mem _ hx)) hc hlen h.tail
  unfold lexRest
  rw [hoperators, if_neg Bool.false_ne_true, Scan.get_bind, Scan.bind_ok hweak, if_neg Bool.false_ne_true,
    Scan.bind_error hgrab]

end Lexer

/-! ## Tokens of the lexer -/

section

variable {S : SymTables} {X : NumCasts} {flags : LexFlags} {rounds : Nat} {es es₁ : LexState}

theorem eelLex_ok {r : LexToken × LVal} {b : Bio} (h : Lexer.lexToken S X flags rounds es.bio = some (.ok (r, b))) :
    eelLex S X flags rounds es = some (.ok ⟨b, r.2, r.1, ⟨es.lval, es.token, es.bio.pos⟩, es.ls₀⟩) := by
  unfold eelLex
  rw [h]
  rfl

theorem eelLex_error {e : CompileError} (h : Lexer.lexToken S X flags rounds es.bio = some (.error e)) :
    eelLex S X flags rounds es = some (.error e) := by
  unfold eelLex
  rw [h]
  rfl

/-- A token that is pushed back is read again. -/
theorem eelLex_eelUnlex (hpos : es.bio.pos ≤ es.bio.data.length) (h : eelLex S X flags rounds es = some (.ok es₁)) :
    ∃ es₂ es₃, eelUnlex es₁ = .ok es₂ ∧ eelLex S X flags rounds es₂ = some (.ok es₃) ∧
      es₃.token = es₁.token ∧ es₃.lval = es₁.lval ∧ es₃.bio = es₁.bio := by
  obtain ⟨r, hr, hes₁⟩ := Option.map_eq_some_iff.mp h
  cases r with
  | error e => cases hes₁
  | ok r =>
    obtain ⟨⟨token, lval⟩, bio⟩ := r
    obtain rfl := (Except.ok.inj hes₁).symm
    have hdata := (Lexer.lexToken_keeps S X flags rounds es.bio _ bio hpos hr).1
    have hback : bio.seekSet es.bio.pos = es.bio := by
      unfold Bio.seekSet
      rw [hdata, Int.toNat_natCast, Nat.min_eq_left hpos]
    refine ⟨⟨es.bio, es.lval, es.token, es.ls₀, ⟨.none, .eof, -1⟩⟩, _, ?_, eelLex_ok hr, rfl, rfl, rfl⟩
    unfold eelUnlex
    rw [if_neg (Int.not_lt.mpr (Int.natCast_nonneg _)), hback]

end

open Lexer in
/-- Where at most sixteen operator characters follow, and start no comment, the longest operator or its shorthand form
is the token. Every token that is pushed back is read again. -/
theorem lexes_operators (S : SymTables) (X : NumCasts) (flags : LexFlags) (rounds : Nat) (es : LexState)
    (hpos : es.bio.pos ≤ es.bio.data.length) :
    (∀ run c rest, flags.characters = false → flags.noOperators = false → run ≠ [] →
      (∀ x ∈ run, IsOperatorChar x) → Legal c → ¬ IsOperatorChar c → ¬ StartsComment flags run →
      es.bio.At (run ++ c :: rest) → 0 < rounds →
        (16 < run.length → eelLex S X flags rounds es = some (.error "That's a pretty long operator token...!")) ∧
        (run.length ≤ 16 → ∀ w sym, LongestOperator S flags (run ++ c :: rest) w sym →
          ∃ es' rest', eelLex S X flags rounds es = some (.ok es') ∧ es'.bio.data = es.bio.data ∧
            run ++ c :: rest = w ++ rest' ∧ es'.lval = .symref sym ∧
            if IsShorthand sym rest' then es'.token = .symShortop ∧ es'.bio.At rest'.tail
            else es'.token = .symOperator ∧ es'.bio.At rest')) ∧
    ∀ es₁, eelLex S X flags rounds es = some (.ok es₁) →
      ∃ es₂ es₃, eelUnlex es₁ = .ok es₂ ∧ eelLex S X flags rounds es₂ = some (.ok es₃) ∧
        es₃.token = es₁.token ∧ es₃.lval = es₁.lval ∧ es₃.bio = es₁.bio := by
  refine ⟨?_, fun es₁ h => eelLex_eelUnlex hpos h⟩
  intro run c rest hchars hoperators hne hrun hc hno hcomment hat hrounds
  obtain ⟨d, s, rfl⟩ := List.exists_cons_of_ne_nil hne
  obtain ⟨k, rfl⟩ := Nat.exists_eq_add_one_of_ne_zero (Nat.ne_of_gt hrounds)
  have htoken := lexToken_operator (S := S) (X := X) (k := k) hchars hrun hc hno hcomment hat
  refine ⟨fun hlong => ?_, fun hlen w sym hop => ?_⟩
  · exact eelLex_error (htoken.trans (lexRest_long hoperators hrun hc hlong hat))
  · obtain ⟨rest', htext, hrest⟩ := lexRest_operator (X := X) (k := k + 1) hoperators hrun hc hno hlen hat hop
    have hat' : es.bio.At (w ++ rest') := htext ▸ hat
    rw [← htoken] at hrest
    by_cases hshort : IsShorthand sym rest'
    · rw [if_pos hshort] at hrest
      obtain ⟨r, rfl⟩ : ∃ r, rest' = 61 :: r := by
        cases rest' with
        | nil => cases hshort.2
        | cons x r => exact ⟨r, congrArg (· :: r) (Option.some.inj hshort.2)⟩
      refine ⟨_, 61 :: r, eelLex_ok hrest, rfl, htext, rfl, ?_⟩
      rw [if_pos hshort]
      have htail : (es.bio.advance (w.length + 1)).At r := by
        rw [← Bio.advance_advance]
        exact hat'.advance.tail
      exact ⟨rfl, htail⟩
    · rw [if_neg hshort] at hrest
      refine ⟨_, rest', eelLex_ok hrest, rfl, htext, rfl, ?_⟩
      rw [if_neg hshort]
      exact ⟨rfl, hat'.advance⟩

/-! ## A run of seventeen -/

/-- The symbol of an operator with a single character. -/
def plus : LexSymbol := ⟨0, [43], .soperator false⟩

/-- A table with one operator. -/
def plusTables : SymTables := ⟨fun _ => [plus], [0], fun _ => none⟩

def defaultFlags : LexFlags := ⟨false, false, false, false, false, false⟩

theorem plus_longest (n : Nat) :
    LongestOperator plusTables defaultFlags (List.replicate (n + 1) 43 ++ [59]) [43] plus where
  starts := ⟨List.replicate n 43 ++ [59], rfl⟩
  ne_nil := List.cons_ne_nil _ _
  chars := by decide
  found := rfl
  longest := by
    intro w' _ _ hlen
    have hne : ([43] == w') = false := by
      refine beq_eq_false_iff_ne.mpr ?_
      rintro rfl
      exact Nat.lt_irrefl _ hlen
    unfold SymTables.find plusTables plus
    simp only [defaultFlags, Bool.false_eq_true, if_false, List.findSome?_cons, List.findSome?_nil, List.find?_cons,
      List.find?_nil, hne, Bool.false_and]

def startOf (data : List Byte) : LexState := ⟨⟨data, 0⟩, .none, .eof, ⟨.none, .eof, -1⟩, ⟨.none, .eof, -1⟩⟩

open Lexer in
theorem lexes_operators_plus :
    ∃ es', eelLex plusTables ⟨fun _ => 0, fun _ => 0⟩ defaultFlags 1 (startOf [43, 59]) = some (.ok es') ∧
      es'.token = .symOperator ∧ es'.bio.At [59] := by
  have hop : LongestOperator plusTables defaultFlags ([43] ++ 59 :: []) [43] plus := plus_longest 0
  have hcomment : ¬ StartsComment defaultFlags [43] := by
    rintro ⟨-, h | h⟩
    all_goals cases (List.cons_prefix_cons.mp h).1
  have hat : (startOf [43, 59]).bio.At ([43] ++ 59 :: []) := ⟨rfl, by decide⟩
  have hpos : (startOf [43, 59]).bio.pos ≤ (startOf [43, 59]).bio.data.length := by decide
  obtain ⟨es', rest', hlex, -, htext, -, hrest⟩ :=
    ((lexes_operators plusTables ⟨fun _ => 0, fun _ => 0⟩ defaultFlags 1 (startOf [43, 59]) hpos).1 [43] 59 [] rfl rfl
      (by decide) (by decide) (.inl (by decide)) (by decide) hcomment hat (by decide)).2 (by decide) [43] plus hop
  obtain rfl : [59] = rest' := List.append_cancel_left htext
  have hno : ¬ IsShorthand plus [59] := by decide
  rw [if_neg hno] at hrest
  exact ⟨es', hlex, hrest⟩

/-- A run of seventeen operator characters is no token, whatever it starts with. -/
theorem not_lexes_operators :
    LongestOperator plusTables defaultFlags (List.replicate 17 43 ++ [59]) [43] plus ∧
      ∀ X rounds, 0 < rounds → eelLex plusTables X defaultFlags rounds (startOf (List.replicate 17 43 ++ [59])) =
        some (.error "That's a pretty long operator token...!") := by
  refine ⟨plus_longest 16, fun X rounds hrounds => ?_⟩
  obtain ⟨k, rfl⟩ := Nat.exists_eq_add_one_of_ne_zero (Nat.ne_of_gt hrounds)
  have hat : (startOf (List.replicate 17 43 ++ [59])).bio.At (43 :: List.replicate 16 43 ++ [59]) := ⟨rfl, by decide⟩
  have hrun : ∀ x ∈ (43 : Byte) :: List.replicate 16 43, IsOperatorChar x := by decide
  have hcomment : ¬ StartsComment defaultFlags (43 :: List.replicate 16 43) := by
    rintro ⟨-, h | h⟩
    all_goals cases (List.cons_prefix_cons.mp h).1
  have hlegal : Lexer.Legal 59 := .inl (by decide)
  refine eelLex_error ?_
  rw [Lexer.lexToken_operator (c := 59) (s := List.replicate 16 43) rfl hrun hlegal (by decide) hcomment hat]
  exact Lexer.lexRest_long rfl hrun (.inl (by decide)) (by decide) hat

end Eel
