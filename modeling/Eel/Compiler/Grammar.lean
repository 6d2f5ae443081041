-- SUMMARY: The grammar of statements, and the theorem that a compiled text is parsed to its end away from the two defects.
import Eel.Compiler.Statements

/-!
# The grammar of statements

A text is a sequence of statements that ends at the end of the file, or at the keyword
`end`. A statement is empty, a body in braces, or what a rule reads that is led in by its
own token.
-/

namespace Eel.Parser

open Procedures Prog

variable {L C : Type} {P : Parser L C} {s t u : ParserState L C} {flags : ContextFlags}

/-! ## Grammar -/

/-- The end of the file, or of the program. -/
def AtEnd (s : ParserState L C) : Prop := s.token = .eof ∨ s.token = .kwEnd

/-- The keywords that lead in a rule, other than those of declarations. -/
def leadIn : Token → Bool
  | .kwEelversion | .kwThrow | .kwRetry | .kwImport | .kwIf | .kwSwitch | .kwWhile | .kwDo | .kwFor => true
  | .kwBreak | .kwContinue | .kwRepeat | .kwReturn | .kwTry | .kwUntry | .kwConstant => true
  | _ => false

/-- The tokens that a statement begins with. -/
def begins (token : Token) : Bool := token = .char ';' || leadIn token || token.startsExpression

/-- A body starts here. Its opening brace is at `t`. -/
def BodyAt (P : Parser L C) (s : ParserState L C) (name : Option L) (t : ParserState L C) : Prop :=
  s.token = .char '{' ∧ name = none ∧ t = s ∨
    s.token = .name ∧ name = some s.lexer ∧
      ∃ u, P.lex s = some u ∧ u.token = .char ':' ∧ P.lex u = some t ∧ t.token = .char '{'

/-- No body starts here. -/
def NoBodyAt (P : Parser L C) (s : ParserState L C) : Prop :=
  s.token ≠ .char '{' ∧ (s.token = .name → ∃ t, P.lex s = some t ∧ t.token ≠ .char ':')

/-- The rule that the tokens lead in, and where it recognizes the text as its own. -/
def leads (P : Parser L C) (s : ParserState L C) : Option (Rule × ParserState L C) :=
  match s.token with
  | .kwEelversion => some (.eelversion, s)
  | .kwThrow => some (.throwstat, s)
  | .kwRetry => some (.retrystat, s)
  | .kwImport => some (.importstat false, s)
  | .kwIf => some (.ifstat, s)
  | .kwSwitch => some (.switchstat, s)
  | .kwWhile => some (.whilestat, s)
  | .kwDo => some (.dostat, s)
  | .kwFor => (P.lex s).bind fun t =>
    if t.token.startsExpression then some (.forstat, P.enterFor t) else none
  | .kwBreak => some (.breakstat, s)
  | .kwContinue => some (.contstat, s)
  | .kwRepeat => some (.repeatstat, s)
  | .kwReturn => some (.returnstat, s)
  | .kwTry => some (.trystat, s)
  | .kwUntry => some (.untrystat, s)
  | .kwConstant => some (.constdeclstat false, s)
  | .kwExport => (P.lex s).map fun t =>
    match t.token with
    | .kwImport => (.importstat true, t)
    | .kwConstant => (.constdeclstat true, t)
    | _ => (.assignstat, s)
  | .symClass true => none
  | token => if token.startsExpression then some (.assignstat, s) else none

/-- What a block with these statements is to `body`. A block that begins with an empty statement has
no other. -/
def blockAnswer : List Answer → Option Answer
  | [] => some .void
  | [.void] => some .void
  | [.empty] => some .empty
  | .statement :: _ => some .body
  | _ => none

/-- There is nothing here of what is asked for. -/
def Nothing (P : Parser L C) : Ask L C → Answer × ParserState L C → Prop
  | .statement flags s, a =>
    NoBodyAt P s ∧
      (AtEnd s ∧ a = (.eof, P.unwrap flags (P.wrap flags s)) ∨
        ¬AtEnd s ∧ begins s.token = false ∧ a = (.wrong, P.unwrap flags (P.wrap flags s)))
  | .body _ s, a => NoBodyAt P s ∧ a = (.wrong, s)

mutual

/-- A statement, from `s` to `t`. -/
inductive Statement (P : Parser L C) :
    ContextFlags → ParserState L C → Answer → ParserState L C → Prop
  | body {flags : ContextFlags} {s t : ParserState L C} {res : Answer} :
    Body P flags s res t → Statement P flags s (if res = .void then .empty else .statement) t
  | empty {flags : ContextFlags} {s t : ParserState L C} :
    s.token = .char ';' → P.lex (P.wrap flags s) = some t → Statement P flags s .void (P.unwrap flags t)
  | rule {flags : ContextFlags} {s t u : ParserState L C} {rule : Rule} :
    NoBodyAt P s → leads P (P.wrap flags s) = some (rule, u) → Reads P (P.rest rule u) t →
    Statement P flags s .statement (P.unwrap flags t)

/-- A body: statements in braces. -/
inductive Body (P : Parser L C) : ContextFlags → ParserState L C → Answer → ParserState L C → Prop
  | braces {flags : ContextFlags} {s t u v w : ParserState L C} {name : Option L} {ks : List Answer}
    {res : Answer} :
    BodyAt P s name t → (flags.function = true → name = none) → P.lex t = some u →
    Statements P (P.enterBody name flags u) ks v → blockAnswer ks = some res →
    P.expect '}' (P.leaveBody flags v) = some w → Body P flags s res w

/-- Statements one after the other, from `s` to `t`. -/
inductive Statements (P : Parser L C) : ParserState L C → List Answer → ParserState L C → Prop
  | nil {s : ParserState L C} : Statements P s [] s
  | cons {s t u : ParserState L C} {k : Answer} {ks : List Answer} :
    Statement P .none s k t → Statements P t ks u → Statements P s (k :: ks) u

/-- The rest of a rule has read its statement when it is at `t`. -/
inductive Reads (P : Parser L C) :
    Prog (Ask L C) (Answer × ParserState L C) (ParserState L C) → ParserState L C → Prop
  | ret {t : ParserState L C} : Reads P (.ret t) t
  | statement {flags : ContextFlags} {s t u : ParserState L C} {k : Answer}
    {rest : Answer × ParserState L C → Prog (Ask L C) (Answer × ParserState L C) (ParserState L C)} :
    Statement P flags s k t → Reads P (rest (k, t)) u → Reads P (.call (.statement flags s) rest) u
  | body {flags : ContextFlags} {s t u : ParserState L C} {k : Answer}
    {rest : Answer × ParserState L C → Prog (Ask L C) (Answer × ParserState L C) (ParserState L C)} :
    Body P flags s k t → Reads P (rest (k, t)) u → Reads P (.call (.body flags s) rest) u
  | nothing {a : Ask L C} {r : Answer × ParserState L C} {u : ParserState L C}
    {rest : Answer × ParserState L C → Prog (Ask L C) (Answer × ParserState L C) (ParserState L C)} :
    Nothing P a r → Reads P (rest r) u → Reads P (.call a rest) u

end

/-- A `for` without an expression. -/
def LoneFor (P : Parser L C) (s : ParserState L C) : Prop :=
  s.token = .kwFor ∧ ∃ t, P.lex s = some t ∧ t.token.startsExpression = false

/-! ## What the functions make of a place -/

theorem takes_bind {rule : Rule} {f : ParserState L C → Parse L C (Answer × ParserState L C)} :
    ((P.takes rule s).bind fun p => if p.1 = .wrong then f p.2 else .ret (.statement, p.2)) =
      P.takes rule s := by
  simp [takes, bind_assoc]

theorem statement2_end (h : AtEnd s) : P.statement2 s = .ret (.eof, s) := by
  rcases h with h | h <;> simp [statement2, h]

theorem statement2_empty (h : s.token = .char ';') :
    P.statement2 s = (ofOption (P.lex s)).bind fun t => .ret (.void, t) := by
  simp [statement2, h]

section Rules

variable {rules : List (ParserState L C → Parse L C (Answer × ParserState L C))} {keyword : Token}
variable {rule : Rule}

theorem tryRules_pass {f : ParserState L C → Parse L C (Answer × ParserState L C)}
    (h : f s = .ret (.wrong, s)) : tryRules (f :: rules) s = tryRules rules s := by
  simp [tryRules, h]

theorem tryRules_take {f : ParserState L C → Parse L C (Answer × ParserState L C)}
    (h : f s = P.takes rule u) : tryRules (f :: rules) s = P.takes rule u := by
  rw [tryRules, h]
  exact takes_bind

theorem tryRules_keyword (h : s.token = keyword) :
    tryRules (P.keywordstat keyword rule :: rules) s = P.takes rule s :=
  tryRules_take (if_pos h)

theorem tryRules_keyword_ne (h : s.token ≠ keyword) :
    tryRules (P.keywordstat keyword rule :: rules) s = tryRules rules s :=
  tryRules_pass (if_neg h)

theorem tryRules_importstat_ne (hx : s.token ≠ .kwExport) (hi : s.token ≠ .kwImport) :
    tryRules (P.importstat :: rules) s = tryRules rules s := by
  apply tryRules_pass
  unfold importstat
  split <;> simp_all

theorem tryRules_constdeclstat_ne (hx : s.token ≠ .kwExport) (hc : s.token ≠ .kwConstant) :
    tryRules (P.constdeclstat :: rules) s = tryRules rules s := by
  apply tryRules_pass
  unfold constdeclstat
  split <;> simp_all

theorem tryRules_forstat_ne (h : s.token ≠ .kwFor) :
    tryRules (P.forstat :: rules) s = tryRules rules s := tryRules_pass (if_neg h)

theorem tryRules_assignstat (h : s.token.startsExpression = true) :
    tryRules (P.assignstat :: rules) s = P.takes .assignstat s := tryRules_take (if_pos h)

end Rules

/-- What no other rule takes is for `assignstat`. -/
theorem statement2_other (hend : ¬AtEnd s) (hsemi : s.token ≠ .char ';') (hlead : leadIn s.token = false)
    (hx : s.token ≠ .kwExport) (hm : s.token ≠ .symClass true) :
    P.statement2 s = tryRules [P.assignstat] s := by
  unfold statement2
  split
  case h_8 =>
    have hne : ∀ keyword, leadIn keyword = true → s.token ≠ keyword := by
      rintro _ h rfl
      simp [h] at hlead
    simp only [ifstat, switchstat, whilestat, dostat, breakstat, contstat, repeatstat, returnstat, trystat,
      untrystat]
    rw [tryRules_importstat_ne hx (hne _ rfl), tryRules_keyword_ne (hne .kwIf rfl),
      tryRules_keyword_ne (hne .kwSwitch rfl), tryRules_keyword_ne (hne .kwWhile rfl),
      tryRules_keyword_ne (hne .kwDo rfl), tryRules_forstat_ne (hne _ rfl),
      tryRules_keyword_ne (hne .kwBreak rfl), tryRules_keyword_ne (hne .kwContinue rfl),
      tryRules_keyword_ne (hne .kwRepeat rfl), tryRules_keyword_ne (hne .kwReturn rfl),
      tryRules_keyword_ne (hne .kwTry rfl), tryRules_keyword_ne (hne .kwUntry rfl),
      tryRules_constdeclstat_ne hx (hne _ rfl)]
  all_goals simp_all [AtEnd, leadIn]

theorem leadIn_of_starts (h : s.token.startsExpression = true) :
    ¬AtEnd s ∧ s.token ≠ .char ';' ∧ leadIn s.token = false := by
  unfold Token.startsExpression at h
  split at h <;> simp_all [AtEnd, leadIn]

/-- `export` leads in an import, a constant, or a declaration in an expression. -/
theorem statement2_export (hs : s.token = .kwExport) (ht : P.lex s = some t) :
    P.statement2 s =
      match t.token with
      | .kwImport => P.takes (.importstat true) t
      | .kwConstant => P.takes (.constdeclstat true) t
      | _ => P.takes .assignstat s := by
  simp only [statement2, hs]
  by_cases himport : t.token = .kwImport
  · rw [himport]
    apply tryRules_take
    simp [importstat, hs, ht, ofOption, himport]
  rw [tryRules_pass (by simp [importstat, hs, ht, ofOption, himport])]
  simp only [ifstat, switchstat, whilestat, dostat, breakstat, contstat, repeatstat, returnstat, trystat,
    untrystat]
  simp only [tryRules_keyword_ne, tryRules_forstat_ne, hs, ne_eq, reduceCtorEq, not_false_eq_true]
  by_cases hconst : t.token = .kwConstant
  · rw [hconst]
    apply tryRules_take
    simp [constdeclstat, hs, ht, ofOption, hconst]
  rw [tryRules_pass (by simp [constdeclstat, hs, ht, ofOption, hconst]),
    tryRules_assignstat (by simp [hs, Token.startsExpression])]
  split
  · contradiction
  · contradiction
  · rfl

theorem statement2_for (hs : s.token = .kwFor) (ht : P.lex s = some t)
    (hexp : t.token.startsExpression = true) : P.statement2 s = P.takes .forstat (P.enterFor t) := by
  simp only [statement2, hs, ifstat, switchstat, whilestat, dostat]
  simp only [tryRules_importstat_ne, tryRules_keyword_ne, hs, ne_eq, reduceCtorEq, not_false_eq_true]
  apply tryRules_take
  simp [forstat, hs, ht, ofOption, enterFor, hexp]

theorem statement2_constant (hs : s.token = .kwConstant) :
    P.statement2 s = P.takes (.constdeclstat false) s := by
  simp only [statement2, hs, ifstat, switchstat, whilestat, dostat, breakstat, contstat, repeatstat,
    returnstat, trystat, untrystat]
  simp only [tryRules_importstat_ne, tryRules_keyword_ne, tryRules_forstat_ne, hs, ne_eq, reduceCtorEq,
    not_false_eq_true]
  apply tryRules_take
  simp [constdeclstat, hs]

theorem statement2_import (hs : s.token = .kwImport) :
    P.statement2 s = P.takes (.importstat false) s := by
  simp only [statement2, hs]
  apply tryRules_take
  simp [importstat, hs]

/-- The rule that the tokens lead in is the one that parses the statement. -/
theorem statement2_rule {rule : Rule} (h : leads P s = some (rule, u)) :
    P.statement2 s = P.takes rule u := by
  unfold leads at h
  split at h
  case h_4 hs =>
    cases h
    exact statement2_import hs
  case h_9 hs =>
    obtain ⟨t, ht, h⟩ := Option.bind_eq_some_iff.mp h
    split at h
    case isTrue hexp =>
      cases h
      exact statement2_for hs ht hexp
    case isFalse => cases h
  case h_16 hs =>
    cases h
    exact statement2_constant hs
  case h_17 hs =>
    obtain ⟨t, ht, h⟩ := Option.map_eq_some_iff.mp h
    rw [statement2_export hs ht]
    split at h <;> cases h <;> simp_all
  case h_18 => cases h
  case h_19 hexp hm hx =>
    split at h
    case isTrue hs =>
      cases h
      obtain ⟨hend, hsemi, hlead⟩ := leadIn_of_starts hs
      rw [statement2_other hend hsemi hlead hm hx]
      exact tryRules_assignstat hs
    case isFalse => cases h
  all_goals
    rename_i hs
    cases h
    simp [statement2, hs, ifstat, switchstat, whilestat, dostat, breakstat, contstat, repeatstat,
      returnstat, trystat, untrystat, tryRules_keyword, tryRules_keyword_ne, tryRules_importstat_ne,
      tryRules_forstat_ne]

/-- Where no statement begins, no rule answers. -/
theorem statement2_nothing (hend : ¬AtEnd s) (h : begins s.token = false) :
    P.statement2 s = .ret (.wrong, s) := by
  obtain ⟨⟨hsemi, hlead⟩, hexp⟩ : (s.token ≠ .char ';' ∧ leadIn s.token = false) ∧
      s.token.startsExpression = false := by simpa [begins] using h
  rw [statement2_other hend hsemi hlead (fun hs => by simp [hs, Token.startsExpression] at hexp)
    (fun hs => by simp [hs, Token.startsExpression] at hexp), tryRules_pass]
  · rfl
  · simp [assignstat, hexp]

/-- One of the following is so wherever a statement is looked for. -/
theorem statement2_cases (P : Parser L C) (s : ParserState L C) :
    AtEnd s ∨ s.token = .char ';' ∨ (∃ rule u, leads P s = some (rule, u)) ∨
      (¬AtEnd s ∧ begins s.token = false) ∨ LoneFor P s ∨ P.statement2 s = .fail := by
  by_cases hend : AtEnd s
  · exact .inl hend
  by_cases hsemi : s.token = .char ';'
  · exact .inr (.inl hsemi)
  by_cases hbegins : begins s.token = false
  · exact .inr (.inr (.inr (.inl ⟨hend, hbegins⟩)))
  cases hleads : leads P s with
  | some p => exact .inr (.inr (.inl ⟨p.1, p.2, rfl⟩))
  | none =>
    refine .inr (.inr (.inr (.inr ?_)))
    unfold leads at hleads
    split at hleads
    case h_9 hs =>
      cases ht : P.lex s with
      | none =>
        right
        simp only [statement2, hs, ifstat, switchstat, whilestat, dostat]
        simp only [tryRules_importstat_ne, tryRules_keyword_ne, hs, ne_eq, reduceCtorEq, not_false_eq_true]
        simp [tryRules, forstat, hs, ht, ofOption]
      | some t =>
        left
        rw [ht] at hleads
        exact ⟨hs, t, ht, by simpa using hleads⟩
    case h_17 hs =>
      right
      simp [statement2, hs, tryRules, importstat, Option.map_eq_none_iff.mp hleads, ofOption]
    case h_18 hs => exact .inr (by simp [statement2, hs])
    case h_19 => simp_all [begins, leadIn]
    all_goals cases hleads

theorem body_at {name : Option L} (h : BodyAt P s name t) (hname : flags.function = true → name = none) :
    P.body flags s = P.bracesBody name flags t := by
  rcases h with ⟨hs, rfl, rfl⟩ | ⟨hs, rfl, u, hu, hcolon, ht, hbrace⟩
  · simp [body, hs]
  · have hfunction : flags.function = false := by simpa using mt hname
    simp [body, hs, hu, hcolon, ht, hbrace, hfunction, ofOption]

theorem body_nothing (h : NoBodyAt P s) : P.body flags s = .ret (.wrong, s) := by
  unfold body
  split
  case h_1 hs => exact absurd hs h.1
  case h_2 hs =>
    obtain ⟨t, ht, hcolon⟩ := h.2 hs
    simp [ht, hcolon, ofOption]
  case h_3 => rfl

/-- One of the following is so wherever a body is looked for. -/
theorem body_cases (P : Parser L C) (flags : ContextFlags) (s : ParserState L C) :
    (∃ name t, BodyAt P s name t ∧ (flags.function = true → name = none)) ∨ NoBodyAt P s ∨
      P.body flags s = .fail := by
  by_cases hbrace : s.token = .char '{'
  · exact .inl ⟨none, s, .inl ⟨hbrace, rfl, rfl⟩, fun _ => rfl⟩
  by_cases hname : s.token = .name
  · cases ht : P.lex s with
    | none => exact .inr (.inr (by simp [body, hname, ht, ofOption]))
    | some t =>
      by_cases hcolon : t.token = .char ':'
      · by_cases hfunction : flags.function = true
        · exact .inr (.inr (by simp [body, hname, ht, hcolon, hfunction, ofOption]))
        cases hu : P.lex t with
        | none => exact .inr (.inr (by simp [body, hname, ht, hcolon, hfunction, hu, ofOption]))
        | some u =>
          by_cases hopen : u.token = .char '{'
          · exact .inl ⟨_, u, .inr ⟨hname, rfl, t, ht, hcolon, hu, hopen⟩, fun h => absurd h hfunction⟩
          · exact .inr (.inr (by simp [body, hname, ht, hcolon, hfunction, hu, hopen, ofOption]))
      · exact .inr (.inl ⟨hbrace, fun _ => ⟨t, ht, hcolon⟩⟩)
  · exact .inr (.inl ⟨hbrace, fun h => absurd h hname⟩)

/-! ## What is in the grammar, the parser reads -/

/-- The calls that do not run into a `for` without an expression. -/
def Good (P : Parser L C) : ParserCall L C → Prop
  | .statement2 s => ¬LoneFor P s
  | _ => True

/-- The run returns `a`, and comes by no `for` without an expression. -/
abbrev Runs (P : Parser L C) {α : Type} (x : Parse L C α) (a : α) : Prop := Safely P.code (Good P) x a

@[simp] theorem wrap_token : (P.wrap flags s).token = s.token := by
  unfold wrap
  split <;> rfl

@[simp] theorem leaveBody_token : (P.leaveBody flags s).token = s.token := by
  unfold leaveBody
  split <;> rfl

@[simp] theorem wrap_none : P.wrap .none s = s := rfl

@[simp] theorem unwrap_none : P.unwrap .none s = s := rfl

/-- Where nothing is taken as a body, `statement` has the answer of `statement2`. -/
theorem runs_statement_noBody {res : Answer} (h : NoBodyAt P s) (hgood : ¬LoneFor P (P.wrap flags s))
    (h2 : Runs P (P.statement2 (P.wrap flags s)) (res, t)) :
    Runs P (P.statement flags s) (res, P.unwrap flags t) := by
  have hbody : Runs P (P.body flags s) (.wrong, s) := by
    rw [body_nothing h]
    exact safely_ret.mpr rfl
  simp only [statement, bind_eq, safely_bind, safely_ask]
  refine ⟨(.wrong, s), ⟨trivial, hbody⟩, ?_⟩
  simp only [safely_bind, safely_ask]
  exact ⟨(res, t), ⟨hgood, h2⟩, safely_ret.mpr rfl⟩

/-- What takes a body is a statement. -/
theorem runs_statement_body {res : Answer} (h : Runs P (P.body flags s) (res, t)) (hres : res ≠ .wrong) :
    Runs P (P.statement flags s) (if res = .void then .empty else .statement, t) := by
  simp only [statement, bind_eq, safely_bind, safely_ask]
  refine ⟨(res, t), ⟨trivial, h⟩, ?_⟩
  cases res <;> first | exact absurd rfl hres | exact safely_ret.mpr rfl

theorem not_loneFor_of_end (h : AtEnd s) : ¬LoneFor P s := by
  rintro ⟨hs, -⟩
  rcases h with h | h <;> cases hs.symm.trans h

theorem not_loneFor_of_nothing (h : begins s.token = false) : ¬LoneFor P s := fun ⟨hs, _⟩ => by
  simp [hs, begins, leadIn] at h

theorem not_loneFor_of_leads {rule : Rule} (h : leads P s = some (rule, u)) : ¬LoneFor P s := by
  rintro ⟨hs, t, ht, hexp⟩
  simp [leads, hs, ht, hexp] at h

theorem nothing_runs {a : Ask L C} {r : Answer × ParserState L C} (h : Nothing P a r) :
    Runs P (P.code (.ask a)) r := by
  cases a with
  | statement flags s =>
    obtain ⟨hbody, ⟨hend, rfl⟩ | ⟨hend, hbegins, rfl⟩⟩ := h
    · have hend' : AtEnd (P.wrap flags s) := by simpa [AtEnd] using hend
      refine runs_statement_noBody hbody (not_loneFor_of_end hend') ?_
      rw [statement2_end hend']
      exact safely_ret.mpr rfl
    · have hend' : ¬AtEnd (P.wrap flags s) := by simpa [AtEnd] using hend
      have hbegins' : begins (P.wrap flags s).token = false := by rwa [wrap_token]
      refine runs_statement_noBody hbody (not_loneFor_of_nothing hbegins') ?_
      rw [statement2_nothing hend' hbegins']
      exact safely_ret.mpr rfl
  | body flags s =>
    obtain ⟨hbody, rfl⟩ := h
    show Runs P (P.body flags s) _
    rw [body_nothing hbody]
    exact safely_ret.mpr rfl

theorem blockAnswer_ne {ks : List Answer} {res : Answer} (h : blockAnswer ks = some res) :
    res = .void ∨ res = .empty ∨ res = .body := by
  unfold blockAnswer at h
  split at h <;> cases h <;> simp

theorem Body.answer {res : Answer} (h : Body P flags s res t) : res = .void ∨ res = .empty ∨ res = .body := by
  cases h with
  | braces _ _ _ _ hks _ => exact blockAnswer_ne hks

theorem Statement.answer {res : Answer} (h : Statement P flags s res t) :
    res = .void ∨ res = .empty ∨ res = .statement := by
  cases h with
  | body => split <;> simp
  | empty => simp
  | rule => simp

/-- `block` stops at a first statement that is empty. -/
theorem runs_block_first {res : Answer} (h : Runs P (P.statement .none s) (res, t))
    (hres : res = .void ∨ res = .empty) : Runs P (block s) (res, t) := by
  simp only [block, bind_eq, safely_bind, safely_ask]
  refine ⟨(res, t), ⟨trivial, h⟩, ?_⟩
  rcases hres with rfl | rfl <;> exact safely_ret.mpr rfl

theorem runs_block_more {a : Answer × ParserState L C} (h : Runs P (P.statement .none s) (.statement, t))
    (hmore : Runs P (more t) a) : Runs P (block s) a := by
  simp only [block, bind_eq, safely_bind, safely_ask]
  exact ⟨(.statement, t), ⟨trivial, h⟩, safely_ask.mpr ⟨trivial, hmore⟩⟩

theorem runs_more {res : Answer} {a : Answer × ParserState L C}
    (h : Runs P (P.statement .none s) (res, t)) (hres : res = .void ∨ res = .empty ∨ res = .statement)
    (hmore : Runs P (more t) a) : Runs P (more s) a := by
  simp only [more, bind_eq, safely_bind, safely_ask]
  refine ⟨(res, t), ⟨trivial, h⟩, ?_⟩
  rcases hres with rfl | rfl | rfl <;> exact safely_ask.mpr ⟨trivial, hmore⟩

/-- Nothing of a statement is at a closing brace. -/
theorem nothing_brace (h : s.token = .char '}') : Nothing P (.statement .none s) (.wrong, s) :=
  ⟨⟨by simp [h], by simp [h]⟩, .inr ⟨by simp [AtEnd, h], by rw [h]; rfl, rfl⟩⟩

theorem runs_more_brace (h : s.token = .char '}') : Runs P (more s) (.block, s) := by
  simp only [more, bind_eq, safely_bind, safely_ask]
  exact ⟨(.wrong, s), ⟨trivial, nothing_runs (nothing_brace h)⟩, safely_ret.mpr rfl⟩

theorem runs_block_brace (h : s.token = .char '}') : Runs P (block s) (.void, s) := by
  simp only [block, bind_eq, safely_bind, safely_ask]
  exact ⟨(.wrong, s), ⟨trivial, nothing_runs (nothing_brace h)⟩, safely_ret.mpr rfl⟩

/-- The block of a body, and the brace behind it. -/
theorem runs_bracesBody {name : Option L} {v w : ParserState L C} {res : Answer} (hu : P.lex s = some u)
    (h : Runs P (block (P.enterBody name flags u)) (res, v)) (hres : res ≠ .eof)
    (hw : P.expect '}' (P.leaveBody flags v) = some w) :
    Runs P (P.bracesBody name flags s) (if res = .void ∨ res = .empty then res else .body, w) := by
  simp only [bracesBody, bind_eq, safely_bind, safely_ask, safely_ofOption]
  refine ⟨u, hu, (res, v), ⟨trivial, h⟩, ?_⟩
  rw [if_neg hres]
  exact safely_bind.mpr ⟨w, safely_ofOption.mpr hw, safely_ret.mpr rfl⟩

/-- A block that is not empty, as `body` sees it. -/
theorem runs_block_of_first {v : ParserState L C} {k res : Answer} {ks : List Answer}
    (h : Runs P (P.statement .none s) (k, t)) (hk : k = .void ∨ k = .empty ∨ k = .statement)
    (hs : Statements P t ks v) (hmore : Runs P (more t) (.block, v))
    (hks : blockAnswer (k :: ks) = some res) :
    ∃ res', Runs P (block s) (res', v) ∧ res' ≠ .eof ∧
      (if res' = .void ∨ res' = .empty then res' else .body) = res := by
  rcases hk with rfl | rfl | rfl
  · cases ks with
    | nil =>
      cases hs
      exact ⟨.void, runs_block_first h (.inl rfl), by simp, by simpa [blockAnswer] using hks⟩
    | cons => cases hks
  · cases ks with
    | nil =>
      cases hs
      exact ⟨.empty, runs_block_first h (.inr rfl), by simp, by simpa [blockAnswer] using hks⟩
    | cons => cases hks
  · exact ⟨.block, runs_block_more h hmore, by simp, by simpa [blockAnswer] using hks⟩

theorem token_of_expect {c : Char} (h : P.expect c s = some t) : s.token = .char c ∧ P.lex s = some t :=
  Option.ite_none_right_eq_some.mp h

mutual

theorem Statement.runs {flags : ContextFlags} {s t : ParserState L C} {res : Answer} :
    Statement P flags s res t → Runs P (P.statement flags s) (res, t)
  | .body h => runs_statement_body h.runs (by rcases h.answer with rfl | rfl | rfl <;> simp)
  | .empty hs ht => by
    have hs' : (P.wrap flags s).token = .char ';' := by simpa using hs
    refine runs_statement_noBody ⟨by simp [hs], by simp [hs]⟩ (fun h => by cases hs'.symm.trans h.1) ?_
    rw [statement2_empty hs']
    exact safely_bind.mpr ⟨_, safely_ofOption.mpr ht, safely_ret.mpr rfl⟩
  | .rule hbody hleads h => by
    refine runs_statement_noBody hbody (not_loneFor_of_leads hleads) ?_
    rw [statement2_rule hleads]
    exact safely_bind.mpr ⟨_, h.runs, safely_ret.mpr rfl⟩

theorem Body.runs {flags : ContextFlags} {s t : ParserState L C} {res : Answer} :
    Body P flags s res t → Runs P (P.body flags s) (res, t)
  | .braces hat hname hu .nil hks ht => by
    have hbrace := (token_of_expect ht).1
    rw [leaveBody_token] at hbrace
    cases hks
    rw [body_at hat hname]
    exact runs_bracesBody hu (runs_block_brace hbrace) (by simp) ht
  | .braces hat hname hu (.cons h hs) hks ht => by
    have hbrace := (token_of_expect ht).1
    rw [leaveBody_token] at hbrace
    have hmore := hs.runs (runs_more_brace hbrace)
    obtain ⟨res', hblock, heof, rfl⟩ := runs_block_of_first h.runs h.answer hs hmore hks
    rw [body_at hat hname]
    exact runs_bracesBody hu hblock heof ht

theorem Statements.runs {s t : ParserState L C} {ks : List Answer} :
    Statements P s ks t → ∀ {a : Answer × ParserState L C}, Runs P (more t) a → Runs P (more s) a
  | .nil, _, hmore => hmore
  | .cons h hs, _, hmore => runs_more h.runs h.answer (hs.runs hmore)

theorem Reads.runs {t : ParserState L C}
    {x : Prog (Ask L C) (Answer × ParserState L C) (ParserState L C)} :
    Reads P x t → Runs P (x.relabel .ask) t
  | .ret => safely_ret.mpr rfl
  | .statement h hs => safely_call.mpr ⟨trivial, _, h.runs, hs.runs⟩
  | .body h hs => safely_call.mpr ⟨trivial, _, h.runs, hs.runs⟩
  | .nothing h hs => safely_call.mpr ⟨trivial, _, nothing_runs h, hs.runs⟩

end

/-! ## What the parser reads is in the grammar -/

/-- Why the loop of `block` ends. -/
def Stops (res : Answer) (t : ParserState L C) : Prop :=
  res = .eof ∧ AtEnd t ∨ res = .block ∧ ¬AtEnd t ∧ begins t.token = false

/-- What a call that returns has found in the text. -/
def Meets (P : Parser L C) : ParserCall L C → Answer × ParserState L C → Prop
  | .ask (.statement flags s), r => Statement P flags s r.1 r.2 ∨ Nothing P (.statement flags s) r
  | .ask (.body flags s), r => Body P flags s r.1 r.2 ∨ Nothing P (.body flags s) r
  | .statement2 s, r =>
    (AtEnd s ∧ r = (.eof, s)) ∨ (¬AtEnd s ∧ begins s.token = false ∧ r = (.wrong, s)) ∨
      (s.token = .char ';' ∧ P.lex s = some r.2 ∧ r.1 = .void) ∨
      ∃ rule u, leads P s = some (rule, u) ∧ Reads P (P.rest rule u) r.2 ∧ r.1 = .statement
  | .more s, r => ∃ ks, Statements P s ks r.2 ∧ Stops r.1 r.2
  | .block s, r =>
    (s = r.2 ∧ (r.1 = .eof ∧ AtEnd s ∨ r.1 = .void ∧ ¬AtEnd s ∧ begins s.token = false)) ∨
      ((r.1 = .void ∨ r.1 = .empty) ∧ Statement P .none s r.1 r.2) ∨
      ∃ t ks, Statement P .none s .statement t ∧ Statements P t ks r.2 ∧ Stops r.1 r.2

variable {r : Answer × ParserState L C}

/-- What holds of the calls of a run. -/
abbrev Heard (P : Parser L C) (q : ParserCall L C) (r : Answer × ParserState L C) : Prop :=
  Good P q ∧ Meets P q r

theorem reads_of_via {x : Prog (Ask L C) (Answer × ParserState L C) (ParserState L C)}
    (h : x.Via (fun a => Heard P (.ask a)) t) : Reads P x t := by
  induction x with
  | ret u => exact h ▸ .ret
  | fail => exact h.elim
  | call a rest ih =>
    obtain ⟨r, ⟨-, hmeets⟩, hrest⟩ := h
    cases a with
    | statement flags s => exact hmeets.elim (fun h => .statement h (ih r hrest)) fun h => .nothing h (ih r hrest)
    | body flags s => exact hmeets.elim (fun h => .body h (ih r hrest)) fun h => .nothing h (ih r hrest)

theorem via_takes {rule : Rule} (h : (P.takes rule s).Via (Heard P) r) :
    Reads P (P.rest rule s) r.2 ∧ r.1 = .statement := by
  obtain ⟨t, ht, rfl⟩ := via_bind.mp h
  exact ⟨reads_of_via (via_relabel.mp ht), rfl⟩

theorem statement2_meets (hgood : ¬LoneFor P s) (h : (P.statement2 s).Via (Heard P) r) :
    Meets P (.statement2 s) r := by
  rcases statement2_cases P s with hend | hsemi | ⟨rule, u, hleads⟩ | ⟨hend, hbegins⟩ | hfor | hfail
  · rw [statement2_end hend] at h
    exact .inl ⟨hend, h.symm⟩
  · rw [statement2_empty hsemi] at h
    obtain ⟨t, ht, rfl⟩ := via_bind.mp h
    exact .inr (.inr (.inl ⟨hsemi, via_ofOption.mp ht, rfl⟩))
  · rw [statement2_rule hleads] at h
    exact .inr (.inr (.inr ⟨rule, u, hleads, via_takes h⟩))
  · rw [statement2_nothing hend hbegins] at h
    exact .inr (.inl ⟨hend, hbegins, h.symm⟩)
  · exact absurd hfor hgood
  · rw [hfail] at h
    exact h.elim

theorem body_meets (h : (P.body flags s).Via (Heard P) r) : Meets P (.ask (.body flags s)) r := by
  rcases body_cases P flags s with ⟨name, t, hat, hname⟩ | hno | hfail
  · rw [body_at hat hname] at h
    left
    simp only [bracesBody, bind_eq, via_bind, via_ask, via_ofOption] at h
    obtain ⟨u, hu, ⟨res, v⟩, ⟨-, hblock⟩, h⟩ := h
    by_cases heof : res = .eof
    · rw [if_pos heof] at h
      exact h.elim
    rw [if_neg heof] at h
    obtain ⟨w, hw, rfl⟩ := via_bind.mp h
    have hw := via_ofOption.mp hw
    rcases hblock with ⟨rfl, ⟨h, -⟩ | ⟨rfl, -⟩⟩ | ⟨hres, hs⟩ | ⟨t', ks, hs, hks, hstop⟩
    · exact absurd h heof
    · exact .braces hat hname hu .nil rfl hw
    · dsimp only at hres hs ⊢
      rw [if_pos hres]
      refine .braces hat hname hu (.cons hs .nil) ?_ hw
      rcases hres with rfl | rfl <;> rfl
    · obtain ⟨h, -⟩ | ⟨rfl, -⟩ := hstop
      · exact absurd h heof
      · exact .braces hat hname hu (.cons hs hks) rfl hw
  · rw [body_nothing hno] at h
    exact .inr ⟨hno, h.symm⟩
  · rw [hfail] at h
    exact h.elim

theorem statement_meets (h : (P.statement flags s).Via (Heard P) r) :
    Meets P (.ask (.statement flags s)) r := by
  simp only [statement, bind_eq, via_bind, via_ask] at h
  obtain ⟨⟨res, t⟩, ⟨-, hbody | ⟨hno, heq⟩⟩, h⟩ := h
  · left
    have hs := Statement.body hbody
    rcases hbody.answer with hres | hres | hres <;> dsimp only at hres <;> subst hres <;>
      obtain rfl : _ = r := h <;> exact hs
  · cases heq
    simp only [via_bind, via_ask] at h
    obtain ⟨⟨res, t⟩, ⟨-, h2⟩, rfl⟩ := h
    rcases h2 with ⟨hend, heq⟩ | ⟨hend, hbegins, heq⟩ | ⟨hsemi, ht, hres⟩ | ⟨rule, u, hleads, hreads, hres⟩
    · cases heq
      exact .inr ⟨hno, .inl ⟨by simpa [AtEnd] using hend, rfl⟩⟩
    · cases heq
      exact .inr ⟨hno, .inr ⟨by simpa [AtEnd] using hend, by rwa [wrap_token] at hbegins, rfl⟩⟩
    · dsimp only at hres
      subst hres
      exact .inl (.empty (by rwa [wrap_token] at hsemi) ht)
    · dsimp only at hres
      subst hres
      exact .inl (.rule hno hleads hreads)

/-- What a statement without flags is answered: it is there, or the text ends, or no statement begins. -/
theorem statement_none_cases {res : Answer} (h : Meets P (.ask (.statement .none s)) (res, t)) :
    ((res = .void ∨ res = .empty ∨ res = .statement) ∧ Statement P .none s res t) ∨
      (res = .eof ∧ t = s ∧ AtEnd s) ∨
        res = .wrong ∧ t = s ∧ ¬AtEnd s ∧ begins s.token = false := by
  rcases h with h | ⟨-, ⟨hend, heq⟩ | ⟨hend, hbegins, heq⟩⟩
  · exact .inl ⟨h.answer, h⟩
  · cases heq
    exact .inr (.inl ⟨rfl, rfl, hend⟩)
  · cases heq
    exact .inr (.inr ⟨rfl, rfl, hend, hbegins⟩)

theorem more_meets (h : (more s).Via (Heard P) r) : Meets P (.more s) r := by
  simp only [more, bind_eq, via_bind, via_ask] at h
  obtain ⟨⟨res, t⟩, ⟨-, hmeets⟩, h⟩ := h
  rcases statement_none_cases hmeets with ⟨hres, hs⟩ | ⟨rfl, rfl, hend⟩ | ⟨rfl, rfl, hend, hbegins⟩
  · obtain ⟨-, ks, hks, hstop⟩ : Heard P (.more t) r := by
      rcases hres with rfl | rfl | rfl <;> exact via_ask.mp h
    exact ⟨res :: ks, .cons hs hks, hstop⟩
  · obtain rfl : _ = r := h
    exact ⟨[], .nil, .inl ⟨rfl, hend⟩⟩
  · obtain rfl : _ = r := h
    exact ⟨[], .nil, .inr ⟨rfl, hend, hbegins⟩⟩

theorem block_meets (h : (block s).Via (Heard P) r) : Meets P (.block s) r := by
  simp only [block, bind_eq, via_bind, via_ask] at h
  obtain ⟨⟨res, t⟩, ⟨-, hmeets⟩, h⟩ := h
  rcases statement_none_cases hmeets with ⟨rfl | rfl | rfl, hs⟩ | ⟨rfl, rfl, hend⟩ | ⟨rfl, rfl, hend, hbegins⟩
  · obtain rfl : _ = r := h
    exact .inr (.inl ⟨.inl rfl, hs⟩)
  · obtain rfl : _ = r := h
    exact .inr (.inl ⟨.inr rfl, hs⟩)
  · obtain ⟨-, ks, hks, hstop⟩ := via_ask.mp h
    exact .inr (.inr ⟨t, ks, hs, hks, hstop⟩)
  · obtain rfl : _ = r := h
    exact .inl ⟨rfl, .inl ⟨rfl, hend⟩⟩
  · obtain rfl : _ = r := h
    exact .inl ⟨rfl, .inr ⟨rfl, hend, hbegins⟩⟩

/-- **Each call of a good run finds what the grammar says.** -/
theorem code_meets (q : ParserCall L C) (r : Answer × ParserState L C) (hgood : Good P q)
    (h : (P.code q).Via (Heard P) r) : Meets P q r := by
  cases q with
  | ask a =>
    cases a with
    | statement flags s => exact statement_meets h
    | body flags s => exact body_meets h
  | statement2 s => exact statement2_meets hgood h
  | block s => exact block_meets h
  | more s => exact more_meets h

/-! ## Modules -/

/-- Where the statements of the module begin. -/
def start (P : Parser L C) (s : ParserState L C) : Option (ParserState L C) :=
  (P.declaration s).bind fun s => P.relex { s with context := P.init s.context }

/-- The text from `s` to `t`, behind the declaration of the module, is statements up to its end. -/
def Consumed (P : Parser L C) (s t : ParserState L C) : Prop :=
  ∃ u ks, start P s = some u ∧ Statements P u ks t ∧ AtEnd t

/-- The text is without what the loops do not expect. -/
structure Regular (P : Parser L C) (s : ParserState L C) : Prop where
  /-- No `for` is without an expression, wherever a statement is looked for. -/
  loneFor : ∀ t, Visits P.code (P.compile2 s) (.statement2 t) → ¬LoneFor P t
  /-- An empty statement is not the first, unless it is the only one. -/
  first : ∀ u k t, start P s = some u → Statement P .none u k t → k ≠ .statement → AtEnd t
  /-- Between the statements of the module, there is nothing else. -/
  next : ∀ u ks t, start P s = some u → Statements P u ks t → AtEnd t ∨ begins t.token = true

theorem compile2_eq :
    P.compile2 s = (ofOption (start P s)).bind fun u => (ask (.block u)).bind fun r =>
      if r.1 = .wrong then .fail else if P.finished r.2.context then .ret r.2 else .fail := by
  unfold compile2 start
  cases P.declaration s <;> rfl

/-- A run of `compile2` is a run of `block`, from the first statement on. -/
theorem compile2_runs {Good : ParserCall L C → Prop} :
    Safely P.code Good (P.compile2 s) t ↔
      ∃ u res, start P s = some u ∧ Good (.block u) ∧ Safely P.code Good (block u) (res, t) ∧
        res ≠ .wrong ∧ P.finished t.context = true := by
  simp only [compile2_eq, safely_bind, safely_ofOption, safely_ask]
  constructor
  · rintro ⟨u, hu, ⟨res, v⟩, ⟨hgood, hblock⟩, h⟩
    split at h
    · exact (safely_fail h).elim
    · split at h
      · obtain rfl := safely_ret.mp h
        exact ⟨u, res, hu, hgood, hblock, by assumption, by assumption⟩
      · exact (safely_fail h).elim
  · rintro ⟨u, res, hu, hgood, hblock, hres, hfin⟩
    refine ⟨u, hu, (res, t), ⟨hgood, hblock⟩, ?_⟩
    rw [if_neg hres, if_pos hfin]
    exact safely_ret.mpr rfl

theorem leads_begins {rule : Rule} (h : leads P s = some (rule, u)) : begins s.token = true := by
  unfold leads at h
  split at h
  case h_18 => cases h
  case h_19 =>
    split at h
    case isTrue hexp => simp [begins, hexp]
    case isFalse => cases h
  all_goals simp_all [begins, leadIn, Token.startsExpression]

theorem Statement.begins {k : Answer} (h : Statement P flags s k t) : begins s.token = true := by
  cases h with
  | body h =>
    obtain ⟨⟨hs, -⟩ | ⟨hs, -⟩⟩ := h
    · simp [Parser.begins, hs, Token.startsExpression]
    · simp [Parser.begins, hs, Token.startsExpression]
  | empty hs => simp [Parser.begins, hs]
  | rule _ hleads => simpa using leads_begins hleads

theorem not_begins_of_end (h : AtEnd s) : begins s.token = false := by
  rcases h with h | h <;> rw [h] <;> rfl

theorem Statement.unique {k k' : Answer} (h : Statement P flags s k t) (h' : Statement P flags s k' u) :
    k = k' ∧ t = u :=
  Prod.mk.inj (h.runs.unique h'.runs.1)

/-- What begins the statements up to the end, leaves the others. -/
theorem Statements.rest {s t u : ParserState L C} {ks ks' : List Answer} :
    Statements P s ks t → Statements P s ks' u → AtEnd u → ∃ ks'', Statements P t ks'' u
  | .nil, h, _ => ⟨ks', h⟩
  | .cons h _, .nil, hend => by cases h.begins.symm.trans (not_begins_of_end hend)
  | .cons h hs, .cons h' hs', hend => by
    obtain ⟨rfl, rfl⟩ := h.unique h'
    exact hs.rest hs' hend

/-- Nothing of a statement is at the end. -/
theorem nothing_end (h : AtEnd s) : Nothing P (.statement .none s) (.eof, s) := by
  refine ⟨?_, .inl ⟨h, rfl⟩⟩
  rcases h with h | h <;> exact ⟨by simp [h], by simp [h]⟩

theorem runs_more_end (h : AtEnd s) : Runs P (more s) (.eof, s) := by
  simp only [more, bind_eq, safely_bind, safely_ask]
  exact ⟨(.eof, s), ⟨trivial, nothing_runs (nothing_end h)⟩, safely_ret.mpr rfl⟩

theorem runs_block_end (h : AtEnd s) : Runs P (block s) (.eof, s) := by
  simp only [block, bind_eq, safely_bind, safely_ask]
  exact ⟨(.eof, s), ⟨trivial, nothing_runs (nothing_end h)⟩, safely_ret.mpr rfl⟩

/-- Over statements up to the end, `block` comes by no `for` without an expression. -/
theorem Statements.runs_block {ks : List Answer} (hks : Statements P s ks t) (hend : AtEnd t) :
    ∃ r, Runs P (block s) r := by
  cases hks with
  | nil => exact ⟨_, runs_block_end hend⟩
  | cons h hs =>
    rcases h.answer with rfl | rfl | rfl
    · exact ⟨_, runs_block_first h.runs (.inl rfl)⟩
    · exact ⟨_, runs_block_first h.runs (.inr rfl)⟩
    · exact ⟨_, runs_block_more h.runs (hs.runs (runs_more_end hend))⟩

/-- Where the text is consumed, `block` did not stop early, and came by nothing that it does not expect. -/
theorem Consumed.regular {res : Answer} (hc : Consumed P s t) (hu : start P s = some u)
    (hblock : Returns P.code (block u) (res, t)) (hres : res ≠ .wrong) (hfin : P.finished t.context = true) :
    Regular P s := by
  obtain ⟨u', ks, hu', hks, hend⟩ := hc
  obtain rfl := Option.some.inj (hu.symm.trans hu')
  obtain ⟨r, hr⟩ := hks.runs_block hend
  obtain rfl := hr.unique hblock
  refine ⟨fun v hv => ?_, fun u' k v hu' hs hk => ?_, fun u' ks' v hu' hs => ?_⟩
  · exact (compile2_runs.mpr ⟨u, res, hu, trivial, hr, hres, hfin⟩).2 _ hv
  · obtain rfl := Option.some.inj (hu.symm.trans hu')
    have hk' : k = .void ∨ k = .empty := by
      rcases hs.answer with hk' | hk' | hk'
      · exact .inl hk'
      · exact .inr hk'
      · exact absurd hk' hk
    cases (runs_block_first hs.runs hk').unique hblock
    exact hend
  · obtain rfl := Option.some.inj (hu.symm.trans hu')
    obtain ⟨ks'', h⟩ := hs.rest hks hend
    cases h with
    | nil => exact .inl hend
    | cons h => exact .inr h.begins

/-- What `block` finds in a regular text are statements up to its end. -/
theorem Regular.consumed {res : Answer} (hreg : Regular P s) (hu : start P s = some u)
    (hmeets : Meets P (.block u) (res, t)) : Consumed P s t := by
  have hnext : ∀ {ks : List Answer}, Statements P u ks t → ¬AtEnd t → begins t.token = false → False := by
    intro ks hks hend hbegins
    rcases hreg.next u ks t hu hks with h | h
    · exact hend h
    · cases hbegins.symm.trans h
  rcases hmeets with ⟨rfl, ⟨-, hend⟩ | ⟨-, hend, hbegins⟩⟩ | ⟨hk, hs⟩ | ⟨v, ks, hs, hks, hstop⟩
  · exact ⟨_, [], hu, .nil, hend⟩
  · exact (hnext .nil hend hbegins).elim
  · refine ⟨u, [res], hu, .cons hs .nil, hreg.first u res t hu hs ?_⟩
    rintro rfl
    rcases hk with hk | hk <;> cases hk
  · rcases hstop with ⟨-, hend⟩ | ⟨-, hend, hbegins⟩
    · exact ⟨u, _, hu, .cons hs hks, hend⟩
    · exact (hnext (.cons hs hks) hend hbegins).elim

/-- **A text that compiles is consumed just when it is regular.** -/
theorem compile2_consumed_iff (h : Returns P.code (P.compile2 s) t) : Consumed P s t ↔ Regular P s := by
  constructor
  · intro hc
    obtain ⟨u, res, hu, -, hblock, hres, hfin⟩ := compile2_runs.mp (returns_iff_safely.mp h)
    exact hc.regular hu hblock.1 hres hfin
  · intro hreg
    have hgood : ∀ q, Visits P.code (P.compile2 s) q → Good P q := by
      intro q hq
      cases q with
      | statement2 v => exact hreg.loneFor v hq
      | _ => trivial
    obtain ⟨u, res, hu, -, hrun, -, -⟩ := compile2_runs.mp ⟨h, hgood⟩
    exact hreg.consumed hu (block_meets (hrun.via code_meets))

/-! ## Texts of tokens -/

/-- The parser of a text that is its tokens already, where each rule reads up to the next semicolon. -/
def plain : Parser (List Token) Unit where
  lexed l _ := some (l.tail.headD .eof, l.tail)
  lexedDotted l _ := some (l.tail.headD .eof, l.tail)
  relexed l _ := some (l.headD .eof, l)
  pushBody _ _ _ := ()
  pushBlock _ _ := ()
  leave _ := ()
  pop _ := ()
  named _ _ := some ()
  init _ := ()
  finished _ := true
  rest _ s :=
    let l := (s.lexer.dropWhile (· ≠ .char ';')).tail
    .ret ⟨l.headD .eof, l, ()⟩

def textState (l : List Token) : ParserState (List Token) Unit := ⟨l.headD .eof, l, ()⟩

theorem compile2_consumed_iff_assign :
    Consumed plain (textState [.name, .char '=', .inum, .char ';', .name, .char ';']) (textState []) ↔
      Regular plain (textState [.name, .char '=', .inum, .char ';', .name, .char ';']) :=
  compile2_consumed_iff (returns_of_eval_meaning (n := 6) rfl)

/-- `{} print("x");` compiles, and nothing behind the braces is parsed. -/
theorem not_consumed_behind_braces :
    ¬∀ t, Returns plain.code
        (plain.compile2 (textState [.char '{', .char '}', .symFunction, .char '(', .string, .char ')',
          .char ';'])) t →
      Consumed plain (textState [.char '{', .char '}', .symFunction, .char '(', .string, .char ')',
        .char ';']) t := by
  intro h
  obtain ⟨u, ks, -, -, hend⟩ :=
    h (textState [.symFunction, .char '(', .string, .char ')', .char ';'])
      (returns_of_eval_meaning (n := 6) rfl)
  rcases hend with hend | hend <;> cases hend

end Eel.Parser
