-- SUMMARY: Comparison and equality of strings and dynamic strings: the order, and when equality agrees with it.
import Eel.Core.OperatorResults
import Eel.Core.StringIn
import Eel.Core.StringPoolRun
import Mathlib.Data.List.Shortlex

/-!
# Comparing strings

Strings and dynamic strings are compared by their lengths first. Both classes take
operands of either one.
-/

namespace Eel

/-- `eel_s_cmp`, of blocks of the same length. -/
def sCmp : List Byte → List Byte → BitVec 32
  | a :: as, b :: bs =>
    if a ≠ b then
      if b.toNat < a.toNat then 1 else -1
    else sCmp as bs
  | _, _ => 0

/-- What `s_compare` and `ds_compare` do with two buffers. -/
def compareBuffers (buffer s2buf : List Byte) : BitVec 32 :=
  if buffer.length > s2buf.length then 1
  else if buffer.length < s2buf.length then -1
  else sCmp buffer s2buf

section Metamethods

variable (text : ObjId → Option Text) (eo : ObjId)

/-- `s_compare`. -/
def sCompare (buffer : List Byte) (op1 : Value) : Except Xno Value :=
  match op1.obj? with
  | none => .error Xno.wrongType
  | some o =>
    match text o with
    | some (.string s2buf) => .ok (.integer (if o = eo then 0 else compareBuffers buffer s2buf))
    | some (.dstring s2buf) => .ok (.integer (compareBuffers buffer s2buf))
    | none => .error Xno.notImplemented

/-- `ds_compare`. -/
def dsCompare (buffer : List Byte) (op1 : Value) : Except Xno Value :=
  match op1.obj? with
  | none => .error Xno.wrongType
  | some o =>
    match text o with
    | some (.string s2buf) => .ok (.integer (compareBuffers buffer s2buf))
    | some (.dstring s2buf) => .ok (.integer (if o = eo then 0 else compareBuffers buffer s2buf))
    | none => .error Xno.notImplemented

/-- Whether a comparison has come to 0. -/
def isZero : Except Xno Value → Bool
  | .ok (.integer v) => v = 0
  | _ => false

/-- `s_eq`. -/
def sEq (buffer : List Byte) (op1 : Value) : Except Xno Value :=
  match op1.obj? with
  | none => .ok (.truth false)
  | some o =>
    match text o with
    | some (.string _) => .ok (.truth (eo = o))
    | some (.dstring _) => .ok (.truth (isZero (sCompare text eo buffer op1)))
    | none => .ok (.truth false)

/-- `ds_eq`. -/
def dsEq (buffer : List Byte) (op1 : Value) : Except Xno Value :=
  match op1.obj? with
  | none => .ok (.truth false)
  | some o =>
    match text o with
    | some (.dstring _) => .ok (.truth (eo = o))
    | some (.string _) => .ok (.truth (isZero (dsCompare text eo buffer op1)))
    | none => .ok (.truth false)

end Metamethods

/-- The strings of a pool, and the dynamic strings. -/
structure Texts where
  pool : StringPool
  dstring : ObjId → Option (List Byte)

namespace Texts

variable (T : Texts)

def text (o : ObjId) : Option Text :=
  match T.pool.object o with
  | some ps => some (.string ps.bytes)
  | none => (T.dstring o).map .dstring

/-- `EEL_MM_COMPARE` of the object's class. -/
def compare (o : ObjId) (op1 : Value) : Except Xno Value :=
  match T.text o with
  | some (.string buffer) => sCompare T.text o buffer op1
  | some (.dstring buffer) => dsCompare T.text o buffer op1
  | none => .error Xno.notImplemented

/-- `EEL_MM_EQ` of the object's class. -/
def eq (o : ObjId) (op1 : Value) : Except Xno Value :=
  match T.text o with
  | some (.string buffer) => sEq T.text o buffer op1
  | some (.dstring buffer) => dsEq T.text o buffer op1
  | none => .error Xno.notImplemented

/-- The classes of strings and dynamic strings, as the operators see them. -/
def classes (R : Reals) : Classes Unit where
  real := R
  metamethod o mm right w :=
    let result :=
      match mm with
      | .compare => T.compare o right
      | .eq => T.eq o right
      | _ => .error Xno.notImplemented
    match result with
    | .ok v => .ok (v, w)
    | .error x => .error (.thrown x w)
  cast _ _ w := .error (.thrown Xno.notImplemented w)
  length _ w := .error (.thrown Xno.notImplemented w)
  classOf _ := 0

end Texts

/-! ## The order -/

/-- Shorter strings come first, and those of one length by their bytes. -/
def Before : List Byte → List Byte → Prop := List.Shortlex (· < ·)

section Order

variable {a b c : List Byte}

theorem Before.trans (hab : Before a b) (hbc : Before b c) : Before a c := by
  unfold Before at *
  rw [List.shortlex_def] at *
  rcases hab with hab | ⟨hab, hlex⟩ <;> rcases hbc with hbc | ⟨hbc, hlex'⟩
  · exact .inl (hab.trans hbc)
  · exact .inl (hbc ▸ hab)
  · exact .inl (hab ▸ hbc)
  · exact .inr ⟨hab.trans hbc, List.lex_trans (fun h h' => Nat.lt_trans h h') hlex hlex'⟩

theorem Before.irrefl (a : List Byte) : ¬ Before a a := by
  have hbyte : ∀ x : Byte, ¬ x < x := fun x => Nat.lt_irrefl x.toNat
  unfold Before
  rw [List.shortlex_def]
  rintro (h | ⟨-, h⟩)
  · exact Nat.lt_irrefl _ h
  · exact List.lex_irrefl hbyte a h

/-- Of two blocks of the same length, the first different byte decides. -/
theorem sCmp_spec (h : a.length = b.length) :
    a = b ∧ sCmp a b = 0 ∨ List.Lex (· < ·) a b ∧ sCmp a b = -1 ∨ List.Lex (· < ·) b a ∧ sCmp a b = 1 := by
  fun_induction sCmp a b with
  | case1 x as y bs hne hlt => exact .inr (.inr ⟨.rel hlt, rfl⟩)
  | case2 x as y bs hne hle =>
    have hlt : x.toNat < y.toNat := lt_of_le_of_ne (Nat.not_lt.mp hle) fun heq => hne (BitVec.eq_of_toNat_eq heq)
    exact .inr (.inl ⟨.rel hlt, rfl⟩)
  | case3 x as y bs heq ih =>
    obtain rfl := not_not.mp heq
    rcases ih (Nat.succ.inj h) with ⟨rfl, hzero⟩ | ⟨hlex, hminus⟩ | ⟨hlex, hone⟩
    · exact .inl ⟨rfl, hzero⟩
    · exact .inr (.inl ⟨.cons hlex, hminus⟩)
    · exact .inr (.inr ⟨.cons hlex, hone⟩)
  | case4 as bs hnot =>
    cases as with
    | nil => exact .inl ⟨(List.eq_nil_of_length_eq_zero h.symm).symm, rfl⟩
    | cons x as =>
      cases bs with
      | nil => cases h
      | cons y bs => exact absurd rfl (hnot x as y bs rfl)

/-- The comparison is that of the order. -/
theorem compareBuffers_spec (a b : List Byte) :
    a = b ∧ compareBuffers a b = 0 ∨ Before a b ∧ compareBuffers a b = -1 ∨ Before b a ∧ compareBuffers a b = 1 := by
  unfold compareBuffers
  rcases lt_trichotomy a.length b.length with hlt | heq | hgt
  · rw [if_neg (Nat.lt_asymm hlt), if_pos hlt]
    exact .inr (.inl ⟨.of_length_lt hlt, rfl⟩)
  · rw [if_neg (Nat.not_lt.mpr heq.le), if_neg (Nat.not_lt.mpr heq.ge)]
    rcases sCmp_spec heq with hcase | ⟨hlex, hminus⟩ | ⟨hlex, hone⟩
    · exact .inl hcase
    · exact .inr (.inl ⟨.of_lex heq hlex, hminus⟩)
    · exact .inr (.inr ⟨.of_lex heq.symm hlex, hone⟩)
  · rw [if_pos hgt]
    exact .inr (.inr ⟨.of_length_lt hgt, rfl⟩)

/-- The sign of a comparison. -/
def sign (a b : List Byte) : Int := (compareBuffers a b).toInt

theorem sign_spec (a b : List Byte) :
    a = b ∧ sign a b = 0 ∨ Before a b ∧ sign a b = -1 ∨ Before b a ∧ sign a b = 1 := by
  unfold sign
  rcases compareBuffers_spec a b with ⟨h, heq⟩ | ⟨h, heq⟩ | ⟨h, heq⟩ <;> rw [heq]
  · exact .inl ⟨h, rfl⟩
  · exact .inr (.inl ⟨h, rfl⟩)
  · exact .inr (.inr ⟨h, rfl⟩)

theorem sign_eq_zero : sign a b = 0 ↔ a = b := by
  rcases sign_spec a b with ⟨h, heq⟩ | ⟨h, heq⟩ | ⟨h, heq⟩
  · exact iff_of_true heq h
  · refine iff_of_false (by rw [heq]; decide) ?_
    rintro rfl
    exact Before.irrefl a h
  · refine iff_of_false (by rw [heq]; decide) ?_
    rintro rfl
    exact Before.irrefl a h

theorem sign_le_zero : sign a b ≤ 0 ↔ a = b ∨ Before a b := by
  rcases sign_spec a b with ⟨h, heq⟩ | ⟨h, heq⟩ | ⟨h, heq⟩
  · exact iff_of_true heq.le (.inl h)
  · exact iff_of_true (by rw [heq]; decide) (.inr h)
  · refine iff_of_false (by rw [heq]; decide) ?_
    rintro (rfl | h')
    · exact Before.irrefl a h
    · exact Before.irrefl a (h'.trans h)

/-- The comparison is antisymmetric. -/
theorem sign_swap (a b : List Byte) : sign b a = -sign a b := by
  rcases sign_spec a b with ⟨rfl, heq⟩ | ⟨h, heq⟩ | ⟨h, heq⟩
  · rw [heq]
    rfl
  · rcases sign_spec b a with ⟨rfl, -⟩ | ⟨h', -⟩ | ⟨-, heq'⟩
    · exact absurd h (Before.irrefl b)
    · exact absurd (h.trans h') (Before.irrefl a)
    · rw [heq, heq']
      rfl
  · rcases sign_spec b a with ⟨rfl, -⟩ | ⟨-, heq'⟩ | ⟨h', -⟩
    · exact absurd h (Before.irrefl b)
    · rw [heq, heq']
    · exact absurd (h.trans h') (Before.irrefl b)

theorem sign_trans (hab : sign a b ≤ 0) (hbc : sign b c ≤ 0) : sign a c ≤ 0 := by
  rw [sign_le_zero] at *
  rcases hab with rfl | hab
  · exact hbc
  · rcases hbc with rfl | hbc
    · exact .inr hab
    · exact .inr (hab.trans hbc)

end Order

/-! ## The metamethods -/

namespace Texts

variable {T : Texts} {R : Reals} {a b c : Value} {s t u : Text} {o o' : ObjId}

/-- The characters a value refers to. -/
def textOf (T : Texts) (v : Value) : Option Text := v.obj?.bind T.text

/-- `EEL_MM_COMPARE`, of the object that a value refers to. -/
def answer (T : Texts) (a b : Value) : Option Int :=
  match a.obj?.map fun o => T.compare o b with
  | some (.ok (.integer v)) => some v.toInt
  | _ => none

/-- `a == b`. -/
def isEq (T : Texts) (R : Reals) (a b : Value) : Except (Stop Unit) (Written × Unit) :=
  (T.classes R).operators.opEq a b ()

theorem textOf_eq_some : T.textOf a = some s ↔ ∃ o, a.obj? = some o ∧ T.text o = some s := Option.bind_eq_some_iff

theorem compareBuffers_self (s : List Byte) : compareBuffers s s = 0 := by
  rcases compareBuffers_spec s s with ⟨-, h⟩ | ⟨h, -⟩ | ⟨h, -⟩
  · exact h
  · exact absurd h (Before.irrefl s)
  · exact absurd h (Before.irrefl s)

/-- Whatever the classes, and whether or not it is one object, comparison is that of the characters. -/
theorem compare_eq (ho : T.text o = some s) (hb : b.obj? = some o') (ho' : T.text o' = some t) :
    T.compare o b = .ok (.integer (compareBuffers s.buffer t.buffer)) := by
  -- the shortcut for one instance
  have hsame : (if o' = o then 0 else compareBuffers s.buffer t.buffer) = compareBuffers s.buffer t.buffer := by
    split
    · rename_i heq
      rw [heq, ho] at ho'
      obtain rfl := Option.some.inj ho'
      exact (compareBuffers_self _).symm
    · rfl
  unfold compare
  rw [ho]
  cases s with
  | string buffer =>
    dsimp only
    unfold sCompare
    rw [hb]
    dsimp only
    rw [ho']
    cases t with
    | string buffer2 => exact congrArg (fun v => Except.ok (Value.integer v)) hsame
    | dstring buffer2 => rfl
  | dstring buffer =>
    dsimp only
    unfold dsCompare
    rw [hb]
    dsimp only
    rw [ho']
    cases t with
    | string buffer2 => rfl
    | dstring buffer2 => exact congrArg (fun v => Except.ok (Value.integer v)) hsame

theorem answer_eq (ha : T.textOf a = some s) (hb : T.textOf b = some t) :
    T.answer a b = some (sign s.buffer t.buffer) := by
  obtain ⟨o, ho, hs⟩ := textOf_eq_some.mp ha
  obtain ⟨o', ho', ht⟩ := textOf_eq_some.mp hb
  unfold answer
  rw [ho, Option.map_some, compare_eq hs ho' ht]
  rfl

/-- Both are dynamic strings. -/
def bothDynamic : Text → Text → Bool
  | .dstring _, .dstring _ => true
  | _, _ => false

theorem text_string {buffer : List Byte} (h : T.text o = some (.string buffer)) :
    ∃ ps, T.pool.object o = some ps ∧ ps.bytes = buffer := by
  unfold text at h
  cases hps : T.pool.object o with
  | some ps =>
    rw [hps] at h
    exact ⟨ps, rfl, Text.string.inj (Option.some.inj h)⟩
  | none =>
    rw [hps] at h
    obtain ⟨_, -, h⟩ := Option.map_eq_some_iff.mp h
    cases h

/-- Strings with the same characters are one object. -/
theorem string_eq_iff (hT : T.pool.Inv) {buffer buffer2 : List Byte} (ho : T.text o = some (.string buffer))
    (ho' : T.text o' = some (.string buffer2)) : o = o' ↔ buffer = buffer2 := by
  obtain ⟨ps, hps, rfl⟩ := text_string ho
  obtain ⟨ps', hps', rfl⟩ := text_string ho'
  exact hT.eq_iff_bytes hps hps'

/-- Equality is that of the characters, but of two dynamic strings only if they are one object. -/
theorem eq_eq (hT : T.pool.Inv) (ho : T.text o = some s) (hb : b.obj? = some o') (ho' : T.text o' = some t) :
    T.eq o b = .ok (.truth (s.buffer = t.buffer ∧ (bothDynamic s t → o = o'))) := by
  have hzero : isZero (.ok (.integer (compareBuffers s.buffer t.buffer))) = decide (s.buffer = t.buffer) := by
    refine decide_eq_decide.mpr ?_
    rw [← sign_eq_zero, sign]
    exact ⟨fun h => by rw [h]; rfl, fun h => BitVec.eq_of_toInt_eq h⟩
  have hplain (h : bothDynamic s t = false) :
      decide (s.buffer = t.buffer) = decide (s.buffer = t.buffer ∧ (bothDynamic s t → o = o')) := by
    rw [h]
    exact decide_eq_decide.mpr (and_iff_left nofun).symm
  have hcompare := compare_eq ho hb ho'
  unfold eq
  unfold compare at hcompare
  rw [ho] at hcompare ⊢
  cases s with
  | string buffer =>
    unfold sEq
    rw [hb]
    dsimp only at hcompare ⊢
    rw [ho']
    cases t with
    | string buffer2 =>
      rw [← hplain rfl]
      exact congrArg (fun p => Except.ok (Value.truth p)) (decide_eq_decide.mpr (string_eq_iff hT ho ho'))
    | dstring buffer2 =>
      rw [← hplain rfl, hcompare]
      exact congrArg (fun p => Except.ok (Value.truth p)) hzero
  | dstring buffer =>
    unfold dsEq
    rw [hb]
    dsimp only at hcompare ⊢
    rw [ho']
    cases t with
    | string buffer2 =>
      rw [← hplain rfl, hcompare]
      exact congrArg (fun p => Except.ok (Value.truth p)) hzero
    | dstring buffer2 =>
      refine congrArg (fun p => Except.ok (Value.truth p)) (decide_eq_decide.mpr ?_)
      refine ⟨?_, fun h => h.2 rfl⟩
      rintro rfl
      rw [ho] at ho'
      exact ⟨Text.dstring.inj (Option.some.inj ho'), fun _ => rfl⟩

/-- `==` on objects is the metamethod. -/
theorem isEq_eq (ha : a.obj? = some o) (hb : b.obj? = some o') :
    T.isEq R a b = (match T.eq o b with
      | .ok v => .ok (.value v, ())
      | .error x => .error (.thrown x ())) := by
  have hcases : operands a b = none := by
    unfold operands mk2types
    refine if_neg (Nat.not_lt.mpr ?_)
    have hcls : 5 ≤ a.cls := by
      cases a with
      | objref => exact Nat.le_refl 5
      | weakref => exact Nat.le_succ 5
      | _ => cases ha
    omega
  unfold isEq Meta.opEq Meta.fallback
  rw [hcases, ha, hb]
  show (Op.method ((T.classes R).objectOp false a .eq b)) () = _
  unfold Op.method Classes.objectOp classes
  rw [ha]
  cases h : T.eq o b with
  | ok v =>
    simp only [Classes.unlessInplace, Option.getD_some, h]
    rfl
  | error x =>
    simp only [Classes.unlessInplace, Option.getD_some, h]
    rfl

/-! ## One order -/

/-- What comparison and equality are to be for three values: signs that only the characters decide,
which are antisymmetric and transitive, and 0 for equal characters alone; and equality is that. -/
structure OneOrder (T : Texts) (R : Reals) (sign : List Byte → List Byte → Int) (a b c : Value) (s t u : Text) :
    Prop where
  contents : T.answer a b = some (sign s.buffer t.buffer) ∧ T.answer b c = some (sign t.buffer u.buffer) ∧
    T.answer a c = some (sign s.buffer u.buffer)
  antisymm : T.answer b a = some (-sign s.buffer t.buffer)
  trans : sign s.buffer t.buffer ≤ 0 → sign t.buffer u.buffer ≤ 0 → sign s.buffer u.buffer ≤ 0
  zero : sign s.buffer t.buffer = 0 ↔ s.buffer = t.buffer
  eq : T.isEq R a b = .ok (.value (.truth (sign s.buffer t.buffer = 0)), ())

/-- Two dynamic strings with the same characters. -/
def TwinsOf (a b : Value) (s t : Text) : Prop := bothDynamic s t = true ∧ s.buffer = t.buffer ∧ a.obj? ≠ b.obj?

/-- In every state of the pool, comparison is one order, and equality agrees with it unless two dynamic
strings are equal. -/
theorem exists_oneOrder_iff (R : Reals) :
    ∃ sign, ∀ (ops : List StringPool.Op) (dstring : ObjId → Option (List Byte)) (a b c : Value) (s t u : Text),
      let T : Texts := ⟨(Machine.run StringPool.step StringPool.open ops).2, dstring⟩
      T.textOf a = some s → T.textOf b = some t → T.textOf c = some u →
        (OneOrder T R sign a b c s t u ↔ ¬ TwinsOf a b s t) := by
  refine ⟨Eel.sign, ?_⟩
  intro ops dstring a b c s t u T ha hb hc
  obtain ⟨o, ho, hs⟩ := textOf_eq_some.mp ha
  obtain ⟨o', ho', ht⟩ := textOf_eq_some.mp hb
  have heq := isEq_eq (T := T) (R := R) ho ho'
  rw [eq_eq (StringPool.Inv.run ops) hs ho' ht] at heq
  have hagree : T.isEq R a b = .ok (.value (.truth (Eel.sign s.buffer t.buffer = 0)), ()) ↔ ¬ TwinsOf a b s t := by
    rw [heq]
    unfold TwinsOf
    rw [ho, ho', Ne, Option.some.injEq]
    constructor
    · rintro h ⟨hdyn, hsame, hne⟩
      have h := decide_eq_decide.mp (Value.truth_inj.mp (Written.value.inj (Prod.mk.inj (Except.ok.inj h)).1))
      exact hne ((h.mpr (sign_eq_zero.mpr hsame)).2 hdyn)
    · intro h
      refine congrArg (fun p => Except.ok (Written.value (Value.truth p), ())) (decide_eq_decide.mpr ?_)
      rw [sign_eq_zero]
      exact and_iff_left_of_imp fun hsame hdyn => not_not.mp fun hne => h ⟨hdyn, hsame, hne⟩
  constructor
  · intro h
    exact hagree.mp h.eq
  · intro h
    exact
      { contents := ⟨answer_eq ha hb, answer_eq hb hc, answer_eq ha hc⟩
        antisymm := (answer_eq hb ha).trans (congrArg some (sign_swap _ _))
        trans := sign_trans
        zero := sign_eq_zero
        eq := hagree.mpr h }

/-- Two dynamic strings that are empty. -/
def emptyTwins : Texts where
  pool := StringPool.open
  dstring _ := some []

/-- A dynamic string, compared to itself. -/
theorem exists_oneOrder_self :
    ∃ sign, OneOrder emptyTwins Classes.bare.real sign (.objref 0) (.objref 0) (.objref 1) (.dstring []) (.dstring [])
      (.dstring []) := by
  obtain ⟨sign, h⟩ := exists_oneOrder_iff Classes.bare.real
  exact ⟨sign, (h [] (fun _ => some []) (.objref 0) (.objref 0) (.objref 1) _ _ _ rfl rfl rfl).mpr fun h => h.2.2 rfl⟩

/-- Two that are equal by comparison, and not by equality. -/
theorem not_oneOrder_twins :
    emptyTwins.answer (.objref 0) (.objref 1) = some 0 ∧
      emptyTwins.isEq Classes.bare.real (.objref 0) (.objref 1) = .ok (.value (.boolean 0), ()) ∧
      ¬ ∃ sign, OneOrder emptyTwins Classes.bare.real sign (.objref 0) (.objref 1) (.objref 1) (.dstring [])
        (.dstring []) (.dstring []) := by
  refine ⟨rfl, rfl, ?_⟩
  rintro ⟨sign, h⟩
  have heq := h.eq
  rw [decide_eq_true (h.zero.mpr rfl)] at heq
  exact absurd heq (by decide)

end Texts

end Eel
