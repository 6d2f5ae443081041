-- SUMMARY: Numeric literals as text, and what the scanner of numbers makes of a text.
import Eel.Compiler.LiteralText
import Eel.Compiler.NumberScan
import Mathlib.Data.Nat.Digits.Lemmas
import Mathlib.Tactic.NormNum

/-!
# Numerals

A numeral is read greedily: a letter that is a figure of the base is a figure, and a base letter or an
exponent marker that is there has to be followed by what belongs to it.
-/

namespace Eel

/-- A character that is a figure of a base. -/
def IsDigit (base : Nat) (c : Byte) : Prop := Lexer.IsFigure base c

instance (base : Nat) (c : Byte) : Decidable (IsDigit base c) := inferInstanceAs (Decidable (_ ∧ _))

def figure (c : Byte) : Nat := (Lexer.figureValue c.toNat).toNat

/-- The number that figures denote, the most significant one first. -/
def valueOf (base : Nat) (ds : List Byte) : Nat := Nat.ofDigits base (ds.reverse.map figure)

/-- No figures go on. -/
def Stops (base : Nat) (t : List Byte) : Prop := ∀ c ∈ t.head?, ¬ IsDigit base c

/-- Figures, as many as there are. -/
structure FiguresRead (base : Nat) (ds t rest : List Byte) : Prop where
  text : t = ds ++ rest
  figures : ∀ c ∈ ds, IsDigit base c
  stops : Stops base rest

/-- An exponent marker, a sign that may be missing, and figures. -/
structure Exponent where
  marker : Byte
  sign : List Byte
  digits : List Byte

def Exponent.text (e : Exponent) : List Byte := e.marker :: e.sign ++ e.digits

def Exponent.value (base : Nat) (e : Exponent) : Int :=
  if e.sign = [45] then -(valueOf base e.digits : Int) else valueOf base e.digits

/-- What follows the base prefix of a numeral. -/
structure NumParts where
  int : List Byte
  /-- The figures behind the dot. -/
  frac : Option (List Byte)
  exp : Option Exponent

namespace NumParts

def fracText (p : NumParts) : List Byte :=
  match p.frac with
  | some ds => 46 :: ds
  | none => []

def expText (p : NumParts) : List Byte :=
  match p.exp with
  | some e => e.text
  | none => []

def text (p : NumParts) : List Byte := p.int ++ p.fracText ++ p.expText

def expValue (base : Nat) (p : NumParts) : Int :=
  match p.exp with
  | some e => e.value base
  | none => 0

def value (base : Nat) (p : NumParts) : ℚ :=
  (valueOf base p.int + valueOf base (p.frac.getD []) / base ^ (p.frac.getD []).length) * (base : ℚ) ^ p.expValue base

/-- There are figures. -/
def HasFigures (p : NumParts) : Prop := p.int ≠ [] ∨ p.frac.getD [] ≠ []

end NumParts

/-- A fraction, if there is a dot. -/
def FractionRead (base : Nat) (frac : Option (List Byte)) (t rest : List Byte) : Prop :=
  match frac with
  | some ds => ∃ t', t = 46 :: t' ∧ FiguresRead base ds t' rest
  | none => t = rest ∧ ∀ c ∈ rest.head?, c ≠ 46

/-- An exponent, if there is a marker. -/
def ExponentRead (base : Nat) (exp : Option Exponent) (t rest : List Byte) : Prop :=
  match exp with
  | some e => Lexer.isMarker e.marker.toNat ∧ (e.sign = [] ∨ e.sign = [43] ∨ e.sign = [45]) ∧ e.digits ≠ [] ∧
      ∃ t', t = e.marker :: e.sign ++ t' ∧ FiguresRead base e.digits t' rest
  | none => t = rest ∧ ∀ c ∈ rest.head?, ¬ Lexer.isMarker c.toNat

/-- The parts of a numeral that starts a text. -/
def NumParts.Reads (base : Nat) (p : NumParts) (t rest : List Byte) : Prop :=
  ∃ t₁ t₂, FiguresRead base p.int t t₁ ∧ FractionRead base p.frac t₁ t₂ ∧ ExponentRead base p.exp t₂ rest

/-- The letters behind a zero that start a base prefix. -/
def baseLetters : List Byte := [118, 120, 100, 111, 113, 98, 110]

/-- Base prefixes, and what follows them. -/
inductive PrefixRead : List Byte → Nat → List Byte → List Byte → Prop
  | none {t : List Byte} (h : ∀ c t', t = 48 :: c :: t' → c ∉ baseLetters) : PrefixRead [] 10 t t
  | letter {c : Byte} {base : Nat} {t : List Byte}
      (h : (c, base) ∈ [((118 : Byte), 20), (120, 16), (111, 8), (113, 4), (98, 2)]) :
      PrefixRead [48, c] base (48 :: c :: t) t
  | decimal {t : List Byte} (h : ∀ c ∈ t.head?, c ≠ 100) : PrefixRead [48, 100] 10 (48 :: 100 :: t) t
  | duodecimal {t : List Byte} : PrefixRead [48, 100, 100] 12 (48 :: 100 :: 100 :: t) t
  | parens {ds t : List Byte} (hds : ∀ c ∈ ds, IsDigit 10 c) (hlow : 2 ≤ valueOf 10 ds) (hhigh : valueOf 10 ds ≤ 36) :
      PrefixRead (48 :: 110 :: 40 :: (ds ++ [41])) (valueOf 10 ds) (48 :: 110 :: 40 :: (ds ++ 41 :: t)) t

structure Numeral where
  basePrefix : List Byte
  base : Nat
  parts : NumParts

namespace Numeral

def text (L : Numeral) : List Byte := L.basePrefix ++ L.parts.text

def value (L : Numeral) : ℚ := L.parts.value L.base

def isReal (L : Numeral) : Bool := L.parts.frac.isSome

/-- A numeral that starts a text, and what is behind it. -/
def Reads (L : Numeral) (t rest : List Byte) : Prop :=
  (∃ t₁, PrefixRead L.basePrefix L.base t t₁ ∧ L.parts.Reads L.base t₁ rest) ∧
    (L.basePrefix ≠ [] ∨ L.parts.HasFigures)

end Numeral

/-! ## The character that was read last -/

namespace Bio

/-- The position is behind the first character of a text. -/
structure On (b : Bio) (t : List Byte) : Prop where
  pos : 0 < b.pos
  text : b.data.drop (b.pos - 1) = t
  le : b.pos ≤ b.data.length

variable {b : Bio} {c d : Byte} {t : List Byte}

theorem On.ne_nil (h : b.On t) : t ≠ [] := by
  rintro rfl
  have hlen := congrArg List.length h.text
  have hpos := h.pos
  have hle := h.le
  rw [List.length_drop, List.length_nil] at hlen
  omega

theorem On.getElem? (h : b.On (c :: t)) : b.data[b.pos - 1]? = some c := by
  rw [← List.head?_drop, h.text]
  rfl

theorem On.last (h : b.On (c :: t)) : b.last = c.toNat := by
  unfold Bio.last
  rw [if_neg (Nat.pos_iff_ne_zero.mp h.pos), h.getElem?]

theorem On.behind (h : b.On (c :: t)) : b.data.drop b.pos = t := by
  have hpos := h.pos
  have hdrop : (b.data.drop (b.pos - 1)).drop 1 = t := by
    rw [h.text]
    rfl
  rw [List.drop_drop, Nat.sub_add_cancel hpos] at hdrop
  exact hdrop

theorem On.at_behind (h : b.On (c :: t)) : b.At t := ⟨h.behind, h.le⟩

theorem At.on (h : b.At (c :: t)) : (b.advance 1).On (c :: t) where
  pos := Nat.succ_pos _
  text := h.1
  le := by
    have hlen := h.left_eq
    unfold left at hlen
    rw [List.length_cons] at hlen
    show b.pos + 1 ≤ b.data.length
    omega

theorem On.getchar (h : b.On (c :: d :: t)) : b.getchar = ((d.toNat : Int), b.advance 1) :=
  h.at_behind.getchar_cons

theorem On.tail (h : b.On (c :: d :: t)) : (b.advance 1).On (d :: t) := h.at_behind.on

/-- At the end, the position stays behind the last character. -/
theorem On.getchar_end (h : b.On [c]) : b.getchar = (-1, b) := h.at_behind.getchar_nil

theorem On.ungetc (h : b.On t) : b.ungetc.At t := by
  have hpos := h.pos
  have hle := h.le
  unfold Bio.ungetc
  rw [if_pos hpos]
  exact ⟨h.text, show b.pos - 1 ≤ b.data.length by omega⟩

theorem ungetc_data : b.ungetc.data = b.data := by
  unfold Bio.ungetc
  split <;> rfl

theorem On.pos_eq (h : b.On t) : b.pos + t.length = b.data.length + 1 := by
  have hlen := congrArg List.length h.text
  have hpos := h.pos
  have hle := h.le
  rw [List.length_drop] at hlen
  omega

/-- What is left of the source determines the position. -/
theorem On.unique {b' : Bio} (h : b.On t) (h' : b'.On t) (hdata : b.data = b'.data) : b = b' := by
  have hpos := h.pos_eq
  have hpos' := h'.pos_eq
  obtain ⟨data, pos⟩ := b
  obtain ⟨data', pos'⟩ := b'
  obtain rfl : data = data' := hdata
  dsimp only at hpos hpos'
  obtain rfl : pos = pos' := by omega
  rfl

theorem On.advance {s : List Byte} (h : b.On (s ++ c :: t)) : (b.advance s.length).On (c :: t) := by
  induction s generalizing b with
  | nil => exact h
  | cons a s ih =>
    have htail : (b.advance 1).On (s ++ c :: t) := by
      cases s with
      | nil => exact h.tail
      | cons a' s => exact h.tail
    have hrest := ih htail
    rw [advance_advance, Nat.add_comm] at hrest
    exact hrest

end Bio

namespace Scan

variable {ε α β : Type} {x : Scan ε α} {f : α → Scan ε β} {a : α} {b b' : Bio} {e : ε}

theorem bind_ok (h : x b = some (.ok (a, b'))) : (x >>= f) b = f a b' := by
  change (ExceptT.bind (x b) fun p => f p.1 p.2) = f a b'
  rw [h]
  rfl

theorem bind_error (h : x b = some (.error e)) : (x >>= f) b = some (.error e) := by
  change (ExceptT.bind (x b) fun p => f p.1 p.2) = _
  rw [h]
  rfl

theorem bind_running (h : x b = none) : (x >>= f) b = none := by
  change (ExceptT.bind (x b) fun p => f p.1 p.2) = _
  rw [h]
  rfl

@[simp] theorem pure_apply : (pure a : Scan ε α) b = some (.ok (a, b)) := rfl

@[simp] theorem get_apply : (get : Scan ε Bio) b = some (.ok (b, b)) := rfl

@[simp] theorem throw_apply : (throw e : Scan ε α) b = some (.error e) := rfl

theorem get_bind {f : Bio → Scan ε β} : (get >>= f) b = f b b := rfl

theorem getchar_bind {f : Int → Scan ε β} : (getchar >>= f) b = f b.getchar.1 b.getchar.2 := rfl

theorem getchar_on {f : Int → Scan ε β} {c d : Byte} {t : List Byte} (h : b.On (c :: d :: t)) :
    (getchar >>= f) b = f d.toNat (b.advance 1) := by
  rw [getchar_bind, h.getchar]

theorem getchar_end {f : Int → Scan ε β} {c : Byte} (h : b.On [c]) : (getchar >>= f) b = f (-1) b := by
  rw [getchar_bind, h.getchar_end]

end Scan

/-! ## Figures -/

namespace Lexer

variable {base rounds n v : Nat} {b : Bio} {c : Byte} {ds t rest : List Byte}

theorem figureAt_of_isDigit (h : b.On (c :: t)) (hc : IsDigit base c) :
    figureAt b = figure c ∧ ¬ (figureAt b < 0 ∨ base ≤ figureAt b) := by
  have hvalue : figureAt b = figureValue c.toNat := by
    have hpos := hc.1
    unfold figureAt
    rw [h.last]
    unfold figureValue at hpos ⊢
    unfold isNum
    simp only [Bool.and_eq_true, decide_eq_true_eq]
    repeat' split
    all_goals omega
  have hnat : (figure c : Int) = figureValue c.toNat := Int.toNat_of_nonneg hc.1
  rw [hvalue, ← hnat]
  refine ⟨rfl, ?_⟩
  have hlt := hc.2
  omega

theorem figureAt_of_not_isDigit (h : b.On (c :: t)) (hc : ¬ IsDigit base c) :
    figureAt b < 0 ∨ base ≤ figureAt b := by
  unfold IsDigit IsFigure figureValue at hc
  unfold figureAt
  rw [h.last]
  unfold isNum
  simp only [Bool.and_eq_true, decide_eq_true_eq]
  split at hc <;> repeat' split
  all_goals omega

theorem valueOf_nil : valueOf base [] = 0 := rfl

theorem valueOf_cons : valueOf base (c :: ds) = figure c * base ^ ds.length + valueOf base ds := by
  unfold valueOf
  rw [List.reverse_cons, List.map_append, Nat.ofDigits_append, List.length_map, List.length_reverse, List.map_singleton,
    Nat.ofDigits_singleton, Nat.add_comm, Nat.mul_comm]

/-- Figures are read up to what is none. -/
theorem parseNum_figures (h : b.On (ds ++ c :: t)) (hds : ∀ d ∈ ds, IsDigit base d) (hc : ¬ IsDigit base c)
    (hrounds : ds.length < rounds) :
    parseNum base rounds n v b =
      some (.ok ((n + ds.length, v * base ^ ds.length + valueOf base ds), b.advance ds.length)) := by
  induction ds generalizing rounds n v b with
  | nil =>
    obtain ⟨k, rfl⟩ := Nat.exists_eq_add_one_of_ne_zero (Nat.ne_of_gt hrounds)
    unfold parseNum
    rw [Scan.get_bind, if_pos (figureAt_of_not_isDigit h hc), valueOf_nil, List.length_nil, Nat.pow_zero, Nat.mul_one]
    rfl
  | cons d ds ih =>
    obtain ⟨k, rfl⟩ := Nat.exists_eq_add_one_of_ne_zero (Nat.ne_of_gt (Nat.zero_lt_of_lt hrounds))
    obtain ⟨hfigure, hgo⟩ := figureAt_of_isDigit h (hds d List.mem_cons_self)
    obtain ⟨a, r, hnext⟩ : ∃ a r, ds ++ c :: t = a :: r := by
      cases ds <;> exact ⟨_, _, rfl⟩
    have hon : b.On (d :: a :: r) := hnext ▸ h
    have htail : (b.advance 1).On (ds ++ c :: t) := hnext ▸ hon.tail
    unfold parseNum
    rw [Scan.get_bind, if_neg hgo, Scan.getchar_on hon, hfigure, Int.toNat_natCast,
      ih htail (fun x hx => hds x (List.mem_cons_of_mem _ hx)) (Nat.lt_of_succ_lt_succ hrounds), valueOf_cons,
      List.length_cons, Bio.advance_advance]
    have hvalue : (v * base + figure d) * base ^ ds.length + valueOf base ds =
        v * base ^ (ds.length + 1) + (figure d * base ^ ds.length + valueOf base ds) := by
      ring
    rw [hvalue, Nat.add_comm 1 ds.length, Nat.add_assoc n 1, Nat.add_comm 1]

/-- Figures that reach the end of the source are read forever. -/
theorem parseNum_running (h : b.On ds) (hds : ∀ d ∈ ds, IsDigit base d) : parseNum base rounds n v b = none := by
  induction rounds generalizing ds n v b with
  | zero => rfl
  | succ k ih =>
    match ds, h.ne_nil with
    | [d], _ =>
      obtain ⟨hfigure, hgo⟩ := figureAt_of_isDigit h (hds d List.mem_cons_self)
      unfold parseNum
      rw [Scan.get_bind, if_neg hgo, Scan.getchar_end h]
      exact ih h hds
    | d :: a :: r, _ =>
      obtain ⟨hfigure, hgo⟩ := figureAt_of_isDigit h (hds d List.mem_cons_self)
      unfold parseNum
      rw [Scan.get_bind, if_neg hgo, Scan.getchar_on h]
      exact ih h.tail fun x hx => hds x (List.mem_cons_of_mem _ hx)

theorem exists_figuresRead (base : Nat) (t : List Byte) : ∃ ds rest, FiguresRead base ds t rest := by
  induction t with
  | nil => exact ⟨[], [], rfl, fun _ h => (nomatch h), fun _ h => (nomatch h)⟩
  | cons c t ih =>
    by_cases hc : IsDigit base c
    · obtain ⟨ds, rest, htext, hds, hstops⟩ := ih
      refine ⟨c :: ds, rest, congrArg (c :: ·) htext, fun d hd => ?_, hstops⟩
      cases hd with
      | head => exact hc
      | tail _ hd => exact hds d hd
    · refine ⟨[], c :: t, rfl, fun _ h => (nomatch h), fun d hd => ?_⟩
      obtain rfl := Option.some.inj hd
      exact hc

/-! ## The parts of a numeral -/

variable {hasInteger : Bool} {frac : Option (List Byte)} {exp : Option Exponent} {p : NumParts}

theorem parseNum_read (hread : FiguresRead base ds t (c :: rest)) (h : b.On t) (hrounds : ds.length < rounds) :
    parseNum base rounds 0 0 b = some (.ok ((ds.length, valueOf base ds), b.advance ds.length)) ∧
      (b.advance ds.length).On (c :: rest) := by
  have hon : b.On (ds ++ c :: rest) := hread.text ▸ h
  refine ⟨?_, hon.advance⟩
  rw [parseNum_figures hon hread.figures (hread.stops c rfl) hrounds, Nat.zero_add, Nat.zero_mul, Nat.zero_add]

theorem byte_ne {d d' : Byte} {k : Int} (h : d ≠ d') (hk : (d'.toNat : Int) = k) : (d.toNat : Int) ≠ k := by
  rintro rfl
  exact h (BitVec.eq_of_toNat_eq (by exact_mod_cast hk.symm))

theorem isDigit_ne {d : Byte} (h : IsDigit base d) : ¬ ((d.toNat : Int) = 45 ∨ (d.toNat : Int) = 43) := by
  have hpos := h.1
  unfold figureValue at hpos
  rintro (heq | heq) <;> rw [heq] at hpos <;> exact absurd hpos (by decide)

theorem readFraction_read (hread : FractionRead base frac t (c :: rest)) (h : b.On t) (hrounds : t.length < rounds) :
    ∃ b', readFraction rounds base b = some (.ok (frac.map fun ds => (ds.length, valueOf base ds), b')) ∧
      b'.data = b.data ∧ b'.On (c :: rest) := by
  unfold readFraction
  rw [Scan.get_bind]
  cases frac with
  | none =>
    obtain ⟨rfl, hdot⟩ := hread
    rw [h.last, if_neg (byte_ne (k := 46) (hdot c rfl) rfl)]
    exact ⟨b, rfl, rfl, h⟩
  | some ds =>
    obtain ⟨t', rfl, hfigures⟩ := hread
    obtain ⟨a, r, rfl⟩ : ∃ a r, t' = a :: r := by
      rw [hfigures.text]
      cases ds <;> exact ⟨_, _, rfl⟩
    have hlt : ds.length < rounds := by
      have hlen := congrArg List.length hfigures.text
      rw [List.length_append] at hlen
      rw [List.length_cons] at hrounds
      omega
    obtain ⟨hparse, hon⟩ := parseNum_read hfigures h.tail hlt
    have hdot : b.last = 46 := h.last
    rw [hdot, if_pos rfl, Scan.getchar_on h, Scan.bind_ok hparse]
    exact ⟨_, rfl, rfl, hon⟩

theorem readExponent_read (hread : ExponentRead base exp t (c :: rest)) (h : b.On t) (hrounds : t.length < rounds) :
    ∃ b', readExponent rounds base b = some (.ok ((exp.map (Exponent.value base)).getD 0, b')) ∧
      b'.data = b.data ∧ b'.On (c :: rest) := by
  unfold readExponent
  rw [Scan.get_bind]
  cases exp with
  | none =>
    obtain ⟨rfl, hmarker⟩ := hread
    rw [h.last, if_neg (hmarker c rfl)]
    exact ⟨b, rfl, rfl, h⟩
  | some e =>
    obtain ⟨marker, sign, digits⟩ := e
    obtain ⟨hmarker, hsign, hdigits, t', rfl, hfigures⟩ := hread
    dsimp only at hmarker hsign hdigits hfigures h
    obtain ⟨d, r, rfl⟩ : ∃ d r, t' = d :: r := by
      rw [hfigures.text]
      cases digits <;> exact ⟨_, _, rfl⟩
    have hd : IsDigit base d := by
      obtain ⟨a, digits, rfl⟩ := List.exists_cons_of_ne_nil hdigits
      obtain rfl : d = a := (List.cons.inj hfigures.text).1
      exact hfigures.figures d List.mem_cons_self
    have hlt : digits.length < rounds := by
      have hlen := congrArg List.length hfigures.text
      rw [List.length_append] at hlen
      rw [List.length_append] at hrounds
      omega
    have hzero : digits.length ≠ 0 := fun hz => hdigits (List.length_eq_zero_iff.mp hz)
    -- the character behind the marker, and the state behind the sign
    obtain ⟨a, s, b₂, hon, hskip, hon₂, hdata, hminus⟩ : ∃ a s b₂, b.On (marker :: a :: s) ∧
        skipSign a.toNat (b.advance 1) = some (.ok ((), b₂)) ∧ b₂.On (d :: r) ∧ b₂.data = b.data ∧
        ((a.toNat : Int) = 45 ↔ sign = [45]) := by
      unfold skipSign
      rcases hsign with rfl | rfl | rfl
      · have hon : b.On (marker :: d :: r) := h
        have hne := isDigit_ne hd
        refine ⟨d, r, b.advance 1, hon, ?_, hon.tail, rfl, ?_⟩
        · rw [if_neg hne]
          rfl
        · exact iff_of_false (fun heq => hne (.inl heq)) (fun heq => nomatch heq)
      · have hon : b.On (marker :: 43 :: d :: r) := h
        refine ⟨43, d :: r, (b.advance 1).advance 1, hon, ?_, hon.tail.tail, rfl, iff_of_false (by decide) (by decide)⟩
        rw [if_pos (.inr rfl), Scan.getchar_on hon.tail]
        rfl
      · have hon : b.On (marker :: 45 :: d :: r) := h
        refine ⟨45, d :: r, (b.advance 1).advance 1, hon, ?_, hon.tail.tail, rfl, iff_of_true rfl rfl⟩
        rw [if_pos (.inl rfl), Scan.getchar_on hon.tail]
        rfl
    obtain ⟨hparse, hon'⟩ := parseNum_read hfigures hon₂ hlt
    rw [hon.last, if_pos hmarker, Scan.getchar_on hon]
    dsimp only
    rw [if_neg (by omega), Scan.bind_ok hskip, Scan.bind_ok hparse]
    dsimp only
    rw [if_neg hzero, if_congr hminus rfl rfl]
    exact ⟨_, rfl, hdata, hon'⟩

theorem readInteger_read (hread : FiguresRead base ds t (c :: rest)) (h : b.On t) (hrounds : t.length < rounds)
    (hsome : hasInteger ∨ ds ≠ [] ∨ c = 46) :
    ∃ has b', readInteger rounds base hasInteger b = some (.ok ((has, valueOf base ds), b')) ∧
      b'.data = b.data ∧ b'.On (c :: rest) ∧ (has = true ↔ hasInteger = true ∨ ds ≠ [] ∨ c ≠ 46) := by
  have hlt : ds.length < rounds := by
    have hlen := congrArg List.length hread.text
    rw [List.length_append] at hlen
    omega
  unfold readInteger
  rw [Scan.get_bind]
  by_cases hdot : ds = [] ∧ c = 46
  · obtain ⟨rfl, rfl⟩ := hdot
    have htext : t = 46 :: rest := hread.text
    have hon : b.On (46 :: rest) := htext ▸ h
    have hlast : b.last = 46 := hon.last
    rw [hlast, if_pos rfl]
    refine ⟨hasInteger, b, rfl, rfl, hon, ?_⟩
    simp
  · obtain ⟨hparse, hon⟩ := parseNum_read hread h hlt
    have hlast : b.last ≠ 46 := by
      cases ds with
      | nil =>
        have htext : t = c :: rest := hread.text
        rw [(htext ▸ h : b.On (c :: rest)).last]
        exact byte_ne (k := 46) (fun hc => hdot ⟨rfl, hc⟩) rfl
      | cons d ds =>
        have htext : t = d :: (ds ++ c :: rest) := hread.text
        rw [(htext ▸ h : b.On (d :: (ds ++ c :: rest))).last]
        refine byte_ne (k := 46) (fun hd : d = 46 => ?_) rfl
        have hfigure := (hread.figures d List.mem_cons_self).1
        rw [hd] at hfigure
        exact absurd hfigure (by decide)
    have hcount : ¬ ds.length < (if hasInteger then 0 else 1) := by
      split
      · exact Nat.not_lt_zero _
      · rename_i hhas
        intro hlt
        obtain rfl := List.length_eq_zero_iff.mp (Nat.lt_one_iff.mp hlt)
        rcases hsome with hhas' | hne | hc
        · exact hhas hhas'
        · exact hne rfl
        · exact hdot ⟨rfl, hc⟩
    rw [if_neg hlast, Scan.bind_ok hparse]
    dsimp only
    rw [if_neg hcount]
    refine ⟨true, _, rfl, rfl, hon, iff_of_true rfl (.inr ?_)⟩
    by_cases hds : ds = []
    · exact .inr fun hc => hdot ⟨hds, hc⟩
    · exact .inl hds

end Lexer

theorem FiguresRead.length_le {base : Nat} {ds t rest : List Byte} (h : FiguresRead base ds t rest) :
    rest.length ≤ t.length := by
  rw [h.text, List.length_append]
  exact Nat.le_add_left ..

theorem FractionRead.length_le {base : Nat} {frac : Option (List Byte)} {t rest : List Byte}
    (h : FractionRead base frac t rest) : rest.length ≤ t.length := by
  cases frac with
  | none => exact h.1 ▸ Nat.le_refl _
  | some ds =>
    obtain ⟨t', rfl, hread⟩ := h
    exact Nat.le_succ_of_le hread.length_le

theorem ExponentRead.length_le {base : Nat} {exp : Option Exponent} {t rest : List Byte}
    (h : ExponentRead base exp t rest) : rest.length ≤ t.length := by
  cases exp with
  | none => exact h.1 ▸ Nat.le_refl _
  | some e =>
    obtain ⟨-, -, -, t', rfl, hread⟩ := h
    rw [List.length_append]
    exact Nat.le_trans hread.length_le (Nat.le_add_left ..)

namespace Lexer

variable {base rounds : Nat} {b : Bio} {c : Byte} {t rest : List Byte} {hasInteger : Bool} {p : NumParts} {L : Numeral}

theorem fraction_getD (base : Nat) (frac : Option (List Byte)) :
    (frac.map fun ds => (ds.length, valueOf base ds)).getD (0, 0) =
      ((frac.getD []).length, valueOf base (frac.getD [])) := by
  cases frac <;> rfl

/-- The parts of a numeral are read, and then what is behind them is left. -/
theorem readParts_read (hread : p.Reads base t (c :: rest)) (h : b.On t) (hrounds : t.length < rounds)
    (hsome : hasInteger ∨ p.HasFigures) :
    ∃ b', readParts rounds base hasInteger b = some (.ok ((p.frac.isSome, p.value base), b')) ∧
      b'.data = b.data ∧ b'.On (c :: rest) := by
  obtain ⟨t₁, t₂, hint, hfrac, hexp⟩ := hread
  obtain ⟨c₂, r₂, rfl⟩ : ∃ c₂ r₂, t₂ = c₂ :: r₂ :=
    List.exists_cons_of_length_pos (Nat.lt_of_lt_of_le (Nat.succ_pos _) hexp.length_le)
  obtain ⟨c₁, r₁, rfl⟩ : ∃ c₁ r₁, t₁ = c₁ :: r₁ :=
    List.exists_cons_of_length_pos (Nat.lt_of_lt_of_le (Nat.succ_pos _) hfrac.length_le)
  have hdot {ds : List Byte} (hds : p.frac = some ds) : c₁ = 46 := by
    rw [hds] at hfrac
    obtain ⟨t', ht', -⟩ := hfrac
    exact (List.cons.inj ht').1
  have hsome₁ : hasInteger ∨ p.int ≠ [] ∨ c₁ = 46 := by
    rcases hsome with hhas | hne | hne
    · exact .inl hhas
    · exact .inr (.inl hne)
    · cases hds : p.frac with
      | none =>
        rw [hds] at hne
        exact absurd rfl hne
      | some ds => exact .inr (.inr (hdot hds))
  obtain ⟨has, b₁, h₁, hdata₁, hon₁, hhas⟩ := readInteger_read hint h hrounds hsome₁
  obtain ⟨b₂, h₂, hdata₂, hon₂⟩ := readFraction_read hfrac hon₁ (Nat.lt_of_le_of_lt hint.length_le hrounds)
  obtain ⟨b₃, h₃, hdata₃, hon₃⟩ := readExponent_read hexp hon₂
    (Nat.lt_of_le_of_lt (Nat.le_trans hfrac.length_le hint.length_le) hrounds)
  have hnumber : ¬ (p.frac.isSome ∧ ¬ (has = true ∨ 0 < (p.frac.getD []).length)) := by
    rintro ⟨hfracSome, hnone⟩
    rw [not_or] at hnone
    refine hnone.1 (hhas.mpr ?_)
    rcases hsome with hhas' | hne | hne
    · exact .inl hhas'
    · exact .inr (.inl hne)
    · exact absurd (List.length_pos_iff.mpr hne) hnone.2
  have hexpValue : (p.exp.map (Exponent.value base)).getD 0 = p.expValue base := by
    unfold NumParts.expValue
    cases p.exp <;> rfl
  refine ⟨b₃, ?_, hdata₃.trans (hdata₂.trans hdata₁), hon₃⟩
  unfold readParts
  rw [Scan.bind_ok h₁]
  dsimp only
  rw [Scan.bind_ok h₂, fraction_getD]
  dsimp only
  rw [Option.isSome_map, if_neg hnumber, Scan.bind_ok h₃, hexpValue]
  rfl

/-! ## Base prefixes -/

theorem isNum_iff : isNum c.toNat = true ↔ IsDigit 10 c := by
  unfold isNum IsDigit IsFigure figureValue
  simp only [Bool.and_eq_true, decide_eq_true_eq]
  constructor
  · rintro ⟨hlow, hhigh⟩
    rw [if_pos ⟨hlow, hhigh⟩]
    omega
  · rintro ⟨hlow, hhigh⟩
    split at hlow
    · assumption
    · rename_i hnot
      rw [if_neg hnot] at hhigh
      repeat' split at hhigh
      all_goals omega

theorem figure_ten (h : IsDigit 10 c) : (figure c : Int) = c.toNat - 48 := by
  have hnum := isNum_iff.mpr h
  unfold isNum at hnum
  simp only [Bool.and_eq_true, decide_eq_true_eq] at hnum
  have hvalue : figureValue c.toNat = c.toNat - 48 := by
    unfold figureValue
    rw [if_pos hnum]
  rw [← hvalue]
  exact Int.toNat_of_nonneg h.1

theorem isDigit_ne_close {d : Byte} (h : IsDigit base d) : (d.toNat : Int) ≠ 41 := by
  intro heq
  have hlow := h.1
  rw [heq] at hlow
  exact absurd hlow (by decide)

/-- The figures of a base in parentheses are read one by one. -/
theorem parseBase_figures {a : Byte} {ds : List Byte} {v : Nat} (h : b.On (a :: (ds ++ rest)))
    (hds : ∀ d ∈ ds, IsDigit 10 d) (hrange : v * 10 ^ ds.length + valueOf 10 ds < 2 ^ 31) :
    ∃ a' b', (∀ rounds, parseBase (rounds + ds.length) v b = parseBase rounds (v * 10 ^ ds.length + valueOf 10 ds) b') ∧
      b'.data = b.data ∧ b'.On (a' :: rest) := by
  induction ds generalizing a b v with
  | nil =>
    refine ⟨a, b, fun rounds => ?_, rfl, h⟩
    rw [valueOf_nil, List.length_nil, Nat.pow_zero, Nat.mul_one]
    rfl
  | cons d ds ih =>
    have hd : IsDigit 10 d := hds d List.mem_cons_self
    have hgo : ¬ ((d.toNat : Int) < 0 ∨ ¬ isNum d.toNat = true) := by
      rw [not_or, not_not]
      exact ⟨by omega, isNum_iff.mpr hd⟩
    have hsum : v * 10 ^ (ds.length + 1) + (figure d * 10 ^ ds.length + valueOf 10 ds) =
        (v * 10 + figure d) * 10 ^ ds.length + valueOf 10 ds := by
      ring
    have hrange' : (v * 10 + figure d) * 10 ^ ds.length + valueOf 10 ds < 2 ^ 31 := by
      rw [← hsum]
      rw [List.length_cons, valueOf_cons] at hrange
      exact hrange
    have hcheck : CInt.check (v * 10 + ((d.toNat : Int) - 48)) = some ((v * 10 + figure d : Nat) : Int) := by
      rw [← figure_ten hd, CInt.check_eq_some]
      refine ⟨⟨by omega, ?_⟩, by push_cast; rfl⟩
      have hle : v * 10 + figure d ≤ (v * 10 + figure d) * 10 ^ ds.length :=
        Nat.le_mul_of_pos_right _ (Nat.pow_pos (by decide))
      omega
    have hnext : b.On (a :: d :: (ds ++ rest)) := h
    obtain ⟨a', b', hb', hdata, hon⟩ := ih hnext.tail (fun x hx => hds x (List.mem_cons_of_mem _ hx)) hrange'
    refine ⟨a', b', fun rounds => ?_, hdata, hon⟩
    have hdefined : (Scan.defined (some ((v * 10 + figure d : Nat) : Int)) : Scan NumError Int) (b.advance 1) =
        some (.ok (((v * 10 + figure d : Nat) : Int), b.advance 1)) := rfl
    rw [List.length_cons, valueOf_cons, hsum, ← hb' rounds]
    show (Scan.getchar >>= _) b = _
    rw [Scan.getchar_on hnext, if_neg (isDigit_ne_close hd), if_neg hgo, hcheck, Scan.bind_ok hdefined,
      Int.toNat_natCast]
    rfl

/-- A base in parentheses is read up to the closing one. -/
theorem parseBase_read {a : Byte} {ds : List Byte} (h : b.On (a :: (ds ++ 41 :: rest)))
    (hds : ∀ d ∈ ds, IsDigit 10 d) (hrange : valueOf 10 ds < 2 ^ 31) (hrounds : ds.length < rounds) :
    ∃ b', parseBase rounds 0 b = some (.ok (valueOf 10 ds, b')) ∧ b'.data = b.data ∧
      (match rest with
        | [] => b'.On [41]
        | c :: r => b'.On (c :: r)) := by
  obtain ⟨k, rfl⟩ := Nat.exists_eq_add_of_le' hrounds
  obtain ⟨a', b', hb', hdata, hon⟩ := parseBase_figures (v := 0) h hds (by omega)
  have hclose : ((41 : Byte).toNat : Int) = 41 := rfl
  rw [Nat.zero_mul, Nat.zero_add] at hb'
  rw [Nat.succ_eq_add_one, ← Nat.add_assoc, Nat.add_right_comm, hb']
  unfold parseBase
  rw [Scan.getchar_on hon, hclose, if_pos rfl]
  cases rest with
  | nil =>
    rw [Scan.getchar_end hon.tail]
    exact ⟨_, rfl, hdata, hon.tail⟩
  | cons c r =>
    rw [Scan.getchar_on hon.tail]
    exact ⟨_, rfl, hdata, hon.tail.tail⟩

/-- Figures and a closing parenthesis, or an error. -/
theorem parseBase_cases {a : Byte} {u : List Byte} (h : b.On (a :: u))
    (hrange : ∀ ds rest, u = ds ++ rest → (∀ d ∈ ds, IsDigit 10 d) → valueOf 10 ds < 2 ^ 31)
    (hrounds : u.length < rounds) :
    (∃ ds rest, u = ds ++ 41 :: rest ∧ ∀ d ∈ ds, IsDigit 10 d) ∨ ∃ e, parseBase rounds 0 b = some (.error e) := by
  obtain ⟨ds, rest, rfl, hds, hstops⟩ := exists_figuresRead 10 u
  obtain ⟨a', b', hb', hdata, hon⟩ := parseBase_figures (v := 0) h hds (by have := hrange ds rest rfl hds; omega)
  have hlt : ds.length < rounds := by
    rw [List.length_append] at hrounds
    omega
  obtain ⟨k, rfl⟩ := Nat.exists_eq_add_of_le' hlt
  rw [Nat.succ_eq_add_one, ← Nat.add_assoc, Nat.add_right_comm, hb']
  cases rest with
  | nil =>
    unfold parseBase
    rw [Scan.getchar_end hon, if_neg (by decide), if_pos (.inl (by decide))]
    exact .inr ⟨_, rfl⟩
  | cons x r =>
    by_cases hclose : (x.toNat : Int) = 41
    · obtain rfl : x = 41 := BitVec.eq_of_toNat_eq (by exact_mod_cast hclose)
      exact .inl ⟨ds, r, rfl, hds⟩
    · unfold parseBase
      have hnot : ¬ isNum x.toNat = true := fun hnum => hstops x rfl (isNum_iff.mp hnum)
      rw [Scan.getchar_on hon, if_neg hclose, if_pos (.inr hnot)]
      exact .inr ⟨_, rfl⟩

/-- What follows a leading zero. -/
theorem readBase_read {pre : List Byte} (hread : PrefixRead pre base (48 :: c :: rest) t) (ht : t ≠ [])
    (h : b.On (48 :: c :: rest)) (hrounds : rest.length < rounds) :
    ∃ b', readBase rounds b = some (.ok (some base, b')) ∧ b'.data = b.data ∧ b'.On t := by
  unfold readBase
  rw [Scan.getchar_on h]
  generalize htext : 48 :: c :: rest = s at hread
  cases hread with
  | none hletter =>
    have hc := hletter c rest htext.symm
    subst htext
    simp only [baseLetters, List.mem_cons, List.not_mem_nil, or_false, not_or] at hc
    obtain ⟨hv, hx, hd, ho, hq, hb, hn⟩ := hc
    rw [if_neg (by omega), if_neg (byte_ne (k := 118) hv rfl), if_neg (byte_ne (k := 120) hx rfl),
      if_neg (byte_ne (k := 100) hd rfl), if_neg (byte_ne (k := 111) ho rfl),
      if_neg (byte_ne (k := 113) hq rfl), if_neg (byte_ne (k := 98) hb rfl),
      if_neg (byte_ne (k := 110) hn rfl)]
    refine ⟨b, ?_, rfl, h⟩
    have hback : (b.advance 1).ungetc = b := Bio.ungetc_advance b 0
    exact congrArg (fun b => some (Except.ok (some 10, b))) hback
  | letter hmem =>
    obtain ⟨d, t, rfl⟩ := List.exists_cons_of_ne_nil ht
    have hbehind := (List.cons.inj htext).2
    obtain ⟨rfl, rfl⟩ : c = _ ∧ rest = d :: t := ⟨(List.cons.inj hbehind).1, (List.cons.inj hbehind).2⟩
    simp only [List.mem_cons, List.not_mem_nil, or_false, Prod.mk.injEq] at hmem
    rcases hmem with ⟨rfl, rfl⟩ | ⟨rfl, rfl⟩ | ⟨rfl, rfl⟩ | ⟨rfl, rfl⟩ | ⟨rfl, rfl⟩
    all_goals exact ⟨(b.advance 1).advance 1, Scan.getchar_on h.tail, rfl, h.tail.tail⟩
  | decimal hnext =>
    obtain ⟨d, t, rfl⟩ := List.exists_cons_of_ne_nil ht
    cases htext
    refine ⟨(b.advance 1).advance 1, ?_, rfl, h.tail.tail⟩
    show (Scan.getchar >>= _) _ = _
    rw [Scan.getchar_on h.tail, if_neg (by omega), if_neg (byte_ne (k := 100) (hnext d rfl) rfl)]
    rfl
  | duodecimal =>
    obtain ⟨d, t, rfl⟩ := List.exists_cons_of_ne_nil ht
    cases htext
    refine ⟨((b.advance 1).advance 1).advance 1, ?_, rfl, h.tail.tail.tail⟩
    show (Scan.getchar >>= _) _ = _
    rw [Scan.getchar_on h.tail]
    show (Scan.getchar >>= _) _ = _
    rw [Scan.getchar_on h.tail.tail]
    rfl
  | parens hds hlow hhigh =>
    rename_i ds
    obtain ⟨d, t, rfl⟩ := List.exists_cons_of_ne_nil ht
    cases htext
    have hlt : ds.length < rounds := by
      rw [List.length_cons, List.length_append] at hrounds
      omega
    obtain ⟨b', hb', hdata, hon⟩ := parseBase_read h.tail.tail hds (by omega) hlt
    refine ⟨b', ?_, hdata, hon⟩
    show (Scan.getchar >>= _) _ = _
    rw [Scan.getchar_on h.tail, if_neg (by decide), Scan.bind_ok hb', if_neg (Nat.not_lt.mpr hlow)]
    rfl

/-! ## Numerals at the end of the source, and what is no numeral -/

theorem parseNum_none (h : b.On (c :: t)) (hc : ¬ IsDigit base c) (hrounds : 0 < rounds) :
    parseNum base rounds 0 0 b = some (.ok ((0, 0), b)) := by
  have hon : b.On ([] ++ c :: t) := h
  exact parseNum_figures hon (fun _ hd => nomatch hd) hc hrounds

theorem not_isDigit_of_eq {k : Int} (hc : (c.toNat : Int) = k) (hk : figureValue k < 0) : ¬ IsDigit base c := by
  rintro ⟨hlow, -⟩
  rw [hc] at hlow
  omega

/-- Figures that something follows, or that reach the end, or none. -/
theorem parseNum_cases (base : Nat) (h : b.On t) (hrounds : 0 < rounds) :
    (∃ ds c rest, ds ≠ [] ∧ FiguresRead base ds t (c :: rest)) ∨
      (FiguresRead base t t [] ∧ parseNum base rounds 0 0 b = none) ∨
      FiguresRead base [] t t ∧ parseNum base rounds 0 0 b = some (.ok ((0, 0), b)) := by
  obtain ⟨ds, rest, hread⟩ := exists_figuresRead base t
  match ds, rest with
  | [], rest =>
    obtain rfl : t = rest := hread.text
    obtain ⟨a, r, rfl⟩ := List.exists_cons_of_ne_nil h.ne_nil
    exact .inr (.inr ⟨hread, parseNum_none h (hread.stops a rfl) hrounds⟩)
  | d :: ds, [] =>
    obtain rfl : t = d :: ds := hread.text.trans (List.append_nil _)
    exact .inr (.inl ⟨hread, parseNum_running h hread.figures⟩)
  | d :: ds, c :: rest => exact .inl ⟨d :: ds, c, rest, List.cons_ne_nil _ _, hread⟩

theorem skipSign_cases {a : Byte} (h : b.On (a :: t)) :
    (∃ sign u, a :: t = sign ++ u ∧ (sign = [] ∨ sign = [43] ∨ sign = [45]) ∧
        ∃ b', skipSign a.toNat b = some (.ok ((), b')) ∧ b'.On u) ∨
      skipSign a.toNat b = some (.ok ((), b)) ∧ t = [] ∧ ∀ base, ¬ IsDigit base a := by
  unfold skipSign
  by_cases hsign : (a.toNat : Int) = 45 ∨ (a.toNat : Int) = 43
  · have hnot (base : Nat) : ¬ IsDigit base a := by
      rcases hsign with ha | ha
      · exact not_isDigit_of_eq ha (by decide)
      · exact not_isDigit_of_eq ha (by decide)
    have ha : a = 45 ∨ a = 43 := by
      rcases hsign with ha | ha
      · exact .inl (BitVec.eq_of_toNat_eq (by exact_mod_cast ha))
      · exact .inr (BitVec.eq_of_toNat_eq (by exact_mod_cast ha))
    rw [if_pos hsign]
    cases t with
    | nil =>
      rw [Scan.getchar_end h]
      exact .inr ⟨rfl, rfl, hnot⟩
    | cons d u =>
      rw [Scan.getchar_on h]
      refine .inl ⟨[a], d :: u, rfl, ?_, _, rfl, h.tail⟩
      rcases ha with rfl | rfl
      · exact .inr (.inr rfl)
      · exact .inr (.inl rfl)
  · rw [if_neg hsign]
    exact .inl ⟨[], a :: t, rfl, .inl rfl, b, rfl, h⟩

/-- A marker has to be followed by figures. -/
theorem readExponent_cases (base : Nat) (h : b.On t) (hrounds : 0 < rounds) :
    (∃ exp c rest, ExponentRead base exp t (c :: rest)) ∨
      (∃ e, ExponentRead base (some e) t [] ∧ readExponent rounds base b = none) ∨
      ∃ e, readExponent rounds base b = some (.error e) := by
  obtain ⟨m, r, rfl⟩ := List.exists_cons_of_ne_nil h.ne_nil
  by_cases hmarker : isMarker m.toNat = true
  · unfold readExponent
    rw [Scan.get_bind, h.last, if_pos hmarker]
    cases r with
    | nil =>
      rw [Scan.getchar_end h, if_pos (by decide)]
      exact .inr (.inr ⟨_, rfl⟩)
    | cons a r =>
      rw [Scan.getchar_on h, if_neg (by omega)]
      rcases skipSign_cases h.tail with ⟨sign, u, htext, hsign, b', hskip, hon⟩ | ⟨hskip, rfl, hnot⟩
      · rw [Scan.bind_ok hskip]
        rcases parseNum_cases base hon hrounds with ⟨ds, c, rest, hne, hread⟩ | ⟨hread, hparse⟩ | ⟨-, hparse⟩
        · exact .inl ⟨some ⟨m, sign, ds⟩, c, rest, hmarker, hsign, hne, u, congrArg (m :: ·) htext, hread⟩
        · rw [Scan.bind_running hparse]
          exact .inr (.inl ⟨⟨m, sign, u⟩, ⟨hmarker, hsign, hon.ne_nil, u, congrArg (m :: ·) htext, hread⟩, rfl⟩)
        · rw [Scan.bind_ok hparse]
          exact .inr (.inr ⟨_, rfl⟩)
      · rw [Scan.bind_ok hskip, Scan.bind_ok (parseNum_none h.tail (hnot base) hrounds)]
        exact .inr (.inr ⟨_, rfl⟩)
  · refine .inl ⟨none, m, r, rfl, fun c hc => ?_⟩
    obtain rfl := Option.some.inj hc
    exact hmarker

theorem readFraction_cases (base : Nat) (h : b.On t) (hrounds : 0 < rounds) :
    (∃ frac c rest, FractionRead base frac t (c :: rest)) ∨
      (∃ ds, ds ≠ [] ∧ FractionRead base (some ds) t [] ∧ readFraction rounds base b = none) ∨
      t = [46] ∧ readFraction rounds base b = some (.ok (some (0, 0), b)) := by
  obtain ⟨d, r, rfl⟩ := List.exists_cons_of_ne_nil h.ne_nil
  by_cases hdot : d = 46
  · subst hdot
    have hlast : b.last = 46 := h.last
    unfold readFraction
    rw [Scan.get_bind, hlast, if_pos rfl]
    cases r with
    | nil =>
      rw [Scan.getchar_end h, Scan.bind_ok (parseNum_none h (not_isDigit_of_eq (k := 46) rfl (by decide)) hrounds)]
      exact .inr (.inr ⟨rfl, rfl⟩)
    | cons a r =>
      rw [Scan.getchar_on h]
      rcases parseNum_cases base h.tail hrounds with ⟨ds, c, rest, -, hread⟩ | ⟨hread, hparse⟩ | ⟨hread, -⟩
      · exact .inl ⟨some ds, c, rest, a :: r, rfl, hread⟩
      · rw [Scan.bind_running hparse]
        exact .inr (.inl ⟨a :: r, List.cons_ne_nil _ _, ⟨a :: r, rfl, hread⟩, rfl⟩)
      · exact .inl ⟨some [], a, r, a :: r, rfl, hread⟩
  · refine .inl ⟨none, d, r, rfl, fun c hc => ?_⟩
    obtain rfl := Option.some.inj hc
    exact hdot

theorem readInteger_cases (base : Nat) (hasInteger : Bool) (h : b.On t) (hrounds : 0 < rounds) :
    (∃ ds c rest, FiguresRead base ds t (c :: rest) ∧ (hasInteger ∨ ds ≠ [] ∨ c = 46)) ∨
      (FiguresRead base t t [] ∧ readInteger rounds base hasInteger b = none) ∨
      ∃ e, readInteger rounds base hasInteger b = some (.error e) := by
  obtain ⟨d, r, rfl⟩ := List.exists_cons_of_ne_nil h.ne_nil
  by_cases hdot : (d.toNat : Int) = 46
  · have hd : d = 46 := BitVec.eq_of_toNat_eq (by exact_mod_cast hdot)
    refine .inl ⟨[], d, r, ⟨rfl, fun _ hc => (nomatch hc), fun c hc => ?_⟩, .inr (.inr hd)⟩
    obtain rfl := Option.some.inj hc
    exact not_isDigit_of_eq hdot (by decide)
  · unfold readInteger
    rw [Scan.get_bind, h.last, if_neg hdot]
    rcases parseNum_cases base h hrounds with ⟨ds, c, rest, hne, hread⟩ | ⟨hread, hparse⟩ | ⟨hread, hparse⟩
    · exact .inl ⟨ds, c, rest, hread, .inr (.inl hne)⟩
    · rw [Scan.bind_running hparse]
      exact .inr (.inl ⟨hread, rfl⟩)
    · cases hasInteger with
      | true => exact .inl ⟨[], d, r, hread, .inl rfl⟩
      | false =>
        rw [Scan.bind_ok hparse]
        exact .inr (.inr ⟨_, rfl⟩)

end Lexer

/-- The last character is a figure. -/
def EndsInFigure (base : Nat) (t : List Byte) : Prop := ∃ c, t.getLast? = some c ∧ IsDigit base c

theorem EndsInFigure.append {base : Nat} {s t : List Byte} (h : EndsInFigure base t) : EndsInFigure base (s ++ t) := by
  obtain ⟨c, hc, hfigure⟩ := h
  refine ⟨c, ?_, hfigure⟩
  rw [List.getLast?_append, hc]
  rfl

theorem FiguresRead.ends {base : Nat} {ds t : List Byte} (h : FiguresRead base ds t []) (hne : ds ≠ []) :
    EndsInFigure base t := by
  obtain rfl : t = ds := h.text.trans (List.append_nil _)
  exact ⟨t.getLast hne, List.getLast?_eq_some_getLast hne, h.figures _ (List.getLast_mem hne)⟩

theorem FractionRead.exists_append {base : Nat} {frac : Option (List Byte)} {t rest : List Byte}
    (h : FractionRead base frac t rest) : ∃ s, t = s ++ rest := by
  cases frac with
  | none => exact ⟨[], h.1⟩
  | some ds =>
    obtain ⟨t', rfl, hread⟩ := h
    exact ⟨46 :: ds, congrArg (46 :: ·) hread.text⟩

theorem FractionRead.ends {base : Nat} {ds t : List Byte} (h : FractionRead base (some ds) t []) (hne : ds ≠ []) :
    EndsInFigure base t := by
  obtain ⟨t', rfl, hread⟩ := h
  exact (hread.ends hne).append (s := [46])

theorem ExponentRead.ends {base : Nat} {e : Exponent} {t : List Byte} (h : ExponentRead base (some e) t []) :
    EndsInFigure base t := by
  obtain ⟨-, -, hne, t', rfl, hread⟩ := h
  exact (hread.ends hne).append

theorem FiguresRead.nil (base : Nat) : FiguresRead base [] [] [] :=
  ⟨rfl, fun _ h => (nomatch h), fun _ h => (nomatch h)⟩

theorem FractionRead.nil (base : Nat) : FractionRead base none [] [] := ⟨rfl, fun _ h => (nomatch h)⟩

theorem ExponentRead.nil (base : Nat) : ExponentRead base none [] [] := ⟨rfl, fun _ h => (nomatch h)⟩

theorem Bio.On.pos_of_singleton {b : Bio} {c : Byte} (h : b.On [c]) : b.pos = b.data.length :=
  Nat.succ.inj h.pos_eq

namespace Lexer

variable {base rounds : Nat} {b : Bio} {c : Byte} {t rest : List Byte} {hasInteger : Bool} {p : NumParts} {L : Numeral}

/-- What becomes of a numeral that reaches the end of the source. -/
def EndsAt {α : Type} (base : Nat) (t : List Byte) (b : Bio) (result : Option (Except NumError (α × Bio))) : Prop :=
  (result = none ∧ EndsInFigure base t) ∨
    (∃ a b', result = some (.ok (a, b')) ∧ b'.data = b.data ∧ b'.pos = b.data.length) ∨ ∃ e, result = some (.error e)

/-- A numeral that something follows, or that reaches the end, or an error. -/
theorem readParts_cases (base : Nat) (hasInteger : Bool) (h : b.On t) (hrounds : t.length < rounds) :
    (∃ (p : NumParts) (c : Byte) (rest : List Byte), p.Reads base t (c :: rest) ∧ (hasInteger ∨ p.HasFigures)) ∨
      (∃ p : NumParts, p.Reads base t [] ∧ (hasInteger ∨ p.HasFigures) ∧
        EndsAt base t b (readParts rounds base hasInteger b)) ∨
      ∃ e, readParts rounds base hasInteger b = some (.error e) := by
  have hpos : 0 < rounds := Nat.zero_lt_of_lt hrounds
  unfold readParts
  rcases readInteger_cases base hasInteger h hpos with ⟨ds, c, r, hint, hsome⟩ | ⟨hint, hrun⟩ | ⟨e, he⟩
  rotate_left
  · rw [Scan.bind_running hrun]
    exact .inr (.inl ⟨⟨t, none, none⟩, ⟨[], [], hint, .nil base, .nil base⟩, .inr (.inl h.ne_nil),
      .inl ⟨rfl, hint.ends h.ne_nil⟩⟩)
  · rw [Scan.bind_error he]
    exact .inr (.inr ⟨e, rfl⟩)
  obtain ⟨has, b₁, h₁, hdata₁, hon₁, hhas⟩ := readInteger_read hint h hrounds hsome
  rw [Scan.bind_ok h₁]
  dsimp only
  rcases readFraction_cases base hon₁ hpos with ⟨frac, c₂, r₂, hfrac⟩ | ⟨ds₂, hne, hfrac, hrun⟩ | ⟨hdot, h₂⟩
  rotate_left
  · rw [Scan.bind_running hrun]
    exact .inr (.inl ⟨⟨ds, some ds₂, none⟩, ⟨_, [], hint, hfrac, .nil base⟩, .inr (.inr hne),
      .inl ⟨rfl, hint.text ▸ (hfrac.ends hne).append⟩⟩)
  · obtain ⟨rfl, rfl⟩ := List.cons.inj hdot
    rw [Scan.bind_ok h₂]
    dsimp only [Option.getD_some, Option.isSome_some]
    by_cases hnumber : has = true
    · have hexp : readExponent rounds base b₁ = some (.ok (0, b₁)) := by
        have hlast : b₁.last = 46 := hon₁.last
        unfold readExponent
        rw [Scan.get_bind, hlast, if_neg (by decide)]
        rfl
      rw [if_neg (fun hno => hno.2 (.inl hnumber)), Scan.bind_ok hexp]
      refine .inr (.inl ⟨⟨ds, some [], none⟩, ⟨_, [], hint, ⟨[], rfl, .nil base⟩, .nil base⟩, ?_,
        .inr (.inl ⟨_, b₁, rfl, hdata₁, hdata₁ ▸ hon₁.pos_of_singleton⟩)⟩)
      rcases hhas.mp hnumber with hhas' | hne | hne
      · exact .inl hhas'
      · exact .inr (.inl hne)
      · exact absurd rfl hne
    · rw [if_pos ⟨rfl, fun hyes => hyes.elim hnumber (fun hlt => absurd hlt (Nat.lt_irrefl 0))⟩]
      exact .inr (.inr ⟨_, rfl⟩)
  obtain ⟨b₂, h₂, hdata₂, hon₂⟩ := readFraction_read hfrac hon₁ (Nat.lt_of_le_of_lt hint.length_le hrounds)
  rw [Scan.bind_ok h₂, fraction_getD]
  dsimp only
  rw [Option.isSome_map]
  by_cases hno : frac.isSome = true ∧ ¬ (has = true ∨ 0 < (frac.getD []).length)
  · rw [if_pos hno]
    exact .inr (.inr ⟨_, rfl⟩)
  rw [if_neg hno]
  have hfigures : hasInteger = true ∨ ds ≠ [] ∨ frac.getD [] ≠ [] := by
    cases frac with
    | none =>
      rcases hsome with hhas' | hne | hc
      · exact .inl hhas'
      · exact .inr (.inl hne)
      · obtain ⟨hr, hnot⟩ := hfrac
        exact absurd hc (hnot c (hr ▸ rfl))
    | some ds₂ =>
      obtain ⟨t', ht', -⟩ := hfrac
      obtain ⟨rfl, -⟩ := List.cons.inj ht'
      by_cases hlen : 0 < ds₂.length
      · exact .inr (.inr (List.ne_nil_of_length_pos hlen))
      · have hyes : has = true := by
          by_contra hnot
          exact hno ⟨rfl, fun hor => hor.elim hnot hlen⟩
        rcases hhas.mp hyes with hhas' | hne | hne
        · exact .inl hhas'
        · exact .inr (.inl hne)
        · exact absurd rfl hne
  rcases readExponent_cases base hon₂ hpos with ⟨exp, c₃, r₃, hexp⟩ | ⟨e, hexp, hrun⟩ | ⟨e, he⟩
  · exact .inl ⟨⟨ds, frac, exp⟩, c₃, r₃, ⟨_, _, hint, hfrac, hexp⟩, hfigures⟩
  · obtain ⟨s, hs⟩ := hfrac.exists_append
    have hends : EndsInFigure base (c :: r) := hs ▸ hexp.ends.append
    rw [Scan.bind_running hrun]
    exact .inr (.inl ⟨⟨ds, frac, some e⟩, ⟨_, _, hint, hfrac, hexp⟩, hfigures, .inl ⟨rfl, hint.text ▸ hends.append⟩⟩)
  · rw [Scan.bind_error he]
    exact .inr (.inr ⟨e, rfl⟩)

theorem readParts_end (h : b.On [c]) (hfigure : ¬ IsDigit base c) (hdot : (c.toNat : Int) ≠ 46)
    (hmarker : ¬ isMarker c.toNat = true) (hrounds : 0 < rounds) :
    ∃ a, readParts rounds base true b = some (.ok (a, b)) := by
  have hint : readInteger rounds base true b = some (.ok ((true, 0), b)) := by
    unfold readInteger
    rw [Scan.get_bind, h.last, if_neg hdot, Scan.bind_ok (parseNum_none h hfigure hrounds)]
    rfl
  have hfrac : readFraction rounds base b = some (.ok (none, b)) := by
    unfold readFraction
    rw [Scan.get_bind, h.last, if_neg hdot]
    rfl
  have hexp : readExponent rounds base b = some (.ok (0, b)) := by
    unfold readExponent
    rw [Scan.get_bind, h.last, if_neg hmarker]
    rfl
  have hno : ¬ ((none : Option (Nat × Nat)).isSome = true ∧ ¬ (true = true ∨ 0 < 0)) := fun hn => nomatch hn.1
  unfold readParts
  rw [Scan.bind_ok hint]
  dsimp only
  rw [Scan.bind_ok hfrac]
  dsimp only [Option.getD_none]
  rw [if_neg hno, Scan.bind_ok hexp]
  exact ⟨_, rfl⟩

/-- The scanner behind a base prefix that reaches the end. -/
def EndsBase (rounds base : Nat) (b : Bio) : Prop :=
  (∃ e, readBase rounds b = some (.error e)) ∨
    ∃ x b', readBase rounds b = some (.ok (some base, b')) ∧ b'.data = b.data ∧ b'.On [x] ∧ ¬ IsDigit base x ∧
      (x.toNat : Int) ≠ 46 ∧ ¬ isMarker x.toNat = true

/-- A base in parentheses is an `int`. -/
def BaseFits (t : List Byte) : Prop :=
  ∀ ds rest, t = 48 :: 110 :: 40 :: (ds ++ rest) → (∀ d ∈ ds, IsDigit 10 d) → valueOf 10 ds < 2 ^ 31

/-- What a zero with something behind it starts. -/
theorem readBase_cases {r : List Byte} (h : b.On (48 :: c :: r)) (hfits : BaseFits (48 :: c :: r))
    (hrounds : r.length < rounds) :
    (∃ pre base t, PrefixRead pre base (48 :: c :: r) t ∧ (t ≠ [] ∨ EndsBase rounds base b)) ∨
      (∃ base b', readBase rounds b = some (.ok (some base, b')) ∧ 36 < base) ∨
      ∃ e, readBase rounds b = some (.error e) := by
  by_cases hletter : c ∈ baseLetters
  swap
  · refine .inl ⟨[], 10, 48 :: c :: r, .none fun c' t' heq => ?_, .inl (List.cons_ne_nil _ _)⟩
    obtain rfl : c = c' := (List.cons.inj (List.cons.inj heq).2).1
    exact hletter
  -- a letter and nothing else, or something behind it
  have hsimple (base : Nat) (hmem : (c, base) ∈ [((118 : Byte), 20), (120, 16), (111, 8), (113, 4), (98, 2)])
      (hfigure : ¬ IsDigit base c) (hdot : (c.toNat : Int) ≠ 46) (hmarker : ¬ isMarker c.toNat = true)
      (hread : r = [] → readBase rounds b = some (.ok (some base, b.advance 1))) :
      ∃ pre base t, PrefixRead pre base (48 :: c :: r) t ∧ (t ≠ [] ∨ EndsBase rounds base b) := by
    refine ⟨_, _, r, .letter hmem, ?_⟩
    cases r with
    | nil => exact .inr (.inr ⟨c, _, hread rfl, rfl, h.tail, hfigure, hdot, hmarker⟩)
    | cons a r => exact .inl (List.cons_ne_nil _ _)
  have hstart : readBase rounds b = _ := Scan.getchar_on h
  simp only [baseLetters, List.mem_cons, List.not_mem_nil, or_false] at hletter
  rcases hletter with rfl | rfl | rfl | rfl | rfl | rfl | rfl
  · refine .inl (hsimple 20 (by decide) (by decide) (by decide) (by decide) ?_)
    rintro rfl
    exact hstart.trans (Scan.getchar_end h.tail)
  · refine .inl (hsimple 16 (by decide) (by decide) (by decide) (by decide) ?_)
    rintro rfl
    exact hstart.trans (Scan.getchar_end h.tail)
  · -- decimal and duodecimal
    cases r with
    | nil =>
      refine .inl ⟨_, _, [], .decimal fun _ hc => (nomatch hc), .inr (.inl ⟨.noNumber, ?_⟩)⟩
      exact hstart.trans (Scan.getchar_end h.tail)
    | cons a r =>
      by_cases ha : a = 100
      · subst ha
        refine .inl ⟨_, _, r, .duodecimal, ?_⟩
        cases r with
        | nil =>
          refine .inr (.inr ⟨100, (b.advance 1).advance 1, ?_, rfl, h.tail.tail, by decide, by decide, by decide⟩)
          refine hstart.trans ?_
          show (Scan.getchar >>= _) _ = _
          rw [Scan.getchar_on h.tail]
          show (Scan.getchar >>= _) _ = _
          rw [Scan.getchar_end h.tail.tail]
          rfl
        | cons a r => exact .inl (List.cons_ne_nil _ _)
      · refine .inl ⟨_, _, a :: r, .decimal fun c hc => ?_, .inl (List.cons_ne_nil _ _)⟩
        obtain rfl := Option.some.inj hc
        exact ha
  · refine .inl (hsimple 8 (by decide) (by decide) (by decide) (by decide) ?_)
    rintro rfl
    exact hstart.trans (Scan.getchar_end h.tail)
  · refine .inl (hsimple 4 (by decide) (by decide) (by decide) (by decide) ?_)
    rintro rfl
    exact hstart.trans (Scan.getchar_end h.tail)
  · refine .inl (hsimple 2 (by decide) (by decide) (by decide) (by decide) ?_)
    rintro rfl
    exact hstart.trans (Scan.getchar_end h.tail)
  · -- a base in parentheses
    cases r with
    | nil =>
      refine .inr (.inr ⟨.badBase, hstart.trans ?_⟩)
      exact Scan.getchar_end h.tail
    | cons a u =>
      by_cases ha : a = 40
      · subst ha
        have hrange (ds rest : List Byte) (hu : u = ds ++ rest) (hds : ∀ d ∈ ds, IsDigit 10 d) :
            valueOf 10 ds < 2 ^ 31 := hfits ds rest (by rw [hu]) hds
        have hlt : u.length < rounds := Nat.lt_of_succ_lt hrounds
        have hopen : readBase rounds b = (parseBase rounds 0 >>= fun base =>
            if base < 2 then throw .badBase else return some base) ((b.advance 1).advance 1) :=
          hstart.trans (Scan.getchar_on h.tail)
        rcases parseBase_cases h.tail.tail hrange hlt with ⟨ds, rest, rfl, hds⟩ | ⟨e, he⟩
        · have hdslt : ds.length < rounds := by
            rw [List.length_append] at hlt
            omega
          obtain ⟨b', hb', hdata, hon⟩ := parseBase_read h.tail.tail hds (hrange ds _ rfl hds) hdslt
          rw [Scan.bind_ok hb'] at hopen
          by_cases hlow : valueOf 10 ds < 2
          · rw [if_pos hlow] at hopen
            exact .inr (.inr ⟨_, hopen⟩)
          · rw [if_neg hlow] at hopen
            by_cases hhigh : valueOf 10 ds ≤ 36
            · refine .inl ⟨_, _, rest, .parens hds (Nat.not_lt.mp hlow) hhigh, ?_⟩
              cases rest with
              | nil =>
                refine .inr (.inr ⟨41, b', hopen, hdata, hon, fun hf => isDigit_ne_close hf rfl, by decide, by decide⟩)
              | cons a r => exact .inl (List.cons_ne_nil _ _)
            · exact .inr (.inl ⟨_, b', hopen, Nat.not_le.mp hhigh⟩)
        · rw [Scan.bind_error he] at hopen
          exact .inr (.inr ⟨e, hopen⟩)
      · refine .inr (.inr ⟨.badBase, hstart.trans ?_⟩)
        show (Scan.getchar >>= _) _ = _
        rw [Scan.getchar_on h.tail, if_pos (byte_ne (k := 40) ha rfl)]
        rfl

end Lexer

/-! ## The scanner -/

/-- A character that a numeral can start with. -/
def StartsNumber (c : Byte) : Prop := IsDigit 10 c ∨ c = 46

instance (c : Byte) : Decidable (StartsNumber c) := inferInstanceAs (Decidable (_ ∨ _))

namespace PrefixRead

variable {pre t u : List Byte} {base : Nat} {c : Byte}

theorem bounds (h : PrefixRead pre base t u) : 2 ≤ base ∧ base ≤ 36 := by
  cases h with
  | none | decimal | duodecimal => decide
  | letter hmem =>
    simp only [List.mem_cons, List.not_mem_nil, or_false, Prod.mk.injEq] at hmem
    rcases hmem with ⟨-, rfl⟩ | ⟨-, rfl⟩ | ⟨-, rfl⟩ | ⟨-, rfl⟩ | ⟨-, rfl⟩
    all_goals decide
  | parens _ hlow hhigh => exact ⟨hlow, hhigh⟩

theorem exists_append (h : PrefixRead pre base t u) : t = pre ++ u := by
  cases h with
  | none | decimal | duodecimal | letter => rfl
  | parens =>
    rw [List.cons_append, List.cons_append, List.cons_append, List.append_assoc]
    rfl

/-- Only a zero starts a base prefix. -/
theorem eq_none (h : PrefixRead pre base (c :: t) u) (hc : c ≠ 48) : pre = [] ∧ base = 10 ∧ u = c :: t := by
  generalize hs : c :: t = s at h
  cases h with
  | none => exact ⟨rfl, rfl, rfl⟩
  | letter | decimal | duodecimal | parens => exact absurd (List.cons.inj hs).1 hc

end PrefixRead

theorem NumParts.Reads.length_le {p : NumParts} {base : Nat} {t rest : List Byte} (h : p.Reads base t rest) :
    rest.length ≤ t.length := by
  obtain ⟨t₁, t₂, hint, hfrac, hexp⟩ := h
  exact Nat.le_trans hexp.length_le (Nat.le_trans hfrac.length_le hint.length_le)

/-- A zero that something follows is a numeral by itself, or starts a longer one. -/
theorem Numeral.Reads.two_le {L : Numeral} {t rest : List Byte} {c : Byte} (h : L.Reads (48 :: t) (c :: rest)) :
    t ≠ [] := by
  rintro rfl
  obtain ⟨pre, base, p⟩ := L
  obtain ⟨⟨u, hpre, hparts⟩, -⟩ := h
  dsimp only at hpre hparts
  generalize hs : [(48 : Byte)] = s at hpre
  cases hpre with
  | none =>
    subst hs
    obtain ⟨t₁, t₂, hint, hfrac, hexp⟩ := hparts
    obtain ⟨a, r, rfl⟩ : ∃ a r, t₁ = a :: r :=
      List.exists_cons_of_length_pos (Nat.lt_of_lt_of_le (Nat.succ_pos _) (Nat.le_trans hexp.length_le hfrac.length_le))
    cases hds : p.int with
    | nil =>
      have htext := hint.text
      rw [hds] at htext
      obtain ⟨rfl, -⟩ := List.cons.inj htext
      exact hint.stops 48 rfl (by decide)
    | cons d ds =>
      have htext := congrArg List.length hint.text
      rw [hds, List.length_append] at htext
      simp only [List.length_cons, List.length_nil] at htext
      omega
  | letter | decimal | duodecimal | parens => cases (List.cons.inj hs).2

/-- Behind a zero, a numeral has a base prefix or figures. -/
theorem PrefixRead.hasFigures {pre t u rest : List Byte} {base : Nat} {p : NumParts}
    (h : PrefixRead pre base (48 :: t) u) (hparts : p.Reads base u rest) : pre ≠ [] ∨ p.HasFigures := by
  generalize hs : 48 :: t = s at h
  cases h with
  | none =>
    subst hs
    obtain ⟨t₁, t₂, hint, -, -⟩ := hparts
    refine .inr (.inl fun hds => ?_)
    have htext := hint.text
    rw [hds, List.nil_append] at htext
    exact hint.stops 48 (htext ▸ rfl) (by decide)
  | letter | decimal | duodecimal | parens => exact .inl (List.cons_ne_nil _ _)

namespace Lexer

variable {base rounds : Nat} {b : Bio} {c : Byte} {t rest : List Byte} {L : Numeral}

theorem EndsAt.of_data {α : Type} {s : List Byte} {b₁ : Bio} {result : Option (Except NumError (α × Bio))}
    (h : EndsAt base t b₁ result) (hdata : b₁.data = b.data) : EndsAt base (s ++ t) b result := by
  rcases h with ⟨hrun, hends⟩ | ⟨a, b', hok, hdata', hpos⟩ | herror
  · exact .inl ⟨hrun, hends.append⟩
  · exact .inr (.inl ⟨a, b', hok, hdata'.trans hdata, hpos.trans (congrArg List.length hdata)⟩)
  · exact .inr (.inr herror)

theorem readNum_zero (h : b.On (48 :: t)) : readNum rounds b = (readBase rounds >>= fun
    | none => return (false, 0)
    | some base => if 36 < base then throw .bigBase else readParts rounds base true) b := by
  have hlast : b.last = 48 := h.last
  unfold readNum
  rw [Scan.get_bind, hlast, if_neg (by decide)]
  rfl

theorem readNum_of_ne_zero (h : b.On (c :: t)) (hstart : StartsNumber c) (hc : c ≠ 48) :
    readNum rounds b = readParts rounds 10 false b := by
  have hnumber : ¬ (¬ isNum c.toNat = true ∧ (c.toNat : Int) ≠ 46) := by
    rintro ⟨hnum, hdot⟩
    rcases hstart with hfigure | rfl
    · exact hnum (isNum_iff.mpr hfigure)
    · exact hdot rfl
  unfold readNum
  rw [Scan.get_bind, h.last, if_neg hnumber, if_neg (byte_ne (k := 48) hc rfl)]

/-- A numeral that something follows is read, and what follows is left. -/
theorem readNum_read (hread : L.Reads t (c :: rest)) (h : b.On t) (hstart : ∀ d ∈ t.head?, StartsNumber d)
    (hrounds : t.length < rounds) :
    ∃ b', readNum rounds b = some (.ok ((L.isReal, L.value), b')) ∧ b'.data = b.data ∧ b'.On (c :: rest) := by
  obtain ⟨d, r, rfl⟩ := List.exists_cons_of_ne_nil h.ne_nil
  have hwhole := hread
  obtain ⟨⟨u, hpre, hparts⟩, hsome⟩ := hread
  by_cases hd : d = 48
  · subst hd
    obtain ⟨a, r, rfl⟩ := List.exists_cons_of_ne_nil hwhole.two_le
    have hu : u ≠ [] := by
      rintro rfl
      exact absurd hparts.length_le (by simp)
    have hr : r.length < rounds := by
      simp only [List.length_cons] at hrounds
      omega
    obtain ⟨b₁, h₁, hdata₁, hon₁⟩ := readBase_read hpre hu h hr
    have hlen : u.length < rounds := by
      have htext := congrArg List.length hpre.exists_append
      simp only [List.length_cons, List.length_append] at htext hrounds
      omega
    have hinteger : true ∨ L.parts.HasFigures := .inl rfl
    obtain ⟨b₂, h₂, hdata₂, hon₂⟩ := readParts_read hparts hon₁ hlen hinteger
    refine ⟨b₂, ?_, hdata₂.trans hdata₁, hon₂⟩
    rw [readNum_zero h, Scan.bind_ok h₁]
    dsimp only
    rw [if_neg (Nat.not_lt.mpr hpre.bounds.2), h₂]
    rfl
  · obtain ⟨hnone, hbase, rfl⟩ := hpre.eq_none hd
    have hfigures : L.parts.HasFigures := hsome.resolve_left fun hne => hne hnone
    rw [hbase] at hparts
    have hinteger : false ∨ L.parts.HasFigures := .inr hfigures
    obtain ⟨b', h', hdata, hon⟩ := readParts_read hparts h hrounds hinteger
    refine ⟨b', ?_, hdata, hon⟩
    rw [readNum_of_ne_zero h (hstart d rfl) hd, h']
    unfold Numeral.value
    rw [hbase]
    rfl

/-- A numeral that something follows, or that reaches the end of the source, or an error. -/
theorem readNum_cases (h : b.On t) (hstart : ∀ d ∈ t.head?, StartsNumber d) (hfits : BaseFits t)
    (hrounds : t.length < rounds) :
    (∃ (L : Numeral) (c : Byte) (rest : List Byte), L.Reads t (c :: rest)) ∨
      (∃ L : Numeral, L.Reads t [] ∧ EndsAt L.base t b (readNum rounds b)) ∨
      ∃ e, readNum rounds b = some (.error e) := by
  obtain ⟨d, r, rfl⟩ := List.exists_cons_of_ne_nil h.ne_nil
  have hpos : 0 < rounds := Nat.zero_lt_of_lt hrounds
  by_cases hd : d = 48
  · subst hd
    rw [readNum_zero h]
    cases r with
    | nil =>
      -- a zero, and the end
      refine .inr (.inl ⟨⟨[], 10, [48], none, none⟩,
        ⟨⟨[48], .none fun c t' heq => ?_, [], [], ?_, .nil 10, .nil 10⟩, ?_⟩, ?_⟩)
      · cases heq
      · refine ⟨rfl, fun c hc => ?_, fun _ hc => (nomatch hc)⟩
        obtain rfl := List.mem_singleton.mp hc
        decide
      · exact .inr (.inl (List.cons_ne_nil _ _))
      · have hread : readBase rounds b = some (.ok (none, b)) := Scan.getchar_end h
        rw [Scan.bind_ok hread]
        exact .inr (.inl ⟨_, b, rfl, rfl, h.pos_of_singleton⟩)
    | cons c r =>
      have hr : r.length < rounds := by
        simp only [List.length_cons] at hrounds
        omega
      rcases readBase_cases h hfits hr with ⟨pre, base, u, hpre, hu⟩ | ⟨base, b', hbase, hbig⟩ | ⟨e, he⟩
      rotate_left
      · rw [Scan.bind_ok hbase]
        dsimp only
        rw [if_pos hbig]
        exact .inr (.inr ⟨_, rfl⟩)
      · rw [Scan.bind_error he]
        exact .inr (.inr ⟨e, rfl⟩)
      have htext := hpre.exists_append
      by_cases hu' : u = []
      · -- nothing follows the base prefix
        subst hu'
        have hpre' : pre ≠ [] := by
          rintro rfl
          cases htext
        have hreads : (⟨pre, base, [], none, none⟩ : Numeral).Reads (48 :: c :: r) [] :=
          ⟨⟨[], hpre, [], [], .nil base, .nil base, .nil base⟩, .inl hpre'⟩
        refine .inr (.inl ⟨_, hreads, ?_⟩)
        rcases hu.resolve_left (fun hne => hne rfl) with ⟨e, he⟩ | ⟨x, b', hb', hdata, hon, hfigure, hdot, hmarker⟩
        · rw [Scan.bind_error he]
          exact .inr (.inr ⟨e, rfl⟩)
        · obtain ⟨a, ha⟩ := readParts_end hon hfigure hdot hmarker hpos
          rw [Scan.bind_ok hb']
          dsimp only
          rw [if_neg (Nat.not_lt.mpr hpre.bounds.2), ha]
          exact .inr (.inl ⟨a, b', rfl, hdata, hdata ▸ hon.pos_of_singleton⟩)
      · obtain ⟨b₁, h₁, hdata₁, hon₁⟩ := readBase_read hpre hu' h hr
        have hlen : u.length < rounds := by
          have hlen := congrArg List.length htext
          simp only [List.length_cons, List.length_append] at hlen hrounds
          omega
        rw [Scan.bind_ok h₁]
        dsimp only
        rw [if_neg (Nat.not_lt.mpr hpre.bounds.2)]
        rcases readParts_cases base true hon₁ hlen with ⟨p, c', rest, hread, -⟩ | ⟨p, hread, -, hends⟩ | ⟨e, he⟩
        · exact .inl ⟨⟨pre, base, p⟩, c', rest, ⟨u, hpre, hread⟩, hpre.hasFigures hread⟩
        · refine .inr (.inl ⟨⟨pre, base, p⟩, ⟨⟨u, hpre, hread⟩, hpre.hasFigures hread⟩, ?_⟩)
          rw [htext]
          exact hends.of_data hdata₁
        · exact .inr (.inr ⟨e, he⟩)
  · have hpre : PrefixRead [] 10 (d :: r) (d :: r) := .none fun c t' heq => absurd (List.cons.inj heq).1 hd
    rw [readNum_of_ne_zero h (hstart d rfl) hd]
    rcases readParts_cases 10 false h hrounds with ⟨p, c', rest, hread, hsome⟩ | ⟨p, hread, hsome, hends⟩ | ⟨e, he⟩
    · exact .inl ⟨⟨[], 10, p⟩, c', rest, ⟨_, hpre, hread⟩, .inr (hsome.resolve_left Bool.false_ne_true)⟩
    · exact .inr (.inl ⟨⟨[], 10, p⟩, ⟨⟨_, hpre, hread⟩, .inr (hsome.resolve_left Bool.false_ne_true)⟩, hends⟩)
    · exact .inr (.inr ⟨e, he⟩)

end Lexer

end Eel
