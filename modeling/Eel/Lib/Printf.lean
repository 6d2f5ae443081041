-- SUMMARY: Numbers as printf writes them, in decimal figures and to so many significant ones, and that these are JSON numbers.
import Eel.Lib.Json

/-!
# Numbers as text

What the conversions `%d` and `%g` of C make of exact numbers. A number is rounded to the
nearest one with so many significant figures, to one with an even last figure where two are as
near. How it is written depends on its exponent after that.
-/

namespace Printf

open Json

def digit (n : Nat) : BitVec 8 := BitVec.ofNat 8 (48 + n)

/-- The figures of a number, with no zeros in front. -/
def decimal (n : Nat) : Bytes := if n = 0 then [48] else (Nat.digits 10 n).reverse.map digit

/-- `%d`. -/
def d (v : ℤ) : Bytes := signText (v < 0) ++ decimal v.natAbs

/-- A quotient, rounded to the nearest integer. -/
def roundDiv (num den : Nat) : Nat :=
  if 2 * (num % den) < den ∨ 2 * (num % den) = den ∧ num / den % 2 = 0 then num / den else num / den + 1

/-- The exponent of the power of 10 that is next below. -/
def exponent (num den : Nat) : ℤ :=
  if den ≤ num then Nat.log 10 (num / den) else -Nat.clog 10 ((den + num - 1) / num)

/-- The significant figures, one before the point and `p` behind it, and the exponent: what `%e` writes. -/
def significant (p num den : Nat) : Nat × ℤ :=
  let x := exponent num den
  let s := roundDiv (num * 10 ^ (p - x).toNat) (den * 10 ^ (x - p).toNat)
  if s = 10 ^ (p + 1) then (10 ^ p, x + 1) else (s, x)

/-- Zeros at the end are left out. -/
def dropZeros (ds : Bytes) : Bytes := ds.rdropWhile fun c => c = 48

def point (ds : Bytes) : Bytes := if ds = [] then [] else 46 :: ds

/-- An exponent has two figures at least. -/
def expText (x : ℤ) : Bytes :=
  101 :: (if x < 0 then 45 else 43) :: if x.natAbs < 10 then 48 :: decimal x.natAbs else decimal x.natAbs

/-- `%g` of these significant figures. -/
def gText (p s : Nat) (x : ℤ) : Bytes :=
  let ds := decimal s
  if x < -4 ∨ p < x then ds.take 1 ++ point (dropZeros (ds.drop 1)) ++ expText x
  else if 0 ≤ x then ds.take (x.toNat + 1) ++ point (dropZeros (ds.drop (x.toNat + 1)))
  else [48] ++ point (dropZeros (List.replicate (-x - 1).toNat 48 ++ ds))

/-- `%g` of a quotient, with its sign and a precision of `p + 1`. -/
def g (p : Nat) (negative : Bool) (num den : Nat) : Bytes :=
  signText negative ++ if num = 0 then [48] else gText p (significant p num den).1 (significant p num den).2

/-! ## Figures -/

variable {n p k num den : Nat} {x : ℤ} {ds : Bytes} {c : BitVec 8}

theorem toNat_digit (h : n < 10) : (digit n).toNat = 48 + n := by
  unfold digit
  rw [BitVec.toNat_ofNat]
  omega

theorem isDigit_digit (h : n < 10) : IsDigit (digit n) := by
  unfold IsDigit
  rw [toNat_digit h]
  omega

theorem isDigit_zero : IsDigit 48 := by
  unfold IsDigit
  decide

theorem digitsValue_digits {l : List Nat} (h : ∀ n ∈ l, n < 10) :
    digitsValue (l.reverse.map digit) = Nat.ofDigits 10 l := by
  induction l with
  | nil => rfl
  | cons n l ih =>
    have hn : digitsValue [digit n] = n := by
      show 0 * 10 + ((digit n).toNat - 48) = n
      rw [toNat_digit (h n List.mem_cons_self)]
      omega
    rw [List.reverse_cons, List.map_append, digitsValue_append, ih fun m hm => h m (List.mem_cons_of_mem n hm),
      Nat.ofDigits_cons, List.map_singleton, hn, List.length_singleton, pow_one, mul_comm, add_comm]

theorem digitsValue_decimal (n : Nat) : digitsValue (decimal n) = n := by
  unfold decimal
  split
  · rename_i h
    rw [h]
    rfl
  · rw [digitsValue_digits fun m hm => Nat.digits_lt_base (by decide) hm, Nat.ofDigits_digits]

theorem digits_decimal (n : Nat) : Digits (decimal n) := by
  unfold decimal
  split
  · refine ⟨List.cons_ne_nil _ _, fun c hc => ?_⟩
    rw [List.mem_singleton.mp hc]
    exact isDigit_zero
  · rename_i h
    refine ⟨?_, fun c hc => ?_⟩
    · simp [Nat.digits_eq_nil_iff_eq_zero, h]
    · obtain ⟨m, hm, rfl⟩ := List.mem_map.mp hc
      exact isDigit_digit (Nat.digits_lt_base (by decide) (List.mem_reverse.mp hm))

/-- The first figure of a number that is not 0 is not 0 either. -/
theorem head_decimal (h : n ≠ 0) : (decimal n).head? ≠ some 48 := by
  have hne : Nat.digits 10 n ≠ [] := Nat.digits_ne_nil_iff_ne_zero.mpr h
  have hlt : (Nat.digits 10 n).getLast hne < 10 := Nat.digits_lt_base (by decide) (List.getLast_mem hne)
  unfold decimal
  rw [if_neg h, List.head?_map, List.head?_reverse, List.getLast?_eq_some_getLast hne, Option.map_some]
  intro heq
  have hzero := congrArg BitVec.toNat (Option.some.inj heq)
  rw [toNat_digit hlt] at hzero
  have hlast := Nat.getLast_digit_ne_zero 10 h
  have : (48 : BitVec 8).toNat = 48 := rfl
  omega

theorem whole_decimal (n : Nat) : Whole (decimal n) := by
  refine ⟨digits_decimal n, fun hhead => ?_⟩
  by_cases h : n = 0
  · rw [h]
    rfl
  · exact (head_decimal h hhead).elim

theorem length_decimal (hle : 10 ^ p ≤ n) (hlt : n < 10 ^ (p + 1)) : (decimal n).length = p + 1 := by
  have hn : n ≠ 0 := by
    have := Nat.pow_pos (n := p) (show 0 < 10 by decide)
    omega
  unfold decimal
  rw [if_neg hn, List.length_map, List.length_reverse, Nat.length_digits 10 n (by decide) hn,
    Nat.log_eq_of_pow_le_of_lt_pow hle hlt]

/-- `%d` writes JSON numbers. -/
theorem number_d (v : ℤ) : Number (d v) v := by
  have h : Number (signText (v < 0) ++ decimal v.natAbs ++ [] ++ [])
      (signed (v < 0) (digitsValue (decimal v.natAbs ++ []) * 10 ^ ((0 : ℤ) - ([] : Bytes).length))) :=
    .mk (whole_decimal _) .none .none
  simp only [List.append_nil, digitsValue_decimal, List.length_nil, Nat.cast_zero, sub_zero, zpow_zero, mul_one] at h
  have hvalue : signed (v < 0) (v.natAbs : ℚ) = v := by
    unfold signed
    rw [Nat.cast_natAbs]
    split
    · rename_i hneg
      rw [abs_of_neg (of_decide_eq_true hneg), Int.cast_neg, neg_neg]
    · rename_i hpos
      rw [abs_of_nonneg (not_lt.mp fun hneg => hpos (decide_eq_true hneg))]
  rw [← hvalue]
  exact h

/-! ## Rounding -/

theorem abs_roundDiv_sub (num : Nat) (hden : 0 < den) : |(roundDiv num den : ℚ) - num / den| ≤ 1 / 2 := by
  have hpos : (0 : ℚ) < den := Nat.cast_pos.mpr hden
  have hnum : (num : ℚ) = den * (num / den : Nat) + (num % den : Nat) := by
    exact_mod_cast (Nat.div_add_mod num den).symm
  have hlt : ((num % den : Nat) : ℚ) < den := by exact_mod_cast Nat.mod_lt num hden
  have hquot : (num : ℚ) / den = (num / den : Nat) + (num % den : Nat) / den := by
    rw [hnum]
    field_simp
  have hnonneg : (0 : ℚ) ≤ (num % den : Nat) / den := by positivity
  unfold roundDiv
  rw [hquot, abs_le]
  split
  · rename_i h
    have hle : 2 * ((num % den : Nat) : ℚ) ≤ den := by exact_mod_cast h.elim Nat.le_of_lt fun h => h.1.le
    have hhalf : ((num % den : Nat) : ℚ) / den ≤ 1 / 2 := by
      rw [div_le_iff₀ hpos]
      linarith
    constructor <;> linarith
  · rename_i h
    have hge : (den : ℚ) ≤ 2 * (num % den : Nat) := by exact_mod_cast Nat.le_of_not_lt fun hlt => h (.inl hlt)
    have hhalf : (1 : ℚ) / 2 ≤ (num % den : Nat) / den := by
      rw [le_div_iff₀ hpos]
      linarith
    have hone : ((num % den : Nat) : ℚ) / den < 1 := (div_lt_one hpos).mpr hlt
    push_cast
    constructor <;> linarith

theorem exponent_spec (hnum : 0 < num) (hden : 0 < den) :
    (10 : ℚ) ^ exponent num den ≤ num / den ∧ (num : ℚ) / den < 10 ^ (exponent num den + 1) := by
  have hpos : (0 : ℚ) < den := Nat.cast_pos.mpr hden
  have hpos' : (0 : ℚ) < num := Nat.cast_pos.mpr hnum
  unfold exponent
  split
  · rename_i hle
    have hquot : 0 < num / den := Nat.div_pos hle hden
    constructor
    · rw [zpow_natCast, le_div_iff₀ hpos]
      exact_mod_cast (Nat.le_div_iff_mul_le hden).mp (Nat.pow_log_le_self 10 hquot.ne')
    · rw [← Nat.cast_succ, zpow_natCast, div_lt_iff₀ hpos]
      exact_mod_cast (Nat.div_lt_iff_lt_mul hden).mp (Nat.lt_pow_succ_log_self (by decide) _)
  · rename_i hlt
    have hceil : 1 < (den + num - 1) / num := by
      rw [Nat.lt_iff_add_one_le, Nat.le_div_iff_mul_le hnum]
      omega
    generalize hk : Nat.clog 10 ((den + num - 1) / num) = k
    constructor
    · have hle := (Nat.div_le_iff_le_mul_add_pred hnum).mp (Nat.le_pow_clog (b := 10) (by decide) ((den + num - 1) / num))
      rw [hk] at hle
      have hscaled : den ≤ num * 10 ^ k := by omega
      rw [zpow_neg, zpow_natCast, le_div_iff₀ hpos, inv_mul_le_iff₀ (by positivity), mul_comm]
      exact_mod_cast hscaled
    · have hlt := Nat.pow_pred_clog_lt_self (b := 10) (by decide) hceil
      rw [hk, Nat.lt_iff_add_one_le, Nat.le_div_iff_mul_le hnum, Nat.add_mul, Nat.one_mul] at hlt
      have hscaled : 10 ^ k.pred * num < den := by omega
      have hkpos : 0 < k := by
        rw [← hk]
        exact Nat.clog_pos (by decide) hceil
      have hexp : -(k : ℤ) + 1 = -(k.pred : ℤ) := by
        rw [Nat.pred_eq_sub_one, Nat.cast_pred hkpos]
        ring
      rw [hexp, zpow_neg, zpow_natCast, div_lt_iff₀ hpos, lt_inv_mul_iff₀ (by positivity)]
      exact_mod_cast hscaled

theorem zpow_toNat (k : ℤ) : (10 : ℚ) ^ k.toNat / 10 ^ (-k).toNat = 10 ^ k := by
  obtain ⟨m, rfl | rfl⟩ := k.eq_nat_or_neg
  · simp
  · simp

/-- What is rounded, and what that is of the quotient. -/
theorem significant_spec (hnum : 0 < num) (hden : 0 < den) :
    10 ^ p ≤ (significant p num den).1 ∧ (significant p num den).1 < 10 ^ (p + 1) ∧
      |((significant p num den).1 : ℚ) * 10 ^ ((significant p num den).2 - p) - num / den| ≤ num / den * 10 ^ (-(p : ℤ)) / 2 := by
  obtain ⟨hle, hlt⟩ := exponent_spec hnum hden
  unfold significant
  generalize exponent num den = x at *
  dsimp only
  have hden' : 0 < den * 10 ^ (x - p).toNat := Nat.mul_pos hden (Nat.pow_pos (by decide))
  have hround := abs_roundDiv_sub (num * 10 ^ (p - x).toNat) hden'
  generalize roundDiv (num * 10 ^ (p - x).toNat) (den * 10 ^ (x - p).toNat) = r at *
  have hscaled : ((num * 10 ^ (p - x).toNat : Nat) : ℚ) / (den * 10 ^ (x - p).toNat : Nat) = num / den * 10 ^ (p - x) := by
    rw [← zpow_toNat, neg_sub]
    push_cast
    rw [mul_div_mul_comm]
  rw [hscaled] at hround
  have hpow (k : ℤ) : (0 : ℚ) < 10 ^ k := zpow_pos (by norm_num) k
  -- The scaled quotient has so many figures before the point.
  have hlow : (10 : ℚ) ^ p ≤ num / den * 10 ^ (p - x) := by
    calc (10 : ℚ) ^ p = 10 ^ x * 10 ^ (p - x) := by
          rw [← zpow_add₀ (by norm_num), add_sub_cancel, zpow_natCast]
      _ ≤ num / den * 10 ^ (p - x) := mul_le_mul_of_nonneg_right hle (hpow _).le
  have hhigh : (num : ℚ) / den * 10 ^ (p - x) < 10 ^ (p + 1) := by
    calc (num : ℚ) / den * 10 ^ (p - x) < 10 ^ (x + 1) * 10 ^ (p - x) := mul_lt_mul_of_pos_right hlt (hpow _)
      _ = 10 ^ (p + 1) := by
          rw [← zpow_add₀ (by norm_num), ← zpow_natCast]
          congr 1
          push_cast
          ring
  obtain ⟨hfrom, hto⟩ := abs_le.mp hround
  have hr : 10 ^ p ≤ r := by
    have : (10 : ℚ) ^ p < r + 1 := by linarith
    exact Nat.lt_succ_iff.mp (by exact_mod_cast this)
  have hr' : r ≤ 10 ^ (p + 1) := by
    have : (r : ℚ) < 10 ^ (p + 1) + 1 := by linarith
    exact Nat.lt_succ_iff.mp (by exact_mod_cast this)
  have herror : |(r : ℚ) * 10 ^ (x - p) - num / den| ≤ num / den * 10 ^ (-(p : ℤ)) / 2 := by
    have hback : (num : ℚ) / den = num / den * 10 ^ (p - x) * 10 ^ (x - p) := by
      rw [mul_assoc, ← zpow_add₀ (by norm_num), sub_add_sub_cancel, sub_self, zpow_zero, mul_one]
    calc |(r : ℚ) * 10 ^ (x - p) - num / den| = |(r : ℚ) - num / den * 10 ^ (p - x)| * 10 ^ (x - p) := by
          rw [← abs_of_pos (hpow (x - p)), ← abs_mul, sub_mul, abs_of_pos (hpow (x - p)), ← hback]
      _ ≤ 1 / 2 * 10 ^ (x - p) := mul_le_mul_of_nonneg_right hround (hpow _).le
      _ = 10 ^ x * 10 ^ (-(p : ℤ)) / 2 := by
          rw [sub_eq_add_neg, zpow_add₀ (by norm_num)]
          ring
      _ ≤ num / den * 10 ^ (-(p : ℤ)) / 2 := by
          have := mul_le_mul_of_nonneg_right hle (hpow (-(p : ℤ))).le
          linarith
  split
  · rename_i heq
    refine ⟨le_rfl, Nat.pow_lt_pow_right (by decide) (Nat.lt_succ_self p), ?_⟩
    have hsame : ((10 ^ p : Nat) : ℚ) * 10 ^ (x + 1 - p) = r * 10 ^ (x - p) := by
      rw [heq]
      push_cast
      rw [pow_succ, mul_assoc, ← zpow_one_add₀ (by norm_num)]
      congr 2
      ring
    rw [hsame]
    exact herror
  · rename_i hne
    exact ⟨hr, lt_of_le_of_ne hr' hne, herror⟩

/-! ## What is written -/

theorem dropZeros_append (ds : Bytes) : ∃ k, ds = dropZeros ds ++ List.replicate k 48 := by
  have hsplit : (ds.reverse.takeWhile fun c => c = 48) ++ (ds.reverse.dropWhile fun c => c = 48) = ds.reverse :=
    List.takeWhile_append_dropWhile
  have hzeros : ∃ k, (ds.reverse.takeWhile fun c => c = 48) = List.replicate k 48 :=
    ⟨_, List.eq_replicate_of_mem fun c hc => of_decide_eq_true (List.mem_takeWhile_imp (p := fun c => decide (c = 48)) hc)⟩
  obtain ⟨k, hk⟩ := hzeros
  refine ⟨k, ?_⟩
  rw [hk] at hsplit
  have hreverse := congrArg List.reverse hsplit
  rw [List.reverse_append, List.reverse_replicate, List.reverse_reverse] at hreverse
  exact hreverse.symm

theorem frac_point (h : ∀ c ∈ ds, IsDigit c) : Frac (point ds) ds := by
  unfold point
  split
  · rename_i hnil
    rw [hnil]
    exact .none
  · rename_i hne
    exact .some ⟨hne, h⟩

/-- Zeros at the end of a fraction do not matter. -/
theorem number_text (negative : Bool) (whole frac : Bytes) {exp : Bytes} {e : ℤ} (hwhole : Whole whole)
    (hfrac : ∀ c ∈ frac, IsDigit c) (hexp : Exp exp e) :
    Number (signText negative ++ whole ++ point (dropZeros frac) ++ exp)
      (signed negative (digitsValue (whole ++ frac) * 10 ^ (e - frac.length))) := by
  obtain ⟨k, hk⟩ := dropZeros_append frac
  have hvalue : (digitsValue (whole ++ frac) : ℚ) * 10 ^ (e - frac.length) =
      digitsValue (whole ++ dropZeros frac) * 10 ^ (e - (dropZeros frac).length) := by
    have hlen : (frac.length : ℤ) = (dropZeros frac).length + k := by
      conv_lhs => rw [hk]
      rw [List.length_append, List.length_replicate, Nat.cast_add]
    have hdigits : digitsValue (whole ++ frac) = digitsValue (whole ++ dropZeros frac) * 10 ^ k := by
      conv_lhs => rw [hk]
      rw [← List.append_assoc, digitsValue_append, digitsValue_zeros, List.length_replicate, Nat.add_zero]
    rw [hlen, hdigits]
    push_cast
    rw [mul_assoc, ← zpow_natCast, ← zpow_add₀ (by norm_num)]
    congr 2
    ring
  rw [hvalue]
  refine .mk hwhole (frac_point fun c hc => hfrac c ?_) hexp
  rw [hk]
  exact List.mem_append_left _ hc

theorem exp_expText (x : ℤ) : Exp (expText x) x := by
  have hdigits : Digits (if x.natAbs < 10 then 48 :: decimal x.natAbs else decimal x.natAbs) ∧
      digitsValue (if x.natAbs < 10 then 48 :: decimal x.natAbs else decimal x.natAbs) = x.natAbs := by
    have h := digits_decimal x.natAbs
    split
    · refine ⟨⟨List.cons_ne_nil _ _, fun c hc => ?_⟩, ?_⟩
      · rcases List.mem_cons.mp hc with rfl | hc
        · exact isDigit_zero
        · exact h.2 c hc
      · rw [← List.singleton_append, digitsValue_append, digitsValue_decimal]
        exact (congrArg (· + x.natAbs) (Nat.zero_mul _)).trans (Nat.zero_add _)
    · exact ⟨h, digitsValue_decimal _⟩
  unfold expText
  split
  · rename_i hneg
    have hexp := Exp.minus (.inl rfl) hdigits.1
    rw [hdigits.2] at hexp
    convert hexp using 1
    omega
  · rename_i hpos
    have hexp := Exp.plus (.inl rfl) hdigits.1
    rw [hdigits.2] at hexp
    convert hexp using 1
    omega

/-- The first figures of a number that is not 0. -/
theorem whole_take {s : Nat} (hs : s ≠ 0) (hk : 0 < k) : Whole ((decimal s).take k) := by
  obtain ⟨hne, hdigits⟩ := digits_decimal s
  refine ⟨⟨?_, fun c hc => hdigits c (List.mem_of_mem_take hc)⟩, fun hhead => ?_⟩
  · rw [Ne, List.take_eq_nil_iff]
    exact fun h => h.elim hk.ne' hne
  · rw [List.head?_take, if_neg hk.ne'] at hhead
    exact (head_decimal hs hhead).elim

theorem number_gText {negative : Bool} {s : Nat} (hle : 10 ^ p ≤ s) (hlt : s < 10 ^ (p + 1)) :
    Number (signText negative ++ gText p s x) (signed negative (s * 10 ^ (x - p))) := by
  have hlen := length_decimal hle hlt
  have hs : s ≠ 0 := by
    have := Nat.pow_pos (n := p) (show 0 < 10 by decide)
    omega
  have hdigit (c : BitVec 8) (hc : c ∈ decimal s) : IsDigit c := (digits_decimal s).2 c hc
  -- Wherever the point is, the figures are these.
  have hsplit (k : Nat) (hk : k ≤ p) {exp : Bytes} {e : ℤ} (hexp : Exp exp e) (hx : e + k = x) :
      Number (signText negative ++ ((decimal s).take (k + 1) ++ point (dropZeros ((decimal s).drop (k + 1))) ++ exp))
        (signed negative (s * 10 ^ (x - p))) := by
    have h := number_text negative ((decimal s).take (k + 1)) ((decimal s).drop (k + 1)) (whole_take hs k.succ_pos)
      (fun c hc => hdigit c (List.mem_of_mem_drop hc)) hexp
    rw [List.take_append_drop, digitsValue_decimal, List.length_drop, hlen] at h
    have hexponent : e - ((p + 1 - (k + 1) : Nat) : ℤ) = x - p := by omega
    rw [hexponent] at h
    simpa only [List.append_assoc] using h
  unfold gText
  dsimp only
  split
  · exact hsplit 0 (Nat.zero_le p) (exp_expText x) (by simp)
  · rename_i hfixed
    split
    · rename_i hpos
      have h := hsplit x.toNat (by omega) .none (by omega)
      rwa [List.append_nil] at h
    · rename_i hneg
      have h := number_text negative [48] (List.replicate (-x - 1).toNat 48 ++ decimal s) (whole_decimal 0) (fun c hc => ?_)
        .none
      · rw [← List.append_assoc, digitsValue_append, digitsValue_decimal, List.length_append, List.length_replicate, hlen,
          ← List.replicate_one, ← List.replicate_add, digitsValue_zeros, Nat.zero_mul, Nat.zero_add] at h
        have hexponent : (0 : ℤ) - (((-x - 1).toNat + (p + 1) : Nat) : ℤ) = x - p := by omega
        rw [hexponent] at h
        simpa only [List.append_assoc, List.append_nil, List.replicate_one] using h
      · rcases List.mem_append.mp hc with hc | hc
        · rw [List.eq_of_mem_replicate hc]
          exact isDigit_zero
        · exact hdigit c hc

theorem signed_sub (negative : Bool) (q q' : ℚ) : |signed negative q - signed negative q'| = |q - q'| := by
  cases negative with
  | false => rfl
  | true => exact (congrArg abs (neg_sub_neg q q')).trans (abs_sub_comm q' q)

/-- `%g` writes JSON numbers, which differ from what is written by half a unit of the last figure at most. -/
theorem number_g (p : Nat) (negative : Bool) (num : Nat) (hden : 0 < den) :
    ∃ q, Number (g p negative num den) q ∧ |q - signed negative (num / den)| ≤ num / den * 10 ^ (-(p : ℤ)) / 2 := by
  unfold g
  split
  · rename_i hzero
    subst hzero
    have h := number_text negative [48] [] (whole_decimal 0) nofun .none
    rw [show point (dropZeros []) = [] from rfl, List.append_nil, List.append_nil] at h
    refine ⟨_, h, ?_⟩
    rw [signed_sub]
    simp [digitsValue]
  · rename_i hne
    obtain ⟨hle, hlt, herror⟩ := significant_spec (p := p) (Nat.pos_of_ne_zero hne) hden
    refine ⟨_, number_gText hle hlt, ?_⟩
    rw [signed_sub]
    exact herror

end Printf
