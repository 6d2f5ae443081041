-- SUMMARY: Floating-point numbers of 64 bits, and the integers among them, of which conversion, comparison and addition are exact.
import Mathlib

/-!
# Floating-point numbers of 64 bits

The operations are those of Lean's own model of IEEE 754, on the bits of a number. An
integer of less than 54 bits is represented exactly, its significand shifted up to 53 bits;
so the sum of two such integers is exact, if it is such an integer.
-/

namespace Binary64

open Float.Model Float.Model.UnpackedFloat

def unpack (bits : BitVec 64) : UnpackedFloat := UnpackedFloat.unpack Format.binary64 bits

def pack (x : UnpackedFloat) : BitVec 64 := UnpackedFloat.pack Format.binary64 x

def add (a b : BitVec 64) : BitVec 64 := pack (UnpackedFloat.add Format.binary64 (unpack a) (unpack b))

def sub (a b : BitVec 64) : BitVec 64 := pack (UnpackedFloat.sub Format.binary64 (unpack a) (unpack b))

def mul (a b : BitVec 64) : BitVec 64 := pack (UnpackedFloat.mul Format.binary64 (unpack a) (unpack b))

def div (a b : BitVec 64) : BitVec 64 := pack (UnpackedFloat.div Format.binary64 (unpack a) (unpack b))

def lt (a b : BitVec 64) : Bool := (unpack a).lt (unpack b)

def ofInt (n : Int) : BitVec 64 := pack (UnpackedFloat.ofInt Format.binary64 n)

/-- The integer next to a number, by a division of integers, unless there is none. -/
def toInt? (quot : Int → Int → Int) (bits : BitVec 64) : Option Int :=
  match unpack bits with
  | .finite s m e _ =>
    some (if 0 ≤ e then s.apply m * 2 ^ e.toNat else quot (s.apply m) (2 ^ (-e).toNat))
  | .zero _ => some 0
  | .infinity _ | .notANumber => none

/-! ## Rounding what needs no rounding -/

/-- The significand of an integer, of 53 bits. -/
def significand (k : Nat) : Nat := k * 2 ^ (52 - k.log2)

def exponent (k : Nat) : Int := k.log2 - 52

theorem log2_lt {k : Nat} (hk : k < 2 ^ 53) (h0 : k ≠ 0) : k.log2 < 53 :=
  (Nat.log2_lt h0).mpr hk

theorem log2_mul_two_pow {k : Nat} (h0 : k ≠ 0) (j : Nat) : (k * 2 ^ j).log2 = k.log2 + j := by
  induction j with
  | zero => simp
  | succ j ih =>
    have hne : k * 2 ^ j ≠ 0 := Nat.mul_ne_zero h0 (Nat.two_pow_pos j).ne'
    have hstep : k * 2 ^ (j + 1) = 2 * (k * 2 ^ j) := by ring
    rw [hstep, Nat.log2_two_mul hne, ih]
    rfl

theorem significand_ne_zero {k : Nat} (h0 : k ≠ 0) : significand k ≠ 0 :=
  Nat.mul_ne_zero h0 (Nat.two_pow_pos _).ne'

theorem log2_significand {k : Nat} (hk : k < 2 ^ 53) (h0 : k ≠ 0) : (significand k).log2 = 52 := by
  have := log2_lt hk h0
  rw [significand, log2_mul_two_pow h0]
  omega

theorem exponent_ge (k : Nat) : -52 ≤ exponent k := by
  rw [exponent]
  omega

theorem exponent_le {k : Nat} (hk : k < 2 ^ 53) (h0 : k ≠ 0) : exponent k ≤ 0 := by
  have := log2_lt hk h0
  rw [exponent]
  omega

theorem targetExponent_of_ge {t : Int} (ht : -1021 ≤ t) :
    Format.binary64.targetExponent t = t - 53 := by
  have hmin : Format.binary64.minExponent = -1074 := rfl
  have hbits : (Format.binary64.mantissaBits : Int) = 53 := rfl
  rw [Format.targetExponent, hmin, hbits]
  omega

theorem shiftRight_exact (m i : Nat) :
    (⟨m * 2 ^ i, false, false⟩ : ExtendedMantissa) >>> i = ⟨m, false, false⟩ := by
  induction i generalizing m with
  | zero => simp; rfl
  | succ i ih =>
    have hstep : (⟨m * 2 * 2 ^ i, false, false⟩ : ExtendedMantissa) >>> (i + 1) =
        ((⟨m * 2 * 2 ^ i, false, false⟩ : ExtendedMantissa) >>> i).shiftRightOne := rfl
    rw [Nat.pow_succ', ← Nat.mul_assoc, hstep, ih]
    simp [ExtendedMantissa.shiftRightOne]

/-- Nothing is lost when what is below a significand of 53 bits is cut off, if that is zeros. -/
theorem shiftToTargetExponent_exact {k : Nat} (hk : k < 2 ^ 53) (h0 : k ≠ 0) (i : Nat) :
    shiftToTargetExponent Format.binary64 (significand k * 2 ^ i) (exponent k - i) .exact =
      (⟨significand k, false, false⟩, exponent k) := by
  have hlog : (significand k * 2 ^ i).log2 = 52 + i := by
    rw [log2_mul_two_pow (significand_ne_zero h0), log2_significand hk h0]
  have htotal : totalExponent (significand k * 2 ^ i) (exponent k - i) = exponent k + 53 := by
    rw [totalExponent, hlog]
    omega
  have hexp := exponent_ge k
  have hshift : (exponent k - (exponent k - i)).toNat = i := by omega
  rw [shiftToTargetExponent, htotal, targetExponent_of_ge (by omega), Int.add_sub_cancel,
    shiftToExponent, hshift]
  simp only [ExtendedMantissa.ofMantissaAndAccuracy, shiftRight_exact, Int.sub_add_cancel]

theorem roundWithAccuracy_exact (s : Sign) {k : Nat} (hk : k < 2 ^ 53) (h0 : k ≠ 0) (i : Nat) :
    roundWithAccuracy Format.binary64 s (significand k * 2 ^ i) (exponent k - i) .exact =
      .finite s (significand k) (exponent k) (Nat.pos_of_ne_zero (significand_ne_zero h0)) := by
  have hagain := shiftToTargetExponent_exact hk h0 0
  rw [Nat.pow_zero, Nat.mul_one, Int.natCast_zero, Int.sub_zero] at hagain
  have hround : (⟨significand k, false, false⟩ : ExtendedMantissa).roundedMantissa = significand k := rfl
  simp only [roundWithAccuracy, shiftToTargetExponent_exact hk h0 i, hround, hagain]
  rw [dif_neg (significand_ne_zero h0)]

/-- An integer is rounded to itself, wherever the point is. -/
theorem round_exact (s : Sign) {k : Nat} (hk : k < 2 ^ 53) (h0 : k ≠ 0) (j : Nat) :
    UnpackedFloat.round Format.binary64 s (k * 2 ^ j) (-j) =
      .finite s (significand k) (exponent k) (Nat.pos_of_ne_zero (significand_ne_zero h0)) := by
  have hlog := log2_lt hk h0
  have htotal : totalExponent (k * 2 ^ j) (-j) = k.log2 + 1 := by
    rw [totalExponent, log2_mul_two_pow h0]
    omega
  have hdecrease : decreaseExponent (k * 2 ^ j) (-j) (exponent k) =
      (significand k * 2 ^ (j - (52 - k.log2)), exponent k - (j - (52 - k.log2) : Nat)) := by
    have hshift : (-(j : Int) - exponent k).toNat = 52 - k.log2 - j := by
      rw [exponent]
      omega
    rw [decreaseExponent, hshift, Nat.shiftLeft_eq, significand]
    refine Prod.ext ?_ ?_
    · simp only
      rw [Nat.mul_assoc, Nat.mul_assoc, ← Nat.pow_add, ← Nat.pow_add]
      congr 2
      omega
    · simp only [exponent]
      omega
  have htarget : Format.binary64.targetExponent (k.log2 + 1) = exponent k := by
    rw [targetExponent_of_ge (by omega), exponent]
    omega
  simp only [UnpackedFloat.round, htotal, htarget, hdecrease]
  exact roundWithAccuracy_exact s hk h0 _

/-! ## Integers -/

/-- An integer of less than 54 bits. -/
def exact (n : Int) : UnpackedFloat :=
  match n with
  | .ofNat 0 => .zero .positive
  | .ofNat (k + 1) =>
    .finite .positive (significand (k + 1)) (exponent (k + 1))
      (Nat.pos_of_ne_zero (significand_ne_zero (Nat.succ_ne_zero k)))
  | .negSucc k =>
    .finite .negative (significand (k + 1)) (exponent (k + 1))
      (Nat.pos_of_ne_zero (significand_ne_zero (Nat.succ_ne_zero k)))

theorem normalize_exact {n : Int} (hn : n.natAbs < 2 ^ 53) (j : Nat) :
    UnpackedFloat.normalize Format.binary64 (n * 2 ^ j) (-j) .positive = exact n := by
  have hpow : (0 : Int) < 2 ^ j := Int.pow_pos (by decide)
  match n with
  | .ofNat 0 => simp [UnpackedFloat.normalize, exact]
  | .ofNat (k + 1) =>
    have hval : Int.ofNat (k + 1) * 2 ^ j = ((k + 1) * 2 ^ j : Nat) := by simp
    have hcmp : compare (Int.ofNat (k + 1) * 2 ^ j) 0 = .gt := by
      rw [Int.compare_eq_gt]
      exact Int.mul_pos (Int.natCast_succ_pos k) hpow
    have hnat : (Int.ofNat (k + 1) * 2 ^ j).toNat = (k + 1) * 2 ^ j := by
      rw [hval, Int.toNat_natCast]
    simp only [UnpackedFloat.normalize, hcmp, hnat]
    exact round_exact .positive hn (Nat.succ_ne_zero k) j
  | .negSucc k =>
    have hval : -(Int.negSucc k * 2 ^ j) = ((k + 1) * 2 ^ j : Nat) := by
      rw [← Int.neg_mul, Int.neg_negSucc]
      simp
    have hcmp : compare (Int.negSucc k * 2 ^ j) 0 = .lt := by
      rw [Int.compare_eq_lt]
      exact Int.mul_neg_of_neg_of_pos (Int.negSucc_lt_zero k) hpow
    have hnat : (-(Int.negSucc k * 2 ^ j)).toNat = (k + 1) * 2 ^ j := by
      rw [hval, Int.toNat_natCast]
    simp only [UnpackedFloat.normalize, hcmp, hnat]
    exact round_exact .negative hn (Nat.succ_ne_zero k) j

theorem unpack_pack_finite (s : Sign) {m : Nat} {e : Int} (h : 0 < m) (hm : m.log2 = 52)
    (he : -52 ≤ e) (he' : e ≤ 0) :
    unpack (pack (.finite s m e h)) = .finite s m e h := by
  have hbias : (Format.binary64.exponentBias : Int) = 1023 := rfl
  have hwidth : (Format.binary64.mantissaBitsWithoutImplicit : Int) = 52 := rfl
  have hrange := (Nat.log2_eq_iff h.ne').mp hm
  have hpack : pack (.finite s m e h) =
      packComponents Format.binary64 s (BitVec.ofNat 11 (e + 1075).toNat) (BitVec.ofNat 52 m) := by
    have hbits : e + Format.binary64.exponentBias + Format.binary64.mantissaBitsWithoutImplicit = e + 1075 := by
      rw [hbias, hwidth]
      omega
    rw [pack, UnpackedFloat.pack, hbits]
    simp only
    rw [if_neg (by omega), if_pos (by rw [hm]; rfl)]
  have hexp : (BitVec.ofNat 11 (e + 1075).toNat).toNat = (e + 1075).toNat := by
    rw [BitVec.toNat_ofNat]
    omega
  have hones : BitVec.ofNat 11 (e + 1075).toNat ≠ -1#11 := by
    intro heq
    have heq := hexp.symm.trans (congrArg BitVec.toNat heq)
    simp at heq
    omega
  have hzero : BitVec.ofNat 11 (e + 1075).toNat ≠ 0#11 := by
    intro heq
    have heq := hexp.symm.trans (congrArg BitVec.toNat heq)
    simp at heq
    omega
  have hmant : (1#1 ++ BitVec.ofNat 52 m).toNat = m := by
    have hone : (1#1).toNat = 1 := rfl
    have hlow : (BitVec.ofNat 52 m).toNat = m % 2 ^ 52 := BitVec.toNat_ofNat m 52
    rw [BitVec.toNat_append, ← Nat.shiftLeft_add_eq_or_of_lt (BitVec.isLt _), hone, hlow,
      Nat.shiftLeft_eq]
    omega
  rw [hpack, unpack, UnpackedFloat.unpack]
  simp only [unpackMantissa_packComponents, unpackExponent_packComponents,
    unpackSign_packComponents, Sign.ofBitVec_toBitVec]
  rw [if_neg hones, if_neg hzero, UnpackedFloat.finite.injEq]
  refine ⟨rfl, hmant, ?_⟩
  rw [hexp, hbias, hwidth]
  omega

theorem unpack_pack_exact {n : Int} (hn : n.natAbs < 2 ^ 53) : unpack (pack (exact n)) = exact n := by
  match n with
  | .ofNat 0 => rfl
  | .ofNat (k + 1) =>
    exact unpack_pack_finite _ _ (log2_significand hn (Nat.succ_ne_zero k)) (exponent_ge _)
      (exponent_le hn (Nat.succ_ne_zero k))
  | .negSucc k =>
    exact unpack_pack_finite _ _ (log2_significand hn (Nat.succ_ne_zero k)) (exponent_ge _)
      (exponent_le hn (Nat.succ_ne_zero k))

theorem ofInt_eq {n : Int} (hn : n.natAbs < 2 ^ 53) : ofInt n = pack (exact n) := by
  have h := normalize_exact hn 0
  rw [Int.pow_zero, Int.mul_one] at h
  exact congrArg pack h

theorem unpack_ofInt {n : Int} (hn : n.natAbs < 2 ^ 53) : unpack (ofInt n) = exact n := by
  rw [ofInt_eq hn, unpack_pack_exact hn]

/-! ## Arithmetic on integers -/

/-- The mantissa of an integer, at an exponent that is not above its own. -/
theorem decreaseExponent_exact {k : Nat} (hk : k < 2 ^ 53) (h0 : k ≠ 0) {j : Nat}
    (hj : -(j : Int) ≤ exponent k) :
    (decreaseExponent (significand k) (exponent k) (-j)).1 = k * 2 ^ j := by
  have := log2_lt hk h0
  rw [exponent] at hj
  have hexp : 52 - k.log2 + (exponent k - -(j : Int)).toNat = j := by
    rw [exponent]
    omega
  rw [decreaseExponent, significand, Nat.shiftLeft_eq, Nat.mul_assoc, ← Nat.pow_add, hexp]

/-- The parts of an integer that is not zero. -/
theorem exact_of_ne_zero {n : Int} (h0 : n ≠ 0) :
    ∃ s : Sign, ∃ h, exact n = .finite s (significand n.natAbs) (exponent n.natAbs) h ∧
      s.apply n.natAbs = n := by
  match n with
  | .ofNat 0 => exact absurd rfl h0
  | .ofNat (k + 1) => exact ⟨.positive, _, rfl, rfl⟩
  | .negSucc k => exact ⟨.negative, _, rfl, rfl⟩

theorem exact_zero : exact 0 = .zero .positive := rfl

theorem apply_mul (s : Sign) (a b : Nat) : s.apply ((a * b : Nat) : Int) = s.apply a * b := by
  cases s <;> simp [Sign.apply]

theorem add_exact {x y : Int} (hx : x.natAbs < 2 ^ 53) (hy : y.natAbs < 2 ^ 53)
    (hxy : (x + y).natAbs < 2 ^ 53) :
    UnpackedFloat.add Format.binary64 (exact x) (exact y) = exact (x + y) := by
  rcases eq_or_ne x 0 with rfl | hx0
  · rw [Int.zero_add, exact_zero]
    rcases eq_or_ne y 0 with rfl | hy0
    · rfl
    · obtain ⟨s, h, hs, -⟩ := exact_of_ne_zero hy0
      rw [hs]
      rfl
  rcases eq_or_ne y 0 with rfl | hy0
  · rw [Int.add_zero, exact_zero]
    obtain ⟨s, h, hs, -⟩ := exact_of_ne_zero hx0
    rw [hs]
    rfl
  obtain ⟨s, h, hs, hsx⟩ := exact_of_ne_zero hx0
  obtain ⟨t, h', ht, hty⟩ := exact_of_ne_zero hy0
  have hx1 : x.natAbs ≠ 0 := by omega
  have hy1 : y.natAbs ≠ 0 := by omega
  obtain ⟨j, hj⟩ : ∃ j : Nat, min (exponent x.natAbs) (exponent y.natAbs) = -(j : Int) := by
    have := exponent_le hx hx1
    exact ⟨(-(min (exponent x.natAbs) (exponent y.natAbs))).toNat, by omega⟩
  have hmx := decreaseExponent_exact hx hx1 (j := j) (by omega)
  have hmy := decreaseExponent_exact hy hy1 (j := j) (by omega)
  rw [hs, ht]
  simp only [UnpackedFloat.add, hj, hmx, hmy, apply_mul, hsx, hty]
  rw [← Int.add_mul, Int.natCast_pow]
  exact normalize_exact hxy j

/-! ## The order of integers -/

theorem lt_of_log2_lt {k l : Nat} (hl0 : l ≠ 0) (h : k.log2 < l.log2) : k < l :=
  calc
    k < 2 ^ (k.log2 + 1) := Nat.lt_log2_self
    _ ≤ 2 ^ l.log2 := Nat.pow_le_pow_right (by decide) h
    _ ≤ l := Nat.log2_self_le hl0

/-- Of two numbers with 53 bits in their significands the exponents are compared first. -/
theorem compare_significand {k l : Nat} (hk0 : k ≠ 0) (hl0 : l ≠ 0) :
    (compare (exponent k) (exponent l)).then (compare (significand k) (significand l)) = compare k l := by
  rcases Nat.lt_trichotomy k.log2 l.log2 with h | h | h
  · have hexp : compare (exponent k) (exponent l) = .lt := by
      rw [Int.compare_eq_lt, exponent, exponent]
      omega
    rw [hexp, Nat.compare_eq_lt.mpr (lt_of_log2_lt hl0 h)]
    rfl
  · have hexp : compare (exponent k) (exponent l) = .eq := by
      rw [Int.compare_eq_eq, exponent, exponent, h]
    rw [hexp, significand, significand, h, Ordering.eq_then]
    have hpos : 0 < 2 ^ (52 - l.log2) := Nat.two_pow_pos _
    simp only [Nat.compare_eq_ite_lt, Nat.mul_lt_mul_right hpos]
  · have hexp : compare (exponent k) (exponent l) = .gt := by
      rw [Int.compare_eq_gt, exponent, exponent]
      omega
    rw [hexp, Nat.compare_eq_gt.mpr (lt_of_log2_lt hk0 h)]
    rfl

theorem lt_exact (x y : Int) : (exact x).lt (exact y) = decide (x < y) := by
  have hcast (m : Nat) : Int.ofNat m = (m : Int) := rfl
  rw [Bool.eq_iff_iff, decide_eq_true_iff]
  match x, y with
  | .ofNat 0, .ofNat 0 => exact iff_of_false Bool.false_ne_true (Int.lt_irrefl _)
  | .ofNat 0, .ofNat (l + 1) => exact iff_of_true rfl (by rw [hcast, hcast]; omega)
  | .ofNat 0, .negSucc l => exact iff_of_false Bool.false_ne_true (by rw [hcast]; omega)
  | .ofNat (k + 1), .ofNat 0 => exact iff_of_false Bool.false_ne_true (by rw [hcast, hcast]; omega)
  | .ofNat (k + 1), .ofNat (l + 1) =>
    simp only [exact, UnpackedFloat.lt, UnpackedFloat.compare,
      compare_significand (Nat.succ_ne_zero k) (Nat.succ_ne_zero l)]
    rw [beq_iff_eq, Option.some_inj, Nat.compare_eq_lt, hcast, hcast]
    omega
  | .ofNat (k + 1), .negSucc l => exact iff_of_false Bool.false_ne_true (by rw [hcast]; omega)
  | .negSucc k, .ofNat 0 => exact iff_of_true rfl (Int.negSucc_lt_zero k)
  | .negSucc k, .ofNat (l + 1) => exact iff_of_true rfl (by rw [hcast]; omega)
  | .negSucc k, .negSucc l =>
    simp only [exact, UnpackedFloat.lt, UnpackedFloat.compare,
      compare_significand (Nat.succ_ne_zero k) (Nat.succ_ne_zero l)]
    rw [beq_iff_eq, Option.some_inj, Ordering.swap_eq_lt, Nat.compare_eq_gt]
    omega

theorem lt_ofInt {x y : Int} (hx : x.natAbs < 2 ^ 53) (hy : y.natAbs < 2 ^ 53) :
    lt (ofInt x) (ofInt y) = decide (x < y) := by
  rw [lt, unpack_ofInt hx, unpack_ofInt hy, lt_exact]

theorem add_ofInt {x y : Int} (hx : x.natAbs < 2 ^ 53) (hy : y.natAbs < 2 ^ 53)
    (hxy : (x + y).natAbs < 2 ^ 53) : add (ofInt x) (ofInt y) = ofInt (x + y) := by
  rw [add, unpack_ofInt hx, unpack_ofInt hy, add_exact hx hy hxy, ofInt_eq hxy]

theorem ofInt_inj {x y : Int} (hx : x.natAbs < 2 ^ 53) (hy : y.natAbs < 2 ^ 53) :
    ofInt x = ofInt y ↔ x = y := by
  constructor
  · intro h
    have hlt := lt_ofInt hx hy
    have hgt := lt_ofInt hy hx
    rw [h, lt_ofInt hy hy] at hlt
    rw [h, lt_ofInt hy hy] at hgt
    have hnlt : ¬x < y := of_decide_eq_false (hlt.symm.trans (decide_eq_false (Int.lt_irrefl y)))
    have hngt : ¬y < x := of_decide_eq_false (hgt.symm.trans (decide_eq_false (Int.lt_irrefl y)))
    omega
  · rintro rfl
    rfl

end Binary64
