-- SUMMARY: hexstr and octstr: for which integers and numbers of figures the text is that of the number.
import Eel.Core.Value
import Eel.Lib.CInt
import Eel.Lib.Counting
import Mathlib.Data.Nat.Digits.Defs

/-!
# Hexadecimal and octal figures

Both functions shift the integer to the right, and `>>` keeps its sign. What is shifted in
does no harm behind the mask, as long as the figure is all within the 32 bits. Without a
number of figures, the loop is over when there is nothing left of the integer.
-/

namespace Eel

namespace Strings

/-- `hexfigures`. -/
def hexfigures : List Byte :=
  ['0', '1', '2', '3', '4', '5', '6', '7', '8', '9', 'A', 'B', 'C', 'D', 'E', 'F'].map fun c => BitVec.ofNat 8 c.toNat

/-- What a figure is of an integer. -/
structure Radix where
  bits : Nat
  bits_pos : 0 < bits
  bits_le : bits ≤ 4
  mask : BitVec 32
  mask_eq : mask = BitVec.ofNat 32 (2 ^ bits - 1)

def hex : Radix where
  bits := 4
  bits_pos := by decide
  bits_le := by decide
  mask := 0xf
  mask_eq := rfl

def oct : Radix where
  bits := 3
  bits_pos := by decide
  bits_le := by decide
  mask := 0x7
  mask_eq := rfl

namespace Radix

variable (R : Radix)

/-- `hexfigures[(val >> (4 * i)) & 0xf]`. -/
def figureAt (val : BitVec 32) (i : Int) : Option Byte := do
  let n ← CInt.check (R.bits * i)
  let v ← CInt.shr? val n
  hexfigures[(v &&& R.mask).toNat]?

/-- The `while` loop, with so many turns at most: each inserts a figure before those that there are. -/
def shiftOut : Nat → BitVec 32 → List Byte → Option (List Byte)
  | 0, _, _ => none
  | turns + 1, val, buf =>
    if val = 0 then some buf
    else do
      let c ← hexfigures[(val &&& R.mask).toNat]?
      let v ← CInt.shr? val R.bits
      shiftOut turns v (c :: buf)

/-- What both functions do. -/
def str (turns : Nat) (val : BitVec 32) (figures : Int) : Option (List Byte) :=
  if figures ≠ 0 then do
    let first ← CInt.check (figures - 1)
    (Counting.values first 0 (-1)).mapM (R.figureAt val)
  else if val ≠ 0 then R.shiftOut turns val []
  else some (hexfigures.take 1)

end Radix

/-- `hexstr`. -/
def hexstr : Nat → BitVec 32 → Int → Option (List Byte) := hex.str

/-- `octstr`. -/
def octstr : Nat → BitVec 32 → Int → Option (List Byte) := oct.str

/-! ## The text of a number -/

/-- The figure with this value. -/
def figure (d : Nat) : Byte := hexfigures.getD d 0

/-- The numeral of a number, with no zeros in front. -/
def numeral (base n : Nat) : List Byte :=
  if n = 0 then [figure 0] else ((Nat.digits base n).reverse).map figure

/-- The last figures of a number, zeros included. -/
def lastFigures (base n figures : Nat) : List Byte :=
  (List.range figures).reverse.map fun i => figure (n / base ^ i % base)

/-- The text that is asked for. -/
def text (base n : Nat) (figures : Int) : List Byte :=
  if figures = 0 then numeral base n else lastFigures base n figures.toNat

theorem hexfigures_getElem? {d : Nat} (h : d < 16) : hexfigures[d]? = some (figure d) := by
  unfold figure
  rw [List.getD_eq_getElem?_getD, List.getElem?_eq_getElem (by exact h), Option.getD_some]

/-- No two figures are the same. -/
theorem figure_inj : ∀ a < 16, ∀ b < 16, figure a = figure b → a = b := by
  decide

/-! ## One figure -/

namespace Radix

variable {R : Radix} {val : BitVec 32} {i s : Nat}

/-- The bits of what is masked. -/
theorem testBit_masked (val : BitVec 32) (s j : Nat) :
    (val.sshiftRight s &&& R.mask).toNat.testBit j =
      (decide (j < R.bits) && if s + j < 32 then val.getLsbD (s + j) else val.msb) := by
  have hbits := R.bits_le
  rw [BitVec.testBit_toNat, BitVec.getLsbD_and, BitVec.getLsbD_sshiftRight, R.mask_eq, BitVec.getLsbD_ofNat,
    Nat.testBit_two_pow_sub_one]
  rcases Nat.lt_or_ge j R.bits with hj | hj
  · rw [decide_eq_true hj, decide_eq_true (by omega : j < 32), decide_eq_false (by omega : ¬ 32 ≤ j)]
    simp
  · rw [decide_eq_false (Nat.not_lt.mpr hj)]
    simp

/-- Those of a figure. -/
theorem testBit_figure (val : BitVec 32) (s j : Nat) :
    (val.toNat / 2 ^ s % 2 ^ R.bits).testBit j = (decide (j < R.bits) && val.getLsbD (s + j)) := by
  rw [Nat.testBit_mod_two_pow, Nat.testBit_div_two_pow, Nat.add_comm]
  rfl

theorem masked_lt (v : BitVec 32) : (v &&& R.mask).toNat < 16 := by
  have hpow : 2 ^ R.bits ≤ 2 ^ 4 := Nat.pow_le_pow_right Nat.two_pos R.bits_le
  have hmask : R.mask.toNat ≤ 2 ^ R.bits - 1 := by
    rw [R.mask_eq, BitVec.toNat_ofNat]
    exact Nat.mod_le _ _
  have hand : (v &&& R.mask).toNat ≤ R.mask.toNat := by
    rw [BitVec.toNat_and]
    exact Nat.and_le_right
  omega

/-- A figure is that of the number if all of it is within the integer, or nothing but zeros is shifted in. -/
theorem masked_eq (h : s + R.bits ≤ 32 ∨ val.msb = false) :
    (val.sshiftRight s &&& R.mask).toNat = val.toNat / 2 ^ s % 2 ^ R.bits := by
  apply Nat.eq_of_testBit_eq
  intro j
  rw [testBit_masked, testBit_figure]
  rcases Nat.lt_or_ge j R.bits with hj | hj
  · rw [decide_eq_true hj, Bool.true_and, Bool.true_and]
    split
    · rfl
    · rename_i hout
      rcases h with h | h
      · omega
      · rw [h, BitVec.getLsbD_of_ge _ _ (by omega)]
  · rw [decide_eq_false (Nat.not_lt.mpr hj), Bool.false_and, Bool.false_and]

/-- The sign gets into a figure that is not all within the integer. -/
theorem masked_ne (hlt : s < 32) (h : 32 < s + R.bits) (hsign : val.msb = true) :
    (val.sshiftRight s &&& R.mask).toNat ≠ val.toNat / 2 ^ s % 2 ^ R.bits := by
  intro heq
  have hbit := congrArg (Nat.testBit · (32 - s)) heq
  rw [testBit_masked, testBit_figure, decide_eq_true (by omega : 32 - s < R.bits), if_neg (by omega), hsign,
    BitVec.getLsbD_of_ge _ _ (by omega)] at hbit
  cases hbit

theorem figureAt_inside (h : R.bits * s < 32) :
    R.figureAt val s = some (figure (val.sshiftRight (R.bits * s) &&& R.mask).toNat) := by
  have hcast : (R.bits : Int) * s = ((R.bits * s : Nat) : Int) := by exact_mod_cast rfl
  have hcheck : CInt.check (R.bits * s) = some ((R.bits * s : Nat) : Int) :=
    CInt.check_eq_some.mpr ⟨⟨by omega, by omega⟩, hcast⟩
  have hshift : CInt.shr? val ((R.bits * s : Nat) : Int) = some (val.sshiftRight (R.bits * s)) := by
    unfold CInt.shr?
    rw [if_pos ⟨by omega, by omega⟩, Int.toNat_natCast]
  unfold figureAt
  rw [hcheck, Option.bind_eq_bind, Option.bind_some, hshift, Option.bind_eq_bind, Option.bind_some,
    hexfigures_getElem? (masked_lt _)]

/-- A shift by 32 or more has no result. -/
theorem figureAt_outside (h : 32 ≤ R.bits * s) : R.figureAt val s = none := by
  unfold figureAt
  cases hcheck : CInt.check (R.bits * s) with
  | none => rfl
  | some n =>
    obtain ⟨-, rfl⟩ := CInt.check_eq_some.mp hcheck
    have hshift : CInt.shr? val ((R.bits : Int) * s) = none := by
      unfold CInt.shr?
      refine if_neg ?_
      rintro ⟨-, hlt⟩
      have : R.bits * s < 32 := by exact_mod_cast hlt
      omega
    rw [Option.bind_eq_bind, Option.bind_some, hshift]
    rfl

/-! ## A number of figures -/

theorem mapM_some {α β : Type} {f : α → Option β} {g : α → β} {l : List α} (h : ∀ a ∈ l, f a = some (g a)) :
    l.mapM f = some (l.map g) := by
  induction l with
  | nil => rfl
  | cons a l ih =>
    rw [List.mapM_cons, h a List.mem_cons_self, ih fun b hb => h b (List.mem_cons_of_mem a hb)]
    rfl

/-- The `for` loop counts down to 0. -/
theorem values_down (n : Nat) :
    Counting.values (n - 1) 0 (-1) = (List.range n).reverse.map fun i : Nat => (i : Int) := by
  induction n with
  | zero => exact Counting.values_of_past (by decide)
  | succ n ih =>
    rw [Counting.values_of_not_past (by decide), List.range_succ, List.reverse_concat, List.map_cons, ← ih]
    · congr 1
      · omega
      · congr 1
        omega
    · show ¬ (if (-1 : Int) < 0 then ((n + 1 : Nat) : Int) - 1 < 0 else _)
      rw [if_pos (by decide)]
      omega

/-- No figures are asked for. -/
theorem str_of_neg {turns : Nat} {figures : Int} (h : figures < 0) (hrange : -2 ^ 31 < figures) :
    R.str turns val figures = some [] := by
  unfold str
  rw [if_pos (Int.ne_of_lt h), CInt.check_eq_some.mpr ⟨⟨by omega, by omega⟩, rfl⟩, Option.bind_eq_bind,
    Option.bind_some, Counting.values_of_past]
  · rfl
  · show if (-1 : Int) < 0 then figures - 1 < 0 else _
    rw [if_pos (by decide)]
    omega

theorem str_figures {turns n : Nat} (hn : 0 < n) (hrange : n < 2 ^ 31) :
    R.str turns val n = (List.range n).reverse.mapM fun i : Nat => R.figureAt val i := by
  unfold str
  rw [if_pos (by omega), CInt.check_eq_some.mpr ⟨⟨by omega, by omega⟩, rfl⟩, Option.bind_eq_bind,
    Option.bind_some, values_down, List.mapM_map]
  rfl

/-- The figures that the code comes to. -/
theorem str_inside {turns n : Nat} (hn : 0 < n) (h : R.bits * (n - 1) < 32) :
    R.str turns val n =
      some ((List.range n).reverse.map fun i => figure (val.sshiftRight (R.bits * i) &&& R.mask).toNat) := by
  have hpos := R.bits_pos
  have hle : n - 1 ≤ R.bits * (n - 1) := Nat.le_mul_of_pos_left _ hpos
  rw [str_figures hn (by omega)]
  refine mapM_some fun i hi => figureAt_inside (Nat.lt_of_le_of_lt (Nat.mul_le_mul_left _ ?_) h)
  have := List.mem_range.mp (List.mem_reverse.mp hi)
  omega

theorem str_outside {turns n : Nat} (hn : 0 < n) (hrange : n < 2 ^ 31) (h : 32 ≤ R.bits * (n - 1)) :
    R.str turns val n = none := by
  obtain ⟨m, rfl⟩ : ∃ m, n = m + 1 := ⟨n - 1, by omega⟩
  rw [Nat.add_sub_cancel] at h
  rw [str_figures hn hrange, List.range_succ, List.reverse_concat, List.mapM_cons, figureAt_outside h]
  rfl

/-- The text is right exactly if all figures are within the integer, or the first one begins there and the
integer has no sign. -/
theorem str_figures_iff {n : Nat} (hn : 0 < n) (hrange : n < 2 ^ 31) :
    (∃ turns, R.str turns val n = some (lastFigures (2 ^ R.bits) val.toNat n)) ↔
      R.bits * n ≤ 32 ∨ R.bits * (n - 1) < 32 ∧ val.msb = false := by
  have hpos := R.bits_pos
  have hpow : ∀ i, (2 ^ R.bits) ^ i = 2 ^ (R.bits * i) := fun i => (Nat.pow_mul 2 _ i).symm
  obtain ⟨m, rfl⟩ : ∃ m, n = m + 1 := ⟨n - 1, by omega⟩
  rw [Nat.add_sub_cancel, Nat.mul_succ]
  constructor
  · rintro ⟨turns, hstr⟩
    rcases Nat.lt_or_ge (R.bits * m) 32 with hlt | hge
    · cases hsign : val.msb with
      | false => exact .inr ⟨hlt, rfl⟩
      | true =>
        refine .inl (Nat.le_of_not_lt fun hover => ?_)
        rw [str_inside hn hlt] at hstr
        have hlist := Option.some.inj hstr
        unfold lastFigures at hlist
        rw [List.range_succ, List.reverse_concat, List.map_cons, List.map_cons, hpow] at hlist
        have hhead := figure_inj _ (masked_lt _) _ ?_ (List.cons.inj hlist).1
        · exact masked_ne hlt hover hsign hhead
        · have : 2 ^ R.bits ≤ 2 ^ 4 := Nat.pow_le_pow_right Nat.two_pos R.bits_le
          have := Nat.mod_lt (val.toNat / 2 ^ (R.bits * m)) (Nat.two_pow_pos R.bits)
          omega
    · rw [str_outside hn hrange hge] at hstr
      cases hstr
  · intro h
    have hlt : R.bits * m < 32 := by omega
    refine ⟨0, ?_⟩
    rw [str_inside hn hlt]
    unfold lastFigures
    refine congrArg some (List.map_congr_left fun i hi => ?_)
    have hi : i < m + 1 := List.mem_range.mp (List.mem_reverse.mp hi)
    have hle : R.bits * i ≤ R.bits * m := Nat.mul_le_mul_left _ (by omega)
    rw [hpow, masked_eq]
    rcases h with h | ⟨-, h⟩
    · exact .inl (by omega)
    · exact .inr h

/-! ## Without a number of figures -/

theorem shiftOut_zero {turns : Nat} {buf : List Byte} : R.shiftOut (turns + 1) 0 buf = some buf := by
  rw [shiftOut, if_pos rfl]

theorem shiftOut_succ {turns : Nat} {buf : List Byte} (h : val ≠ 0) :
    R.shiftOut (turns + 1) val buf =
      R.shiftOut turns (val.sshiftRight R.bits) (figure (val &&& R.mask).toNat :: buf) := by
  have hbits := R.bits_le
  have hshift : CInt.shr? val R.bits = some (val.sshiftRight R.bits) := by
    unfold CInt.shr?
    rw [if_pos ⟨by omega, by omega⟩, Int.toNat_natCast]
  rw [shiftOut, if_neg h, hexfigures_getElem? (masked_lt _), Option.bind_eq_bind, Option.bind_some, hshift,
    Option.bind_eq_bind, Option.bind_some]

/-- What has no sign is shifted out figure by figure. -/
theorem exists_shiftOut (hsign : val.msb = false) (buf : List Byte) :
    ∃ turns, R.shiftOut turns val buf = some ((Nat.digits (2 ^ R.bits) val.toNat).reverse.map figure ++ buf) := by
  have hbase : 1 < 2 ^ R.bits := Nat.one_lt_two_pow (Nat.pos_iff_ne_zero.mp R.bits_pos)
  -- On the value, which gets smaller with every figure.
  induction hn : val.toNat using Nat.strong_induction_on generalizing val buf with
  | _ n ih =>
    rcases Nat.eq_zero_or_pos n with rfl | hpos
    · refine ⟨1, ?_⟩
      obtain rfl : val = 0 := BitVec.eq_of_toNat_eq hn
      rw [shiftOut_zero, Nat.digits_zero]
      rfl
    · have hnext : (val.sshiftRight R.bits).toNat = n / 2 ^ R.bits := by
        rw [BitVec.toNat_sshiftRight_of_msb_false hsign, Nat.shiftRight_eq_div_pow, hn]
      have hfigure : (val &&& R.mask).toNat = n % 2 ^ R.bits := by
        have heq : (val.sshiftRight 0 &&& R.mask).toNat = val.toNat / 2 ^ 0 % 2 ^ R.bits := masked_eq (.inr hsign)
        rw [BitVec.sshiftRight_zero, Nat.pow_zero, Nat.div_one, hn] at heq
        exact heq
      have hne : val ≠ 0 := by
        rintro rfl
        exact Nat.ne_of_gt hpos hn.symm
      have hsign' : (val.sshiftRight R.bits).msb = false := by
        rw [BitVec.msb_sshiftRight, hsign]
      obtain ⟨turns, hturns⟩ :=
        ih (n / 2 ^ R.bits) (Nat.div_lt_self hpos hbase) hsign' (figure (val &&& R.mask).toNat :: buf) hnext
      refine ⟨turns + 1, ?_⟩
      rw [shiftOut_succ hne, hturns, hfigure, Nat.digits_def' hbase hpos, List.reverse_cons, List.map_append,
        List.append_assoc]
      rfl

/-- What has a sign never gets to zero. -/
theorem shiftOut_eq_none (hsign : val.msb = true) (turns : Nat) (buf : List Byte) :
    R.shiftOut turns val buf = none := by
  induction turns generalizing val buf with
  | zero => rfl
  | succ turns ih =>
    have hne : val ≠ 0 := by
      rintro rfl
      cases hsign
    rw [shiftOut_succ hne]
    exact ih (by rw [BitVec.msb_sshiftRight, hsign]) _

theorem str_zero {turns : Nat} :
    R.str turns val 0 = if val ≠ 0 then R.shiftOut turns val [] else some (hexfigures.take 1) := by
  unfold str
  rw [if_neg (by decide)]

theorem str_numeral_iff : (∃ turns, R.str turns val 0 = some (numeral (2 ^ R.bits) val.toNat)) ↔ val.msb = false := by
  unfold numeral
  by_cases hzero : val = 0
  · rw [hzero]
    exact iff_of_true ⟨0, rfl⟩ rfl
  · have hvalue : val.toNat ≠ 0 := fun h => hzero (BitVec.eq_of_toNat_eq h)
    rw [if_neg hvalue]
    cases hsign : val.msb with
    | false =>
      obtain ⟨turns, hturns⟩ := exists_shiftOut (R := R) hsign []
      rw [List.append_nil] at hturns
      refine iff_of_true ⟨turns, ?_⟩ rfl
      rw [str_zero, if_pos hzero]
      exact hturns
    | true =>
      refine iff_of_false ?_ Bool.true_eq_false.mp
      rintro ⟨turns, hturns⟩
      rw [str_zero, if_pos hzero, shiftOut_eq_none hsign] at hturns
      cases hturns

/-- When the text is the one that is asked for. -/
theorem str_text_iff {figures : Int} (hrange : CInt.InRange figures) :
    (∃ turns, R.str turns val figures = some (text (2 ^ R.bits) val.toNat figures)) ↔
      figures = 0 ∧ 0 ≤ val.toInt ∨ figures ≠ 0 ∧ -2 ^ 31 < figures ∧
        (R.bits * figures ≤ 32 ∨ R.bits * (figures - 1) < 32 ∧ 0 ≤ val.toInt) := by
  have hpos := R.bits_pos
  have hsign : val.msb = false ↔ 0 ≤ val.toInt := by
    rw [BitVec.msb_eq_toInt, decide_eq_false_iff_not, Int.not_lt]
  unfold text
  rcases Int.lt_trichotomy figures 0 with hneg | rfl | hfigures
  · rw [if_neg (Int.ne_of_lt hneg), Int.toNat_of_nonpos (Int.le_of_lt hneg)]
    rcases Int.lt_or_eq_of_le hrange.1 with hlt | heq
    · refine iff_of_true ⟨0, str_of_neg hneg hlt⟩ (.inr ⟨Int.ne_of_lt hneg, hlt, .inl ?_⟩)
      have : (R.bits : Int) * figures ≤ 0 := Int.mul_nonpos_of_nonneg_of_nonpos (by omega) (by omega)
      omega
    · refine iff_of_false ?_ (by omega)
      rintro ⟨turns, hstr⟩
      unfold str at hstr
      rw [if_pos (Int.ne_of_lt hneg), ← heq, CInt.check_eq_none.mpr (by decide)] at hstr
      cases hstr
  · rw [if_pos rfl, str_numeral_iff, hsign]
    omega
  · obtain ⟨n, rfl⟩ := Int.eq_ofNat_of_zero_le (Int.le_of_lt hfigures)
    have hn : 0 < n := by exact_mod_cast hfigures
    rw [if_neg (by omega), Int.toNat_natCast, str_figures_iff hn (by exact_mod_cast hrange.2), hsign]
    have hall : (R.bits : Int) * n ≤ 32 ↔ R.bits * n ≤ 32 := by
      exact_mod_cast Iff.rfl
    have hfirst : (R.bits : Int) * (n - 1) < 32 ↔ R.bits * (n - 1) < 32 := by
      rw [← Int.natCast_one, ← Int.natCast_sub (by omega : 1 ≤ n)]
      exact_mod_cast Iff.rfl
    rw [hall, hfirst]
    omega

end Radix

/-- The text is that of the number, or its last figures, exactly if no sign is shifted into it and no shift is
by more than an integer has bits. -/
theorem figures_iff (v : BitVec 32) {figures : Int} (hrange : CInt.InRange figures) :
    ((∃ turns, hexstr turns v figures = some (text 16 v.toNat figures)) ↔
      figures = 0 ∧ 0 ≤ v.toInt ∨ figures ≠ 0 ∧ -2 ^ 31 < figures ∧ figures ≤ 8) ∧
    ((∃ turns, octstr turns v figures = some (text 8 v.toNat figures)) ↔
      figures = 0 ∧ 0 ≤ v.toInt ∨ figures ≠ 0 ∧ -2 ^ 31 < figures ∧
        (figures ≤ 10 ∨ figures = 11 ∧ 0 ≤ v.toInt)) := by
  constructor
  · refine (Radix.str_text_iff (R := hex) hrange).trans ?_
    rw [show (hex.bits : Int) = 4 from rfl]
    omega
  · refine (Radix.str_text_iff (R := oct) hrange).trans ?_
    rw [show (oct.bits : Int) = 3 from rfl]
    omega

/-- Eight figures of the least integer. -/
theorem figures_iff_min :
    ((∃ turns, hexstr turns (BitVec.intMin 32) 8 = some (text 16 (BitVec.intMin 32).toNat 8)) ↔
      (8 : Int) = 0 ∧ 0 ≤ (BitVec.intMin 32).toInt ∨ (8 : Int) ≠ 0 ∧ -2 ^ 31 < (8 : Int) ∧ (8 : Int) ≤ 8) ∧
    ((∃ turns, octstr turns (BitVec.intMin 32) 8 = some (text 8 (BitVec.intMin 32).toNat 8)) ↔
      (8 : Int) = 0 ∧ 0 ≤ (BitVec.intMin 32).toInt ∨ (8 : Int) ≠ 0 ∧ -2 ^ 31 < (8 : Int) ∧
        ((8 : Int) ≤ 10 ∨ (8 : Int) = 11 ∧ 0 ≤ (BitVec.intMin 32).toInt)) :=
  figures_iff (BitVec.intMin 32) (by decide)

/-- Without a number of figures, the loop never ends for -1. -/
theorem not_figures :
    ¬ ∀ (v : BitVec 32) (figures : Int), 0 ≤ figures → CInt.InRange figures →
      (∃ turns, hexstr turns v figures = some (text 16 v.toNat figures)) ∧
        ∃ turns, octstr turns v figures = some (text 8 v.toNat figures) := by
  intro h
  obtain ⟨⟨turns, hstr⟩, -⟩ := h (-1) 0 (by decide) (by decide)
  unfold hexstr at hstr
  rw [Radix.str_zero, if_pos (by decide), Radix.shiftOut_eq_none (by decide)] at hstr
  cases hstr

end Strings

end Eel
