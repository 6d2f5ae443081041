-- SUMMARY: The rotations and the bit reversal of integers, and the laws they keep.
import Eel.Core.Doubles
import Eel.Core.Primitive
import Eel.Lib.Bits

/-!
# Operators on integers

A rotation uses the lower five bits of its count. A reversal of `w` bits reverses all of the
integer, and shifts what it has down by `32 - w`; the hardware shifts by 32 as it shifts by 0.
-/

namespace Eel

namespace Meta

variable {W : Type} (M : Meta W)

/-! ## Rotation -/

theorem reverse_eq (v : BitVec 32) :
    reverse v =
      Bits.swap 1 0x55555555 0xaaaaaaaa (Bits.swap 2 0x33333333 0xcccccccc
        (Bits.swap 4 0x0f0f0f0f 0xf0f0f0f0 (Bits.swap 8 0x00ff00ff 0xff00ff00
          ((v <<< 16) ||| (v >>> 16))))) :=
  rfl

theorem masks_one : Bits.Masks 1 (0x55555555 : BitVec 32) 0xaaaaaaaa := by
  constructor <;> decide

theorem masks_two : Bits.Masks 2 (0x33333333 : BitVec 32) 0xcccccccc := by
  constructor <;> decide

theorem masks_four : Bits.Masks 4 (0x0f0f0f0f : BitVec 32) 0xf0f0f0f0 := by
  constructor <;> decide

theorem masks_eight : Bits.Masks 8 (0x00ff00ff : BitVec 32) 0xff00ff00 := by
  constructor <;> decide

theorem partner_lt : ∀ k ∈ [1, 2, 4, 8], ∀ i < 32, Bits.partner k i < 32 := by
  decide

theorem partners_reverse : ∀ i < 32,
    Bits.partner 16 (Bits.partner 8 (Bits.partner 4 (Bits.partner 2 (Bits.partner 1 i)))) = 31 - i := by
  decide

theorem getLsbD_halves (v : BitVec 32) {i : Nat} (hi : i < 32) :
    ((v <<< 16) ||| (v >>> 16)).getLsbD i = v.getLsbD (Bits.partner 16 i) := by
  rw [BitVec.getLsbD_or, BitVec.getLsbD_shiftLeft, BitVec.getLsbD_ushiftRight, Bits.partner]
  rcases Nat.lt_or_ge i 16 with h | h
  · have hdiv : i / 16 = 0 := by omega
    simp [h, hdiv, Nat.add_comm]
  · have hdiv : i / 16 = 1 := by omega
    have hout : v.getLsbD (16 + i) = false := BitVec.getLsbD_of_ge _ _ (by omega)
    simp [h, hi, hdiv, hout]

theorem getLsbD_reverse (v : BitVec 32) {i : Nat} (hi : i < 32) :
    (reverse v).getLsbD i = v.getLsbD (31 - i) := by
  have h1 := partner_lt 1 (by decide) i hi
  have h2 := partner_lt 2 (by decide) _ h1
  have h4 := partner_lt 4 (by decide) _ h2
  have h8 := partner_lt 8 (by decide) _ h4
  rw [reverse_eq, Bits.getLsbD_swap masks_one (by decide) _ hi h1,
    Bits.getLsbD_swap masks_two (by decide) _ h1 h2,
    Bits.getLsbD_swap masks_four (by decide) _ h2 h4,
    Bits.getLsbD_swap masks_eight (by decide) _ h4 h8, getLsbD_halves _ h8, partners_reverse i hi]

/-- The bits of `v brev n`, for any width that is not refused. -/
def brev (v : BitVec 32) (n : Nat) : BitVec 32 := reverse v >>> ((32 - n) % 32)

theorem reverse_reverse (v : BitVec 32) : reverse (reverse v) = v := by
  apply BitVec.eq_of_getLsbD_eq
  intro i hi
  have hidx : 31 - (31 - i) = i := by omega
  rw [getLsbD_reverse _ hi, getLsbD_reverse _ (by omega), hidx]

/-- The low `n` bits. -/
def low (v : BitVec 32) (n : Nat) : BitVec 32 := (v.setWidth n).setWidth 32

end Meta

end Eel
