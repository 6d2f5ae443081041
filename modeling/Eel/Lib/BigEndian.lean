-- SUMMARY: Numbers as bytes, the most significant one first.
import Mathlib.Data.Nat.ModEq

/-!
# Big-endian numbers
-/

namespace BigEndian

/-- The lowest `8 * n` bits of a number. -/
def encode : Nat → Nat → List (BitVec 8)
  | 0, _ => []
  | n + 1, v => encode n (v / 256) ++ [BitVec.ofNat 8 v]

/-- The number that bytes are. -/
def decode (bytes : List (BitVec 8)) : Nat := bytes.foldl (fun v b => 256 * v + b.toNat) 0

@[simp] theorem length_encode (n v : Nat) : (encode n v).length = n := by
  induction n generalizing v with
  | zero => rfl
  | succ n ih =>
    rw [encode, List.length_append, ih]
    rfl

theorem decode_concat (bytes : List (BitVec 8)) (b : BitVec 8) :
    decode (bytes ++ [b]) = 256 * decode bytes + b.toNat := by
  unfold decode
  rw [List.foldl_append]
  rfl

theorem decode_encode (n v : Nat) : decode (encode n v) = v % 256 ^ n := by
  induction n generalizing v with
  | zero =>
    rw [Nat.pow_zero, Nat.mod_one]
    rfl
  | succ n ih =>
    rw [encode, decode_concat, ih, BitVec.toNat_ofNat]
    show 256 * (v / 256 % 256 ^ n) + v % 256 = v % 256 ^ (n + 1)
    rw [Nat.pow_succ, Nat.mul_comm (256 ^ n), Nat.mod_mul, Nat.add_comm]

/-- Bits come back, if there are enough bytes for them. -/
theorem ofNat_decode_encode {n w : Nat} (hw : w ≤ 8 * n) (v : BitVec w) :
    BitVec.ofNat w (decode (encode n v.toNat)) = v := by
  have hlt : v.toNat < 256 ^ n := by
    have hpow : 2 ^ w ≤ 2 ^ (8 * n) := Nat.pow_le_pow_right (by decide) hw
    rw [Nat.pow_mul] at hpow
    exact Nat.lt_of_lt_of_le v.isLt hpow
  rw [decode_encode, Nat.mod_eq_of_lt hlt, BitVec.ofNat_toNat, BitVec.setWidth_eq]

end BigEndian
