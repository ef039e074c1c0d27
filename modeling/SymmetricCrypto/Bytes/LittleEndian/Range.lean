import Mathlib
import SymmetricCrypto.Bytes.LittleEndian

/-!
# The range of little-endian numbers

The numbers of `n` bytes are those below `256 ^ n`: every byte string has its value in that range, and a
number of that range reads back from its digits.
-/

namespace SymmetricCrypto.LittleEndian

/-- A number reads back modulo the range of its width. -/
theorem decode_encode (n v : Nat) : decode (encode n v) = v % 256 ^ n := by
  induction n generalizing v with
  | zero => simp [encode, decode, Nat.mod_one]
  | succ n ih =>
    have split : v % 256 ^ (n + 1) = v % 256 + 256 * (v / 256 % 256 ^ n) := by
      rw [Nat.pow_succ', Nat.mod_mul]
    rw [encode, decode, ih, UInt8.toNat_ofNat', split]

/-- Numbers in the range of a width are told apart by their digits. -/
theorem encode_inj {n v w : Nat} (hv : v < 256 ^ n) (hw : w < 256 ^ n)
    (h : encode n v = encode n w) : v = w := by
  have hvalue := congrArg decode h
  rwa [decode_encode, decode_encode, Nat.mod_eq_of_lt hv, Nat.mod_eq_of_lt hw] at hvalue

/-- The value of a byte string fits its length. -/
theorem decode_lt (bs : Bytes) : decode bs < 256 ^ bs.length := by
  induction bs with
  | nil => simp [decode]
  | cons b bs ih =>
    have := b.toNat_lt
    rw [decode, List.length_cons, Nat.pow_succ]
    omega

end SymmetricCrypto.LittleEndian
