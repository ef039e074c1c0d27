import Mathlib
import SymmetricCrypto.Word

/-!
# Machine words as numbers

A number that is added to a 32-bit word is added modulo `2^32` (`ofNat_toNat_add_mod`), and in parts
if it is a sum (`add_ofNat_add`).

Shifts of 32-bit words are products and quotients of numbers. Where the bits of two shifted words do
not overlap, an `or` is a sum (`toNat_or_shiftLeft`), and so a rotation is the sum of the bits that
stay in the word and of those that come back on the other side (`toNat_rotl32`, and `toNat_rotr64`
for a 64-bit word).
-/

namespace SymmetricCrypto.Word

/-- A counter that is not counted up. -/
theorem add_ofNat_zero (w : UInt32) : w + UInt32.ofNat 0 = w := UInt32.add_zero w

/-- A counter that is counted up by two numbers, one after the other. -/
theorem add_ofNat_add (w : UInt32) (m n : ℕ) :
    w + UInt32.ofNat (m + n) = w + UInt32.ofNat m + UInt32.ofNat n := by
  rw [UInt32.ofNat_add, ← UInt32.add_assoc]

/-- A counter that is counted up goes around at `2^32`. -/
theorem ofNat_toNat_add_mod (w : UInt32) (n : ℕ) :
    UInt32.ofNat ((w.toNat + n) % 2^32) = w + UInt32.ofNat n := by
  apply UInt32.toNat_inj.mp
  rw [UInt32.toNat_ofNat', UInt32.toNat_add, UInt32.toNat_ofNat']
  omega

/-- A word shifted to the right. -/
theorem toNat_shiftRight (x : UInt32) {k : ℕ} (hk : k < 32) :
    (x >>> UInt32.ofNat k).toNat = x.toNat / 2^k := by
  have hshift : (UInt32.ofNat k).toNat % 32 = k := by
    rw [UInt32.toNat_ofNat']
    omega
  rw [UInt32.toNat_shiftRight, hshift, Nat.shiftRight_eq_div_pow]

/-- A product with a power of two keeps the bits that are not shifted out. -/
theorem mul_two_pow_mod (x : ℕ) {k n : ℕ} (hk : k ≤ n) :
    x * 2^k % 2^n = 2^k * (x % 2^(n - k)) := by
  have hsplit : 2^n = 2^k * 2^(n - k) := by rw [← pow_add, Nat.add_sub_of_le hk]
  rw [Nat.mul_comm, hsplit, Nat.mul_mod_mul_left]

/-- A word shifted to the left. -/
theorem toNat_shiftLeft (x : UInt32) {k : ℕ} (hk : k < 32) :
    (x <<< UInt32.ofNat k).toNat = 2^k * (x.toNat % 2^(32 - k)) := by
  have hshift : (UInt32.ofNat k).toNat % 32 = k := by
    rw [UInt32.toNat_ofNat']
    omega
  rw [UInt32.toNat_shiftLeft, hshift, Nat.shiftLeft_eq, mul_two_pow_mod _ hk.le]

/-- Low bits under a word that is shifted past them: the bits of the word that are not shifted out
add up with the low ones. -/
theorem toNat_or_shiftLeft (low high : UInt32) {k : ℕ} (hk : k < 32) (hlow : low.toNat < 2^k) :
    (low ||| high <<< UInt32.ofNat k).toNat = low.toNat + 2^k * (high.toNat % 2^(32 - k)) := by
  rw [UInt32.toNat_or, toNat_shiftLeft _ hk, Nat.or_comm, ← Nat.two_pow_add_eq_or_of_lt hlow,
    Nat.add_comm]

/-- The high bits of a word and, above them, the low bits of the next one. -/
theorem toNat_shiftRight_or_shiftLeft (x y : UInt32) {j k : ℕ} (hj : 0 < j) (hk : 0 < k)
    (hjk : j + k = 32) :
    (x >>> UInt32.ofNat j ||| y <<< UInt32.ofNat k).toNat =
      x.toNat / 2^j + 2^k * (y.toNat % 2^j) := by
  have hx := toNat_shiftRight x (k := j) (by omega)
  have hlow : (x >>> UInt32.ofNat j).toNat < 2^k := by
    rw [hx, Nat.div_lt_iff_lt_mul (Nat.two_pow_pos j), ← pow_add, Nat.add_comm, hjk]
    exact x.toNat_lt
  have hrest : 32 - k = j := by omega
  rw [toNat_or_shiftLeft _ _ (by omega) hlow, hx, hrest]

/-- A rotation to the left: the bits above are those that stay, and those below come back. -/
theorem toNat_rotl32 (x : UInt32) {k : ℕ} (hk : 0 < k) (hk' : k < 32) :
    (rotl32 x (UInt32.ofNat k)).toNat = x.toNat * 2^k % 2^32 + x.toNat / 2^(32 - k) := by
  have hback : (32 : UInt32) - UInt32.ofNat k = UInt32.ofNat (32 - k) := by
    have hle : UInt32.ofNat k ≤ 32 := by
      rw [UInt32.le_iff_toNat_le, UInt32.toNat_ofNat', Nat.mod_eq_of_lt (by omega)]
      exact hk'.le
    apply UInt32.toNat_inj.mp
    rw [UInt32.toNat_sub_of_le _ _ hle, UInt32.toNat_ofNat', UInt32.toNat_ofNat',
      Nat.mod_eq_of_lt (by omega), Nat.mod_eq_of_lt (by omega)]
    rfl
  rw [rotl32, hback, UInt32.or_comm,
    toNat_shiftRight_or_shiftLeft x x (j := 32 - k) (by omega) hk (by omega),
    mul_two_pow_mod _ hk'.le, Nat.add_comm]

/-- A rotation of a 64-bit word to the right: the bits that leave it come back above those that stay.
-/
theorem toNat_rotr64 (x : UInt64) {k : ℕ} (hk : 0 < k) (hk' : k < 64) :
    (rotr64 x (UInt64.ofNat k)).toNat = x.toNat / 2^k + 2^(64 - k) * (x.toNat % 2^k) := by
  have hright : (UInt64.ofNat k).toNat % 64 = k := by
    rw [UInt64.toNat_ofNat']
    omega
  have hleft : ((64 : UInt64) - UInt64.ofNat k).toNat % 64 = 64 - k := by
    rw [UInt64.toNat_sub, UInt64.toNat_ofNat']
    have hwidth : (64 : UInt64).toNat = 64 := rfl
    omega
  have hrest : 64 - (64 - k) = k := by omega
  have hstay : x.toNat / 2^k < 2^(64 - k) := by
    rw [Nat.div_lt_iff_lt_mul (Nat.two_pow_pos k), ← pow_add, Nat.sub_add_cancel hk'.le]
    exact x.toNat_lt
  rw [rotr64, UInt64.toNat_or, UInt64.toNat_shiftRight, UInt64.toNat_shiftLeft, hright, hleft,
    Nat.shiftRight_eq_div_pow, Nat.shiftLeft_eq, mul_two_pow_mod _ (Nat.sub_le 64 k), hrest,
    Nat.or_comm, ← Nat.two_pow_add_eq_or_of_lt hstay, Nat.add_comm]

end SymmetricCrypto.Word
