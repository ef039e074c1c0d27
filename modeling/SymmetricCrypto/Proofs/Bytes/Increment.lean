import Mathlib
import SymmetricCrypto.Proofs.Bytes.Words

/-!
# Counting in byte strings

`increment` carries from byte to byte, and a carry out of the last byte is lost. So it adds one to
the number that the bytes write, modulo the range of their width (`decode_increment`), and any number
of increments adds this number (`decode_iterate_increment`). From any start, each string of the width
is met once before the first one comes back (`bijOn_iterate_increment`, `minimalPeriod_increment`),
and zero comes after the largest number only (`decode_increment_eq_zero_iff`). In four bytes this is
the sum of a word and one (`increment_wordBytes`).
-/

namespace SymmetricCrypto.LittleEndian

/-- The largest number of a width has all bytes at 255. -/
theorem decode_replicate_255 (n : ℕ) : decode (List.replicate n 255) + 1 = 256^n := by
  induction n with
  | zero => rfl
  | succ n ih =>
    have hbyte : (255 : UInt8).toNat = 255 := rfl
    rw [List.replicate_succ, decode, hbyte, Nat.pow_succ]
    omega

/-- The width stays. -/
@[simp] theorem length_increment (bs : Bytes) : (increment bs).length = bs.length := by
  fun_induction increment bs with
  | case1 => rfl
  | case2 bs ih => rw [List.length_cons, List.length_cons, ih]
  | case3 => rfl

/-- The number goes up by one, modulo the range of its width. -/
theorem decode_increment (bs : Bytes) :
    decode (increment bs) = (decode bs + 1) % 256^bs.length := by
  fun_induction increment bs with
  | case1 => rfl
  | case2 bs ih =>
    -- The byte goes around, and the bytes behind it are counted up.
    have hcarry : (255 : UInt8).toNat + 256 * decode bs + 1 = 256 * (decode bs + 1) := by
      have hbyte : (255 : UInt8).toNat = 255 := rfl
      omega
    rw [decode, decode, hcarry, List.length_cons, Nat.pow_succ', Nat.mul_mod_mul_left, ih]
    exact Nat.zero_add _
  | case3 b bs hb =>
    -- The byte goes up, and nothing is carried.
    have hbyte : (b + 1).toNat = b.toNat + 1 := by
      have hne : b.toNat ≠ 255 := mt (fun h => UInt8.toNat_inj.mp h) hb
      have hlt := b.toNat_lt
      have hone : (1 : UInt8).toNat = 1 := rfl
      rw [UInt8.toNat_add, hone, Nat.mod_eq_of_lt (by omega)]
    have hfits := decode_lt ((b + 1) :: bs)
    rw [decode, hbyte, List.length_cons] at hfits
    rw [decode, decode, hbyte, List.length_cons, Nat.mod_eq_of_lt (by omega)]
    omega

/-- The next byte string is the encoding of the next number. -/
theorem increment_eq_encode (bs : Bytes) : increment bs = encode bs.length (decode bs + 1) := by
  have hback := encode_decode (increment bs)
  rwa [length_increment, decode_increment, encode_mod, eq_comm] at hback

/-- In four bytes, counting is that of words. -/
theorem increment_wordBytes (w : UInt32) : increment (wordBytes w) = wordBytes (w + 1) := by
  have hnext : (w + 1).toNat = (w.toNat + 1) % 256^4 := UInt32.toNat_add w 1
  rw [increment_eq_encode, decode_wordBytes, length_wordBytes, wordBytes, hnext, encode_mod]

/-! ## Many increments -/

/-- Any number of increments keeps the width. -/
theorem length_iterate_increment (bs : Bytes) (k : ℕ) :
    (increment^[k] bs).length = bs.length := by
  induction k with
  | zero => rfl
  | succ k ih => rw [Function.iterate_succ_apply', length_increment, ih]

/-- A number of increments adds this number, modulo the range of the width. -/
theorem decode_iterate_increment (bs : Bytes) (k : ℕ) :
    decode (increment^[k] bs) = (decode bs + k) % 256^bs.length := by
  induction k with
  | zero => exact (Nat.mod_eq_of_lt (decode_lt bs)).symm
  | succ k ih =>
    rw [Function.iterate_succ_apply', decode_increment, length_iterate_increment, ih,
      Nat.mod_add_mod, Nat.add_assoc]

/-- Two numbers of increments lead to one byte string exactly if they agree modulo the range. -/
theorem iterate_increment_eq_iff (bs : Bytes) (j k : ℕ) :
    increment^[j] bs = increment^[k] bs ↔ j ≡ k [MOD 256^bs.length] := by
  rw [← decode_inj (by rw [length_iterate_increment, length_iterate_increment]),
    decode_iterate_increment, decode_iterate_increment]
  exact ⟨Nat.ModEq.add_left_cancel' (decode bs), Nat.ModEq.add_left (decode bs)⟩

/-- Each byte string of the width is met once within the range. -/
theorem bijOn_iterate_increment (bs : Bytes) :
    Set.BijOn (fun k => increment^[k] bs) (Set.Iio (256^bs.length))
      {other | other.length = bs.length} := by
  refine ⟨fun k _ => length_iterate_increment bs k, fun j hj k hk hjk => ?_, fun other hother => ?_⟩
  · have hmod := (iterate_increment_eq_iff bs j k).mp hjk
    exact hmod.eq_of_lt_of_lt hj hk
  · -- The number of increments is the distance, counted upwards from the start.
    have hstart := decode_lt bs
    have hend : decode other < 256^bs.length := hother ▸ decode_lt other
    refine ⟨(256^bs.length - decode bs + decode other) % 256^bs.length,
      Nat.mod_lt _ (Nat.zero_lt_of_lt hstart), ?_⟩
    have hsum : decode bs + (256^bs.length - decode bs + decode other) =
        decode other + 256^bs.length := by omega
    apply (decode_inj (by rw [length_iterate_increment, hother])).mp
    rw [decode_iterate_increment, Nat.add_mod_mod, hsum, Nat.add_mod_right,
      Nat.mod_eq_of_lt hend]

/-- The start comes back after as many increments as the range has numbers, and not before. -/
theorem minimalPeriod_increment (bs : Bytes) :
    Function.minimalPeriod increment bs = 256^bs.length := by
  have hperiodic (k : ℕ) : Function.IsPeriodicPt increment k bs ↔ 256^bs.length ∣ k := by
    rw [← Nat.modEq_zero_iff_dvd, ← iterate_increment_eq_iff bs k 0]
    rfl
  apply Nat.dvd_antisymm
  · exact ((hperiodic _).mpr dvd_rfl).minimalPeriod_dvd
  · exact (hperiodic _).mp (Function.isPeriodicPt_minimalPeriod increment bs)

/-- The next number is zero exactly if all bytes are at 255. -/
theorem decode_increment_eq_zero_iff (bs : Bytes) :
    decode (increment bs) = 0 ↔ bs = List.replicate bs.length 255 := by
  have hlargest := decode_replicate_255 bs.length
  have hlt := decode_lt bs
  rw [← decode_inj List.length_replicate.symm, decode_increment]
  constructor
  · intro hzero
    by_contra hne
    rw [Nat.mod_eq_of_lt (by omega)] at hzero
    omega
  · intro hvalue
    rw [hvalue, hlargest, Nat.mod_self]

end SymmetricCrypto.LittleEndian
