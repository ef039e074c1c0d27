import Mathlib
import SymmetricCrypto.Proofs.Aes.Residues

/-!
# The bytes are a field

Every residue is that of exactly one byte (`ofResidue`), so what holds of the 256 bytes holds of the ring
of residues. A byte that is its own square is zero or one. The 255th power of every residue is its own
square, and so it is one unless the residue is zero (`pow_255`). Hence there are no divisors of zero,
`X^8 + X^4 + X^3 + X + 1` is irreducible, and the residues are a field. The 254th power, which is
`inverse`, is the inverse in this field (`residue_inverse_eq_inv`).
-/

namespace SymmetricCrypto.Aes.Field

open Polynomial

/-- Every residue is that of a byte: constants are, and so are sums and products with `X`. -/
theorem residue_surjective : Function.Surjective residue := by
  intro r
  induction r using AdjoinRoot.induction_on with
  | ih p =>
    induction p using Polynomial.induction_on with
    | C c =>
      have hbit : ∀ c : ZMod 2, c = 0 ∨ c = 1 := by decide
      rcases hbit c with rfl | rfl
      · exact ⟨0, by rw [residue_zero, C_0, map_zero]⟩
      · exact ⟨1, by rw [residue_one, C_1, map_one]⟩
    | add p q hp hq =>
      obtain ⟨a, ha⟩ := hp
      obtain ⟨b, hb⟩ := hq
      exact ⟨a ^^^ b, by rw [residue_xor, ha, hb, map_add]⟩
    | monomial n c ih =>
      -- One more factor `X` doubles the byte.
      obtain ⟨a, ha⟩ := ih
      refine ⟨double a, ?_⟩
      rw [residue_double, ha, pow_succ, ← mul_assoc, map_mul _ _ X, AdjoinRoot.mk_X, mul_comm]
      rfl

/-- The byte of a residue. -/
noncomputable def ofResidue : Residue → UInt8 :=
  (Equiv.ofBijective residue ⟨residue_injective, residue_surjective⟩).symm

/-- The byte of a residue has this residue. -/
@[simp] theorem residue_ofResidue (r : Residue) : residue (ofResidue r) = r :=
  Equiv.ofBijective_apply_symm_apply residue ⟨residue_injective, residue_surjective⟩ r

/-- The byte of the residue of a byte is that byte. -/
@[simp] theorem ofResidue_residue (a : UInt8) : ofResidue (residue a) = a :=
  residue_injective (residue_ofResidue (residue a))

/-- A byte that is its own square is zero or one, tried on all bytes. -/
theorem eq_zero_or_one_of_mul_self (a : UInt8) (h : mul a a = a) : a = 0 ∨ a = 1 := by
  have hall : ∀ i : Fin 256, mul (UInt8.ofNat i) (UInt8.ofNat i) = UInt8.ofNat i →
      UInt8.ofNat i = 0 ∨ UInt8.ofNat i = 1 := by
    decide +kernel
  have hbyte : UInt8.ofNat (⟨a.toNat, a.toNat_lt⟩ : Fin 256) = a := by simp
  exact hbyte ▸ hall ⟨a.toNat, a.toNat_lt⟩ (by rw [hbyte]; exact h)

/-- The 255th power of a residue is one, unless the residue is zero. -/
theorem pow_255 {r : Residue} (hr : r ≠ 0) : r^255 = 1 := by
  obtain ⟨a, ha⟩ := residue_surjective (r^255)
  have hsquare : mul a a = a := by
    apply residue_injective
    calc residue (mul a a) = r^256 * r^254 := by rw [residue_mul, ha]; ring
      _ = residue a := by rw [pow_256, ha]; ring
  rcases eq_zero_or_one_of_mul_self a hsquare with rfl | rfl
  · -- Then the residue itself would be zero.
    rw [residue_zero] at ha
    have hpower : r = r^255 * r := by rw [← pow_succ, pow_256]
    rw [← ha, zero_mul] at hpower
    exact absurd hpower hr
  · rw [← ha, residue_one]

/-- The residues have no divisors of zero, so the ideal of the modulus is prime. -/
theorem prime_modulus : Prime modulus := by
  have hdomain : IsDomain Residue := by
    have : NoZeroDivisors Residue := by
      refine ⟨fun {r s} hrs => ?_⟩
      by_contra hne
      obtain ⟨hr, hs⟩ := not_or.mp hne
      -- The 255th power of the product would be one, but it is zero.
      have hpower : (r * s)^255 = 1 := by rw [mul_pow, pow_255 hr, pow_255 hs, one_mul]
      rw [hrs, zero_pow (by decide)] at hpower
      exact zero_ne_one hpower
    exact NoZeroDivisors.to_isDomain Residue
  have hprime : (Ideal.span {modulus}).IsPrime := (Ideal.Quotient.isDomain_iff_prime _).mp hdomain
  exact (Ideal.span_singleton_prime monic_modulus.ne_zero).mp hprime

/-- The modulus is irreducible, so the residues are a field. -/
scoped instance : Fact (Irreducible modulus) := ⟨prime_modulus.irreducible⟩

/-- `inverse` is the inverse in the field, which is zero for zero. -/
theorem residue_inverse_eq_inv (a : UInt8) : residue (inverse a) = (residue a)⁻¹ := by
  rw [residue_inverse]
  rcases eq_or_ne (residue a) 0 with ha | ha
  · rw [ha, inv_zero, zero_pow (by decide)]
  · apply eq_inv_of_mul_eq_one_left
    rw [← pow_succ, pow_255 ha]

end SymmetricCrypto.Aes.Field
