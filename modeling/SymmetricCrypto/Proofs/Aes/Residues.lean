import Mathlib
import SymmetricCrypto.Aes.Field

/-!
# Bytes as residues of polynomials

A byte stands for the polynomial over two elements whose coefficients are its bits, and the
arithmetic of the cipher is that of the residues of such polynomials modulo
`X^8 + X^4 + X^3 + X + 1`. `residue` is the residue of a byte. Different bytes have different residues
(`residue_injective`), the bitwise sum is the sum (`residue_xor`), and `mul` is the product
(`residue_mul`), since doubling is the product with `X` (`residue_double`). So the laws of `mul` are
those of the ring of residues.

In this ring the 256th power of every residue is the residue itself (`pow_256`), because the Frobenius
map is additive and keeps `X`. So the 254th power, which is `inverse`, undoes itself
(`inverse_inverse`).
-/

namespace SymmetricCrypto.Aes.Field

open Polynomial

/-- The polynomial that bytes are reduced by, without its leading term. -/
noncomputable def tail : (ZMod 2)[X] := X^4 + X^3 + X + 1

/-- `X^8 + X^4 + X^3 + X + 1`. -/
noncomputable def modulus : (ZMod 2)[X] := X^8 + tail

/-- Below the leading term of the modulus, the degree is less than eight. -/
theorem degree_tail_lt : tail.degree < 8 := by
  apply (degree_lt_iff_coeff_zero _ 8).mpr
  intro i hi
  have h0 : i ≠ 0 := by omega
  have h1 : 1 ≠ i := by omega
  have h3 : i ≠ 3 := by omega
  have h4 : i ≠ 4 := by omega
  simp [tail, coeff_X, coeff_X_pow, coeff_one, h0, h1, h3, h4]

/-- The modulus has the leading coefficient one. -/
theorem monic_modulus : modulus.Monic := monic_X_pow_add degree_tail_lt

/-- The modulus has degree eight. -/
theorem degree_modulus : modulus.degree = 8 := by
  have hlt : tail.degree < (X^8 : (ZMod 2)[X]).degree := by
    rw [degree_X_pow]
    exact degree_tail_lt
  rw [modulus, degree_add_eq_left_of_degree_lt hlt, degree_X_pow]
  rfl

/-- The residues of polynomials. -/
abbrev Residue := AdjoinRoot modulus

/-- The residue of `X`. -/
noncomputable def root : Residue := AdjoinRoot.root modulus

/-! ## The residue of a byte -/

/-- Bit `i` of a byte. -/
def coefficient (a : UInt8) (i : ℕ) : ZMod 2 := if a.toNat.testBit i then 1 else 0

/-- The polynomial whose coefficients are the low `k` bits of a byte. -/
noncomputable def lowPolynomial (k : ℕ) (a : UInt8) : (ZMod 2)[X] :=
  ∑ i ∈ Finset.range k, C (coefficient a i) * X^i

/-- The residue of the low `k` bits of a byte. -/
noncomputable def lowResidue (k : ℕ) (a : UInt8) : Residue :=
  AdjoinRoot.mk modulus (lowPolynomial k a)

/-- The residue of a byte. -/
noncomputable def residue (a : UInt8) : Residue := lowResidue 8 a

/-- The first coefficients are the bits of the byte, and the others are zero. -/
theorem coeff_lowPolynomial (k : ℕ) (a : UInt8) (i : ℕ) :
    (lowPolynomial k a).coeff i = if i < k then coefficient a i else 0 := by
  simp [lowPolynomial, coeff_X_pow]

/-- The polynomial of a byte is reduced. -/
theorem modByMonic_lowPolynomial (a : UInt8) :
    lowPolynomial 8 a %ₘ modulus = lowPolynomial 8 a := by
  rw [modByMonic_eq_self_iff monic_modulus, degree_modulus]
  apply (degree_lt_iff_coeff_zero _ 8).mpr
  intro i hi
  rw [coeff_lowPolynomial, if_neg (Nat.not_lt.mpr hi)]

/-- Different bytes have different residues. -/
theorem residue_injective : Function.Injective residue := by
  intro a b h
  -- Reduced polynomials with one residue are equal, and their coefficients are the bits.
  have hpolynomial : lowPolynomial 8 a = lowPolynomial 8 b := by
    have hreduced := congrArg (AdjoinRoot.modByMonicHom monic_modulus) h
    simpa only [residue, lowResidue, AdjoinRoot.modByMonicHom_mk, modByMonic_lowPolynomial]
      using hreduced
  apply UInt8.toNat_inj.mp
  apply Nat.eq_of_testBit_eq
  intro i
  rcases lt_or_ge i 8 with hi | hi
  · have hbit := congrArg (fun p => p.coeff i) hpolynomial
    simp only [coeff_lowPolynomial, if_pos hi, coefficient] at hbit
    split_ifs at hbit with ha hb hb
    · rw [ha, hb]
    · exact absurd hbit one_ne_zero
    · exact absurd hbit.symm one_ne_zero
    · rw [Bool.eq_false_of_not_eq_true ha, Bool.eq_false_of_not_eq_true hb]
  · have hbyte : ∀ c : UInt8, c.toNat.testBit i = false := fun c =>
      Nat.testBit_eq_false_of_lt (c.toNat_lt.trans_le (Nat.pow_le_pow_right (by decide) hi))
    rw [hbyte a, hbyte b]

/-- One more bit at the end. -/
theorem lowResidue_succ (k : ℕ) (a : UInt8) :
    lowResidue (k + 1) a = lowResidue k a + AdjoinRoot.of modulus (coefficient a k) * root^k := by
  rw [lowResidue, lowPolynomial, Finset.sum_range_succ, map_add, map_mul, map_pow,
    AdjoinRoot.mk_C, AdjoinRoot.mk_X]
  rfl

/-- The first bit, and the bits after it. -/
theorem lowResidue_succ_shiftRight (k : ℕ) (a : UInt8) :
    lowResidue (k + 1) a =
      AdjoinRoot.of modulus (coefficient a 0) + root * lowResidue k (a >>> 1) := by
  have hshift : ∀ i, C (coefficient a (i + 1)) * X^(i + 1) =
      X * (C (coefficient (a >>> 1) i) * X^i) := by
    intro i
    have hbit : coefficient a (i + 1) = coefficient (a >>> 1) i := by
      simp [coefficient, Nat.add_comm]
    rw [hbit, pow_succ]
    ring
  have hlow : lowPolynomial (k + 1) a = C (coefficient a 0) + X * lowPolynomial k (a >>> 1) := by
    rw [lowPolynomial, Finset.sum_range_succ', Finset.sum_congr rfl fun i _ => hshift i,
      ← Finset.mul_sum, pow_zero, mul_one, add_comm, lowPolynomial]
  rw [lowResidue, hlow, map_add, map_mul, AdjoinRoot.mk_C, AdjoinRoot.mk_X]
  rfl

/-- The low bits are all that counts. -/
theorem lowResidue_congr {k : ℕ} {a b : UInt8} (h : ∀ i < k, coefficient a i = coefficient b i) :
    lowResidue k a = lowResidue k b := by
  rw [lowResidue, lowResidue, lowPolynomial, lowPolynomial,
    Finset.sum_congr rfl fun i hi => by rw [h i (Finset.mem_range.mp hi)]]

/-- The bits of a sum are the sums of the bits. -/
theorem coefficient_xor (a b : UInt8) (i : ℕ) :
    coefficient (a ^^^ b) i = coefficient a i + coefficient b i := by
  rw [coefficient, coefficient, coefficient, UInt8.toNat_xor, Nat.testBit_xor]
  cases a.toNat.testBit i <;> cases b.toNat.testBit i <;> decide

/-- The bitwise sum is the sum. -/
theorem residue_xor (a b : UInt8) : residue (a ^^^ b) = residue a + residue b := by
  rw [residue, residue, residue, lowResidue, lowResidue, lowResidue, ← map_add, lowPolynomial,
    lowPolynomial, lowPolynomial, ← Finset.sum_add_distrib]
  simp only [coefficient_xor, C_add, add_mul]

/-- Zero is the residue of zero. -/
theorem residue_zero : residue 0 = 0 := by
  simp [residue, lowResidue, lowPolynomial, coefficient]

/-- One is the residue of one. -/
theorem residue_one : residue 1 = 1 := by
  have hbits : ∀ i < 7, coefficient ((1 : UInt8) >>> 1) i = coefficient 0 i := by decide
  rw [residue, lowResidue_succ_shiftRight, lowResidue_congr hbits]
  simp [lowResidue, lowPolynomial, coefficient]

/-- The residues are more than one, since the modulus has a positive degree. -/
instance : Nontrivial Residue :=
  ⟨residue 0, residue 1, fun h => absurd (residue_injective h) (by decide)⟩

/-- Every residue is its own negative. -/
instance : CharP Residue 2 := charP_of_injective_algebraMap (algebraMap (ZMod 2) Residue).injective 2

/-! ## The product -/

/-- The eighth power of `X` is reduced. -/
theorem root_pow_eight : root^8 = root^4 + root^3 + root + 1 := by
  have hmodulus : AdjoinRoot.mk modulus (X^8 + (X^4 + X^3 + X + 1)) = 0 := AdjoinRoot.mk_self
  simp only [map_add, map_pow, map_one, AdjoinRoot.mk_X] at hmodulus
  exact CharTwo.add_eq_zero.mp hmodulus

/-- The constant of the reduction is what `x^8` is modulo the modulus. -/
theorem residue_reduction : residue 0x1b = root^8 := by
  have hlow : lowPolynomial 8 0x1b = X^4 + X^3 + X + 1 := by
    have hbits : ∀ i < 8, coefficient 0x1b i = if i = 0 ∨ i = 1 ∨ i = 3 ∨ i = 4 then 1 else 0 := by
      decide
    rw [lowPolynomial, Finset.sum_congr rfl fun i hi => by rw [hbits i (Finset.mem_range.mp hi)]]
    simp [Finset.sum_range_succ]
    ring
  rw [residue, lowResidue, hlow, root_pow_eight]
  simp [root]

/-- Shifted to the left, a byte is the product with `X`, but for its last bit. -/
theorem residue_shiftLeft (a : UInt8) : residue (a <<< 1) = root * lowResidue 7 a := by
  have hzero : coefficient (a <<< 1) 0 = 0 := by simp [coefficient]
  have hback : ∀ i < 7, coefficient (a <<< 1 >>> 1) i = coefficient a i := by
    intro i hi
    have hwidth : 1 + i < 8 := by omega
    have hbit : (a <<< 1 >>> 1).toNat.testBit i = a.toNat.testBit i := by
      rw [UInt8.toNat_shiftRight, UInt8.toNat_shiftLeft, Nat.testBit_shiftRight,
        Nat.testBit_mod_two_pow]
      simp [hwidth]
    rw [coefficient, hbit, coefficient]
  rw [residue, lowResidue_succ_shiftRight, hzero, map_zero, zero_add, lowResidue_congr hback]

/-- What is added where a mask finds a bit is the product with this bit. -/
theorem residue_ite (a mask addend : UInt8) (i : ℕ) (hmask : mask.toNat = 2^i) :
    residue (if a &&& mask = 0 then 0 else addend) =
      AdjoinRoot.of modulus (coefficient a i) * residue addend := by
  have hzero : a &&& mask = 0 ↔ a.toNat.testBit i = false := by
    rw [← UInt8.toNat_inj, UInt8.toNat_and, hmask, Nat.and_two_pow]
    cases a.toNat.testBit i <;> simp
  rcases Bool.eq_false_or_eq_true (a.toNat.testBit i) with hbit | hbit
  · rw [if_neg (by rw [hzero, hbit]; decide), coefficient, if_pos hbit, map_one, one_mul]
  · rw [if_pos (hzero.mpr hbit), coefficient, if_neg (by rw [hbit]; decide), map_zero, zero_mul,
      residue_zero]

/-- Doubling is the product with `X`. -/
theorem residue_double (a : UInt8) : residue (double a) = root * residue a := by
  have hlast : residue a = lowResidue 7 a + AdjoinRoot.of modulus (coefficient a 7) * root^7 :=
    lowResidue_succ 7 a
  rw [double, residue_xor, residue_shiftLeft, residue_ite a 0x80 0x1b 7 rfl, residue_reduction,
    hlast]
  ring

/-- `mulBits` is the product with the low bits. -/
theorem residue_mulBits (k : ℕ) (a b : UInt8) :
    residue (mulBits k a b) = residue a * lowResidue k b := by
  induction k generalizing a b with
  | zero => simp [mulBits, residue_zero, lowResidue, lowPolynomial]
  | succ k ih =>
    rw [mulBits, residue_xor, residue_ite b 1 a 0 rfl, ih, residue_double,
      lowResidue_succ_shiftRight]
    ring

/-- `mul` is the product. -/
theorem residue_mul (a b : UInt8) : residue (mul a b) = residue a * residue b :=
  residue_mulBits 8 a b

/-! ## The inverse -/

/-- Squaring `k` times gives the power with exponent `2^k`. -/
theorem residue_iterate_square (k : ℕ) (a : UInt8) :
    residue ((fun y => mul y y)^[k] a) = residue a ^ 2^k := by
  induction k with
  | zero => simp
  | succ k ih => rw [Function.iterate_succ_apply', residue_mul, ih, ← pow_add, ← two_mul, pow_succ']

/-- Eight squarings keep every residue: they are additive, and they keep `X`. -/
theorem pow_256 (r : Residue) : r^256 = r := by
  have hroot : root^256 = root := by
    have htwo : residue 2 = root := by
      rw [show (2 : UInt8) = double 1 from rfl, residue_double, residue_one, mul_one]
    have hsquares : (fun y => mul y y)^[8] 2 = 2 := by decide
    have hpower := residue_iterate_square 8 2
    rw [hsquares, htwo] at hpower
    exact hpower.symm
  -- Constants are their own powers too, and constants and `X` make up the ring.
  have hid : iterateFrobenius Residue 2 8 = RingHom.id Residue := by
    apply Ideal.Quotient.ringHom_ext
    apply Polynomial.ringHom_ext
    · intro c
      show AdjoinRoot.of modulus c ^ 2^8 = AdjoinRoot.of modulus c
      rw [← map_pow, ZMod.pow_card_pow]
    · exact hroot
  exact RingHom.congr_fun hid r

/-- The powers that are multiplied for the inverse. -/
theorem residue_squares (k : ℕ) (a : UInt8) :
    residue (squares k a) = residue a ^ (2^(k + 1) - 2) := by
  induction k generalizing a with
  | zero => rw [squares, residue_one, zero_add, pow_one, Nat.sub_self, pow_zero]
  | succ k ih =>
    have hexponent : 2^(k + 2) - 2 = 2 + 2 * (2^(k + 1) - 2) := by
      have hpos : 0 < 2^k := Nat.two_pow_pos k
      rw [pow_succ 2 (k + 1), pow_succ 2 k]
      omega
    rw [squares, residue_mul, ih, residue_mul, ← sq, ← pow_mul, ← pow_add, hexponent]

/-- The inverse is the power to 254 of the residue. -/
theorem residue_inverse (a : UInt8) : residue (inverse a) = residue a ^ 254 := residue_squares 7 a

/-- The inverse of the inverse. -/
theorem inverse_inverse (a : UInt8) : inverse (inverse a) = a := by
  apply residue_injective
  calc residue (inverse (inverse a))
      = (residue a ^ 254)^254 := by rw [residue_inverse, residue_inverse]
    _ = (residue a ^ 256)^252 * residue a ^ 4 := by ring
    _ = residue a ^ 252 * residue a ^ 4 := by rw [pow_256]
    _ = residue a ^ 256 := (pow_add _ 252 4).symm
    _ = residue a := pow_256 _

end SymmetricCrypto.Aes.Field
