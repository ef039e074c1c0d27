import Mathlib
import SymmetricCrypto.Proofs.Poly1305.Packing

/-!
# The arithmetic on limbs

Between two blocks the limbs are `Bounded`: 26 bits each, but the second limb may have one bit more.
Under this bound no sum and no product of a step overflows, so each operation is exact on numbers:
the sum (`Limbs.toNat_add`) and the product in columns (`Limbs.toNat_mul`). A product of limbs
beyond the fifth comes back five times, which is a multiple of the modulus less
(`Limbs.toNat_mul_modEq`), and so is a carry out of the last column (`Columns.toNat_carry_modEq`).
The carries lead back to the bound (`Columns.bounded_carry`).

At the end `settle` leaves 26 bits in every limb (`Limbs.tight_settle`). Then the number is less
than twice the modulus, and `reduce` takes the modulus off exactly if it is reached
(`Limbs.toNat_reduce`).

Chains of carries are compared with the limbs before their masks (`Columns.chained`,
`Limbs.chained`, `Limbs.plusFive`): each link is one equation between numbers, and `omega` puts them
together.
-/

namespace SymmetricCrypto.Poly1305

open Standard (modulus)

/-- What the limbs are between two blocks. -/
structure Limbs.Bounded (h : Limbs) : Prop where
  l0 : h.l0.toNat < 2^26
  l1 : h.l1.toNat < 2^26 + 64
  l2 : h.l2.toNat < 2^26
  l3 : h.l3.toNat < 2^26
  l4 : h.l4.toNat < 2^26

/-- What the limbs are when a block has been added. -/
structure Limbs.Wide (h : Limbs) : Prop where
  l0 : h.l0.toNat < 2^27 + 64
  l1 : h.l1.toNat < 2^27 + 64
  l2 : h.l2.toNat < 2^27 + 64
  l3 : h.l3.toNat < 2^27 + 64
  l4 : h.l4.toNat < 2^27 + 64

/-- The number that the columns hold. -/
def Columns.toNat (d : Columns) : ℕ :=
  d.d0.toNat + 2^26 * (d.d1.toNat + 2^26 * (d.d2.toNat + 2^26 * (d.d3.toNat +
    2^26 * d.d4.toNat)))

/-- What the columns of a product are. The last one has no pair that counts five times. -/
structure Columns.Fits (d : Columns) : Prop where
  d0 : d.d0.toNat < 2^60
  d1 : d.d1.toNat < 2^60
  d2 : d.d2.toNat < 2^60
  d3 : d.d3.toNat < 2^60
  d4 : d.d4.toNat < 5 * ((2^27 + 64) * 2^26)

/-- A multiple of the modulus less is the same. -/
theorem modEq_of_eq_add {a b k : ℕ} (h : a = b + modulus * k) : b ≡ a [MOD modulus] := by
  rw [h]
  exact (Nat.add_mul_mod_self_left _ _ _).symm

namespace Limbs

/-- Before the first block. -/
theorem bounded_zero : zero.Bounded := by
  constructor <;> decide

/-! ## The sum -/

/-- Adding a block does not overflow. -/
theorem wide_add {h b : Limbs} (bounded : h.Bounded) (tight : b.Tight) : (h.add b).Wide := by
  obtain ⟨h0, h1, h2, h3, h4⟩ := bounded
  obtain ⟨b0, b1, b2, b3, b4⟩ := tight
  constructor
  all_goals
    rw [add, UInt32.toNat_add]
    omega

/-- The sum is exact. -/
theorem toNat_add {h b : Limbs} (bounded : h.Bounded) (tight : b.Tight) :
    (h.add b).toNat = h.toNat + b.toNat := by
  obtain ⟨h0, h1, h2, h3, h4⟩ := bounded
  obtain ⟨b0, b1, b2, b3, b4⟩ := tight
  simp only [toNat, add, UInt32.toNat_add]
  omega

/-! ## The product -/

/-- A product under a bound is exact. -/
theorem toNat_product {x y : UInt64} {B C : ℕ} (hBC : 5 * (B * C) ≤ 2^64) (hx : x.toNat < B)
    (hy : y.toNat < C) :
    (x * y).toNat = x.toNat * y.toNat ∧ x.toNat * y.toNat < B * C := by
  have hlt : x.toNat * y.toNat < B * C := Nat.mul_lt_mul'' hx hy
  rw [UInt64.toNat_mul, Nat.mod_eq_of_lt (by omega)]
  exact ⟨rfl, hlt⟩

/-- Five products under a bound and their sum fit a word. -/
theorem toNat_dot {x0 x1 x2 x3 x4 y0 y1 y2 y3 y4 : UInt64} {B C : ℕ} (hBC : 5 * (B * C) ≤ 2^64)
    (hx : x0.toNat < B ∧ x1.toNat < B ∧ x2.toNat < B ∧ x3.toNat < B ∧ x4.toNat < B)
    (hy : y0.toNat < C ∧ y1.toNat < C ∧ y2.toNat < C ∧ y3.toNat < C ∧ y4.toNat < C) :
    (x0 * y0 + x1 * y1 + x2 * y2 + x3 * y3 + x4 * y4).toNat =
      x0.toNat * y0.toNat + x1.toNat * y1.toNat + x2.toNat * y2.toNat + x3.toNat * y3.toNat +
        x4.toNat * y4.toNat ∧
    (x0 * y0 + x1 * y1 + x2 * y2 + x3 * y3 + x4 * y4).toNat < 5 * (B * C) := by
  obtain ⟨hx0, hx1, hx2, hx3, hx4⟩ := hx
  obtain ⟨hy0, hy1, hy2, hy3, hy4⟩ := hy
  obtain ⟨e0, h0⟩ := toNat_product hBC hx0 hy0
  obtain ⟨e1, h1⟩ := toNat_product hBC hx1 hy1
  obtain ⟨e2, h2⟩ := toNat_product hBC hx2 hy2
  obtain ⟨e3, h3⟩ := toNat_product hBC hx3 hy3
  obtain ⟨e4, h4⟩ := toNat_product hBC hx4 hy4
  -- Each product is less than a fifth of the word, so no partial sum wraps.
  simp only [UInt64.toNat_add, e0, e1, e2, e3, e4]
  omega

/-- Five times a limb fits a word. -/
theorem toNat_mul_five (x : UInt32) : (x.toUInt64 * 5).toNat = 5 * x.toNat := by
  have hx := x.toNat_lt
  rw [UInt64.toNat_mul, UInt32.toNat_toUInt64, Nat.mul_comm]
  exact Nat.mod_eq_of_lt (by show 5 * x.toNat < 2^64; omega)

variable {h r : Limbs}

/-- The limbs as factors. -/
theorem Wide.toUInt64_lt (wide : h.Wide) :
    h.l0.toUInt64.toNat < 2^27 + 64 ∧ h.l1.toUInt64.toNat < 2^27 + 64 ∧
      h.l2.toUInt64.toNat < 2^27 + 64 ∧ h.l3.toUInt64.toNat < 2^27 + 64 ∧
      h.l4.toUInt64.toNat < 2^27 + 64 := by
  simp only [UInt32.toNat_toUInt64]
  exact ⟨wide.l0, wide.l1, wide.l2, wide.l3, wide.l4⟩

/-- The first column is exact, and so are the others, each with its own pairs of limbs. -/
theorem toNat_mul (wide : h.Wide) (tight : r.Tight) :
    (h.mul r).d0.toNat = h.l0.toNat * r.l0.toNat + h.l1.toNat * (5 * r.l4.toNat) +
      h.l2.toNat * (5 * r.l3.toNat) + h.l3.toNat * (5 * r.l2.toNat) +
        h.l4.toNat * (5 * r.l1.toNat) ∧
    (h.mul r).d1.toNat = h.l0.toNat * r.l1.toNat + h.l1.toNat * r.l0.toNat +
      h.l2.toNat * (5 * r.l4.toNat) + h.l3.toNat * (5 * r.l3.toNat) +
        h.l4.toNat * (5 * r.l2.toNat) ∧
    (h.mul r).d2.toNat = h.l0.toNat * r.l2.toNat + h.l1.toNat * r.l1.toNat +
      h.l2.toNat * r.l0.toNat + h.l3.toNat * (5 * r.l4.toNat) +
        h.l4.toNat * (5 * r.l3.toNat) ∧
    (h.mul r).d3.toNat = h.l0.toNat * r.l3.toNat + h.l1.toNat * r.l2.toNat +
      h.l2.toNat * r.l1.toNat + h.l3.toNat * r.l0.toNat + h.l4.toNat * (5 * r.l4.toNat) ∧
    (h.mul r).d4.toNat = h.l0.toNat * r.l4.toNat + h.l1.toNat * r.l3.toNat +
      h.l2.toNat * r.l2.toNat + h.l3.toNat * r.l1.toNat + h.l4.toNat * r.l0.toNat := by
  have hx := wide.toUInt64_lt
  obtain ⟨r0, r1, r2, r3, r4⟩ := tight
  refine ⟨?_, ?_, ?_, ?_, ?_⟩
  -- Each column is a sum of five products whose second factors are at most five limbs.
  all_goals
    refine (toNat_dot (C := 5 * 2^26) (by norm_num) hx ?_).1.trans ?_
    · simp only [UInt32.toNat_toUInt64, toNat_mul_five]
      omega
    · simp only [UInt32.toNat_toUInt64, toNat_mul_five]

/-- The columns leave room for carries. -/
theorem fits_mul (wide : h.Wide) (tight : r.Tight) : (h.mul r).Fits := by
  have hx := wide.toUInt64_lt
  obtain ⟨r0, r1, r2, r3, r4⟩ := tight
  constructor
  case d4 =>
    -- No factor five: the bound that lets the carry come back five times in 32 bits.
    refine (toNat_dot (by norm_num) hx ?_).2
    simp only [UInt32.toNat_toUInt64]
    exact ⟨r4, r3, r2, r1, r0⟩
  all_goals
    refine (toNat_dot (C := 5 * 2^26) (by norm_num) hx ?_).2.trans (by norm_num)
    simp only [UInt32.toNat_toUInt64, toNat_mul_five]
    omega

/-- The columns hold the product but for a multiple of the modulus. -/
theorem toNat_mul_modEq (wide : h.Wide) (tight : r.Tight) :
    (h.mul r).toNat ≡ h.toNat * r.toNat [MOD modulus] := by
  obtain ⟨e0, e1, e2, e3, e4⟩ := toNat_mul wide tight
  -- The pairs of limbs that come back into the columns.
  let K : ℕ := h.l1.toNat * r.l4.toNat + h.l2.toNat * r.l3.toNat + h.l3.toNat * r.l2.toNat +
    h.l4.toNat * r.l1.toNat +
    2^26 * (h.l2.toNat * r.l4.toNat + h.l3.toNat * r.l3.toNat + h.l4.toNat * r.l2.toNat) +
    2^52 * (h.l3.toNat * r.l4.toNat + h.l4.toNat * r.l3.toNat) +
    2^78 * (h.l4.toNat * r.l4.toNat)
  have hproduct : h.toNat * r.toNat = (h.mul r).toNat + modulus * K := by
    simp only [Columns.toNat, e0, e1, e2, e3, e4, Limbs.toNat, modulus, K]
    norm_num
    ring
  exact modEq_of_eq_add hproduct

end Limbs

/-! ## The carries -/

/-- The low 26 bits of a column. -/
theorem toNat_low (x : UInt64) : (x &&& mask.toUInt64).toUInt32.toNat = x.toNat % 2^26 := by
  have hand : (x &&& mask.toUInt64).toNat = x.toNat % 2^26 := by
    rw [UInt64.toNat_and]
    exact Nat.and_two_pow_sub_one_eq_mod x.toNat 26
  rw [UInt64.toNat_toUInt32, hand]
  omega

/-- They are 26 bits. -/
theorem toNat_low_lt (x : UInt64) : (x &&& mask.toUInt64).toUInt32.toNat < 2^26 := by
  rw [toNat_low]
  exact Nat.mod_lt _ (by decide)

/-- The carry out of a column. -/
theorem toNat_carry (x : UInt64) : (x >>> 26).toNat = x.toNat / 2^26 := by
  rw [UInt64.toNat_shiftRight, ← Nat.shiftRight_eq_div_pow]
  rfl

/-- A column with the carry out of another one, if it fits. -/
theorem toNat_add_carry {x y : UInt64} (h : x.toNat + y.toNat / 2^26 < 2^64) :
    (x + (y >>> 26)).toNat = x.toNat + y.toNat / 2^26 := by
  rw [UInt64.toNat_add, toNat_carry]
  exact Nat.mod_eq_of_lt h

namespace Columns

variable {d : Columns}

/-- The columns, each with the carry out of the column before it. -/
def chained (d : Columns) : Columns :=
  let d1 := d.d1 + (d.d0 >>> 26)
  let d2 := d.d2 + (d1 >>> 26)
  let d3 := d.d3 + (d2 >>> 26)
  let d4 := d.d4 + (d3 >>> 26)
  ⟨d.d0, d1, d2, d3, d4⟩

/-- The first limb with the carry that comes back. -/
def returned (d : Columns) : UInt32 :=
  (d.d0 &&& mask.toUInt64).toUInt32 + ((d.chained.d4 >>> 26) * 5).toUInt32

/-- The limbs are the low bits of the chained columns; only the carry that comes back reaches on
into the second limb. -/
theorem carry_eq (d : Columns) :
    d.carry = ⟨d.returned &&& mask,
      (d.chained.d1 &&& mask.toUInt64).toUInt32 + (d.returned >>> 26),
      (d.chained.d2 &&& mask.toUInt64).toUInt32, (d.chained.d3 &&& mask.toUInt64).toUInt32,
      (d.chained.d4 &&& mask.toUInt64).toUInt32⟩ := rfl

/-- The chain does not overflow. -/
theorem toNat_chained (fits : d.Fits) :
    d.chained.d1.toNat = d.d1.toNat + d.d0.toNat / 2^26 ∧
    d.chained.d2.toNat = d.d2.toNat + d.chained.d1.toNat / 2^26 ∧
    d.chained.d3.toNat = d.d3.toNat + d.chained.d2.toNat / 2^26 ∧
    d.chained.d4.toNat = d.d4.toNat + d.chained.d3.toNat / 2^26 := by
  obtain ⟨f0, f1, f2, f3, f4⟩ := fits
  have e1 : d.chained.d1.toNat = d.d1.toNat + d.d0.toNat / 2^26 :=
    toNat_add_carry (x := d.d1) (y := d.d0) (by omega)
  have e2 : d.chained.d2.toNat = d.d2.toNat + d.chained.d1.toNat / 2^26 :=
    toNat_add_carry (x := d.d2) (y := d.chained.d1) (by omega)
  have e3 : d.chained.d3.toNat = d.d3.toNat + d.chained.d2.toNat / 2^26 :=
    toNat_add_carry (x := d.d3) (y := d.chained.d2) (by omega)
  have e4 : d.chained.d4.toNat = d.d4.toNat + d.chained.d3.toNat / 2^26 :=
    toNat_add_carry (x := d.d4) (y := d.chained.d3) (by omega)
  exact ⟨e1, e2, e3, e4⟩

/-- Five times the carry out of the last column fits a limb with room for another one. -/
theorem toNat_five_carry (fits : d.Fits) :
    ((d.chained.d4 >>> 26) * 5).toNat = 5 * (d.chained.d4.toNat / 2^26) ∧
      5 * (d.chained.d4.toNat / 2^26) < 2^32 - 2^26 := by
  obtain ⟨e1, e2, e3, e4⟩ := toNat_chained fits
  obtain ⟨f0, f1, f2, f3, f4⟩ := fits
  have hmul : ((d.chained.d4 >>> 26) * 5).toNat = d.chained.d4.toNat / 2^26 * 5 % 2^64 := by
    rw [UInt64.toNat_mul, toNat_carry]
    rfl
  omega

/-- The carry out of the last column comes back five times and fits. -/
theorem toNat_returned (fits : d.Fits) :
    d.returned.toNat = d.d0.toNat % 2^26 + 5 * (d.chained.d4.toNat / 2^26) := by
  obtain ⟨hmul, hlt⟩ := toNat_five_carry fits
  rw [returned, UInt32.toNat_add, toNat_low, UInt64.toNat_toUInt32, hmul]
  omega

/-- The second limb does not overflow. -/
theorem toNat_carry_l1 (d : Columns) :
    d.carry.l1.toNat = d.chained.d1.toNat % 2^26 + d.returned.toNat / 2^26 := by
  have hlt := d.returned.toNat_lt
  rw [carry_eq, UInt32.toNat_add, toNat_low, toNat_shiftRight_26]
  omega

/-- The limbs are as they are between two blocks. -/
theorem bounded_carry (d : Columns) : d.carry.Bounded where
  l0 := toNat_and_mask_lt d.returned
  l1 := by
    have hlt := d.returned.toNat_lt
    rw [toNat_carry_l1]
    omega
  l2 := toNat_low_lt d.chained.d2
  l3 := toNat_low_lt d.chained.d3
  l4 := toNat_low_lt d.chained.d4

/-- The carries take a multiple of the modulus off. -/
theorem toNat_carry_modEq (fits : d.Fits) : d.carry.toNat ≡ d.toNat [MOD modulus] := by
  have hl1 := toNat_carry_l1 d
  have e0 := toNat_returned fits
  obtain ⟨e1, e2, e3, e4⟩ := toNat_chained fits
  have hvalue : d.toNat = d.carry.toNat + modulus * (d.chained.d4.toNat / 2^26) := by
    rw [carry_eq] at hl1 ⊢
    simp only [Limbs.toNat, toNat, toNat_and_mask, toNat_low, hl1, modulus]
    omega
  exact modEq_of_eq_add hvalue

end Columns

/-! ## The end of a computation -/

namespace Limbs

variable {h : Limbs}

/-- The limbs, each with the carry out of the one before it, from the second one around to the
first. -/
def chained (h : Limbs) : Limbs :=
  let l2 := h.l2 + (h.l1 >>> 26)
  let l3 := h.l3 + (l2 >>> 26)
  let l4 := h.l4 + (l3 >>> 26)
  ⟨h.l0 + (l4 >>> 26) * 5, h.l1, l2, l3, l4⟩

/-- Five times the carry out of a limb. -/
theorem toNat_five_carry (x : UInt32) : ((x >>> 26) * 5).toNat = 5 * (x.toNat / 2^26) := by
  have hx := x.toNat_lt
  rw [UInt32.toNat_mul, toNat_shiftRight_26]
  show x.toNat / 2^26 * 5 % 2^32 = _
  omega

/-- The limbs are the low bits of the chained ones; only the carry that comes around reaches on into
the second limb. -/
theorem settle_eq (h : Limbs) :
    h.settle = ⟨h.chained.l0 &&& mask, (h.l1 &&& mask) + (h.chained.l0 >>> 26),
      h.chained.l2 &&& mask, h.chained.l3 &&& mask, h.chained.l4 &&& mask⟩ := rfl

/-- The chain does not overflow. -/
theorem toNat_chained (bounded : h.Bounded) :
    h.chained.l2.toNat = h.l2.toNat + h.l1.toNat / 2^26 ∧
    h.chained.l3.toNat = h.l3.toNat + h.chained.l2.toNat / 2^26 ∧
    h.chained.l4.toNat = h.l4.toNat + h.chained.l3.toNat / 2^26 ∧
    h.chained.l0.toNat = h.l0.toNat + 5 * (h.chained.l4.toNat / 2^26) := by
  obtain ⟨b0, b1, b2, b3, b4⟩ := bounded
  have e2 : h.chained.l2.toNat = h.l2.toNat + h.l1.toNat / 2^26 :=
    toNat_add_shiftRight_26 (x := h.l2) (y := h.l1) (by omega)
  have e3 : h.chained.l3.toNat = h.l3.toNat + h.chained.l2.toNat / 2^26 :=
    toNat_add_shiftRight_26 (x := h.l3) (y := h.chained.l2) (by omega)
  have e4 : h.chained.l4.toNat = h.l4.toNat + h.chained.l3.toNat / 2^26 :=
    toNat_add_shiftRight_26 (x := h.l4) (y := h.chained.l3) (by omega)
  have e0 : h.chained.l0.toNat = h.l0.toNat + 5 * (h.chained.l4.toNat / 2^26) := by
    have hl0 : h.chained.l0 = h.l0 + (h.chained.l4 >>> 26) * 5 := rfl
    rw [hl0, UInt32.toNat_add, toNat_five_carry]
    omega
  exact ⟨e2, e3, e4, e0⟩

/-- The second limb has 26 bits: if it had more, they are in the third limb now, and if not, no
carry came around. -/
theorem toNat_settle_l1 (bounded : h.Bounded) :
    h.settle.l1.toNat = h.l1.toNat % 2^26 + h.chained.l0.toNat / 2^26 ∧
    h.l1.toNat % 2^26 + h.chained.l0.toNat / 2^26 < 2^26 := by
  obtain ⟨e2, e3, e4, e0⟩ := toNat_chained bounded
  obtain ⟨b0, b1, b2, b3, b4⟩ := bounded
  have hlt : h.l1.toNat % 2^26 + h.chained.l0.toNat / 2^26 < 2^26 := by omega
  refine ⟨?_, hlt⟩
  rw [settle_eq, UInt32.toNat_add, toNat_and_mask, toNat_shiftRight_26]
  omega

/-- The last carries leave 26 bits in every limb. -/
theorem tight_settle (bounded : h.Bounded) : h.settle.Tight where
  l0 := toNat_and_mask_lt h.chained.l0
  l1 := by
    obtain ⟨hl1, hlt⟩ := toNat_settle_l1 bounded
    rwa [hl1]
  l2 := toNat_and_mask_lt h.chained.l2
  l3 := toNat_and_mask_lt h.chained.l3
  l4 := toNat_and_mask_lt h.chained.l4

/-- They take a multiple of the modulus off. -/
theorem toNat_settle_modEq (bounded : h.Bounded) : h.settle.toNat ≡ h.toNat [MOD modulus] := by
  obtain ⟨hl1, -⟩ := toNat_settle_l1 bounded
  obtain ⟨e2, e3, e4, e0⟩ := toNat_chained bounded
  have hvalue : h.toNat = h.settle.toNat + modulus * (h.chained.l4.toNat / 2^26) := by
    rw [settle_eq] at hl1 ⊢
    simp only [toNat, toNat_and_mask, hl1, modulus]
    omega
  exact modEq_of_eq_add hvalue

/-- The limbs with five added, each with the carry out of the one before it. -/
def plusFive (h : Limbs) : Limbs :=
  let g0 := h.l0 + 5
  let g1 := h.l1 + (g0 >>> 26)
  let g2 := h.l2 + (g1 >>> 26)
  let g3 := h.l3 + (g2 >>> 26)
  ⟨g0, g1, g2, g3, h.l4 + (g3 >>> 26)⟩

/-- Adding five does not overflow. -/
theorem toNat_plusFive (tight : h.Tight) :
    h.plusFive.l0.toNat = h.l0.toNat + 5 ∧
    h.plusFive.l1.toNat = h.l1.toNat + h.plusFive.l0.toNat / 2^26 ∧
    h.plusFive.l2.toNat = h.l2.toNat + h.plusFive.l1.toNat / 2^26 ∧
    h.plusFive.l3.toNat = h.l3.toNat + h.plusFive.l2.toNat / 2^26 ∧
    h.plusFive.l4.toNat = h.l4.toNat + h.plusFive.l3.toNat / 2^26 := by
  obtain ⟨b0, b1, b2, b3, b4⟩ := tight
  have e0 : h.plusFive.l0.toNat = h.l0.toNat + 5 := by
    have five : (5 : UInt32).toNat = 5 := rfl
    rw [plusFive, UInt32.toNat_add, five]
    omega
  have e1 : h.plusFive.l1.toNat = h.l1.toNat + h.plusFive.l0.toNat / 2^26 :=
    toNat_add_shiftRight_26 (x := h.l1) (y := h.plusFive.l0) (by omega)
  have e2 : h.plusFive.l2.toNat = h.l2.toNat + h.plusFive.l1.toNat / 2^26 :=
    toNat_add_shiftRight_26 (x := h.l2) (y := h.plusFive.l1) (by omega)
  have e3 : h.plusFive.l3.toNat = h.l3.toNat + h.plusFive.l2.toNat / 2^26 :=
    toNat_add_shiftRight_26 (x := h.l3) (y := h.plusFive.l2) (by omega)
  have e4 : h.plusFive.l4.toNat = h.l4.toNat + h.plusFive.l3.toNat / 2^26 :=
    toNat_add_shiftRight_26 (x := h.l4) (y := h.plusFive.l3) (by omega)
  exact ⟨e0, e1, e2, e3, e4⟩

/-- The number with five added, and its carry out of the last limb. -/
theorem plusFive_spec (tight : h.Tight) :
    h.toNat + 5 = h.plusFive.l0.toNat % 2^26 + 2^26 * (h.plusFive.l1.toNat % 2^26 +
      2^26 * (h.plusFive.l2.toNat % 2^26 + 2^26 * (h.plusFive.l3.toNat % 2^26 +
        2^26 * h.plusFive.l4.toNat))) ∧ h.plusFive.l4.toNat < 2^27 := by
  obtain ⟨e0, e1, e2, e3, e4⟩ := toNat_plusFive tight
  obtain ⟨b0, b1, b2, b3, b4⟩ := tight
  constructor
  · rw [toNat]
    omega
  · omega

/-- The choice between two limbs by a mask over all bits. -/
def pick (reached l g : UInt32) : UInt32 := (l &&& ~~~reached) ||| (g &&& mask &&& reached)

/-- An empty mask picks the first limb. -/
theorem pick_none (l g : UInt32) : pick (0 - 0) l g = l := by
  simp [pick]

/-- A full mask picks the second one. -/
theorem pick_all (l g : UInt32) : pick (0 - 1) l g = g &&& mask := by
  simp [pick]

/-- If the number does not reach the modulus, it stays; if it does, the number with five added is
taken without its carry. -/
theorem reduce_eq (tight : h.Tight) :
    h.reduce = if h.toNat < modulus then h else
      ⟨h.plusFive.l0 &&& mask, h.plusFive.l1 &&& mask, h.plusFive.l2 &&& mask,
        h.plusFive.l3 &&& mask, h.plusFive.l4 &&& mask⟩ := by
  obtain ⟨hfive, hlt⟩ := plusFive_spec tight
  have hpick : h.reduce =
      let reached := (0 : UInt32) - (h.plusFive.l4 >>> 26)
      ⟨pick reached h.l0 h.plusFive.l0, pick reached h.l1 h.plusFive.l1,
        pick reached h.l2 h.plusFive.l2, pick reached h.l3 h.plusFive.l3,
        pick reached h.l4 h.plusFive.l4⟩ := rfl
  -- The carry out of the last limb is one exactly if the modulus is reached.
  have hcarry := toNat_shiftRight_26 h.plusFive.l4
  split_ifs with hreached
  · have hnone : h.plusFive.l4 >>> 26 = 0 := by
      apply UInt32.toNat_inj.mp
      rw [hcarry, UInt32.toNat_zero]
      unfold modulus at hreached
      omega
    rw [hpick, hnone]
    simp only [pick_none]
  · have hone : h.plusFive.l4 >>> 26 = 1 := by
      apply UInt32.toNat_inj.mp
      rw [hcarry, UInt32.toNat_one]
      unfold modulus at hreached
      omega
    rw [hpick, hone]
    simp only [pick_all]

/-- Limbs of 26 bits are a number of 130 bits. -/
theorem Tight.toNat_lt (tight : h.Tight) : h.toNat < 2^130 := by
  obtain ⟨b0, b1, b2, b3, b4⟩ := tight
  rw [toNat]
  omega

/-- The number that stays is the remainder. -/
theorem toNat_reduce (tight : h.Tight) : h.reduce.toNat = h.toNat % modulus := by
  obtain ⟨hfive, hlt⟩ := plusFive_spec tight
  have htwo := tight.toNat_lt
  rw [reduce_eq tight]
  split_ifs with hreached
  · exact (Nat.mod_eq_of_lt hreached).symm
  · have hmod : h.toNat % modulus = h.toNat - modulus := by
      rw [Nat.mod_eq_sub_mod (Nat.le_of_not_lt hreached)]
      apply Nat.mod_eq_of_lt
      unfold modulus at hreached ⊢
      omega
    rw [hmod]
    unfold modulus at hreached ⊢
    conv_lhs => rw [toNat]
    simp only [toNat_and_mask]
    omega

/-- Its limbs still have 26 bits. -/
theorem tight_reduce (tight : h.Tight) : h.reduce.Tight := by
  rw [reduce_eq tight]
  split_ifs
  · exact tight
  · exact ⟨toNat_and_mask_lt _, toNat_and_mask_lt _, toNat_and_mask_lt _, toNat_and_mask_lt _,
      toNat_and_mask_lt _⟩

end Limbs

end SymmetricCrypto.Poly1305
