import Mathlib
import SymmetricCrypto.Proofs.Bytes.Conservation
import SymmetricCrypto.Proofs.Checked
import SymmetricCrypto.Proofs.Poly1305.Evaluation

/-!
# No limb operation overflows

The arithmetic on limbs once more with every operation checked: a sum or a product has to be the number
that was meant, a word that is made narrower has to hold what it held (`narrow`), and a disjunction
that packs has to be a sum (`join`). From limbs that are `Bounded` no check fails in a step
(`absorbBlockChecked_eq`), and the step leaves `Bounded` limbs. The bound is strong enough for the
columns (`mulChecked_eq`) and for the carry that comes back five times into a word of 32 bits
(`carryChecked_eq`), and weak enough to be kept by the one bit that this carry leaves in the second limb.

At the end the last carries leave 26 bits in every limb (`Limbs.tight_settle`), the second one included,
so that five can be added (`reduceChecked_eq`) and no bit is in two limbs when they are packed
(`toWordsChecked_eq`).

A run records the limbs after each block (`updateChecked`), so that the bound can be stated for all of
them (`limbs_exact`).
-/

namespace SymmetricCrypto.Poly1305

open Checked
open Standard (modulus)

/-- A word of 64 bits as one of 32, which has to hold the same number. -/
def narrow (x : UInt64) : Checked UInt32 := exact x.toUInt32 x.toNat

/-- A disjunction of words that must not have a bit in common. -/
def join (x y : UInt32) : Checked UInt32 := exact (x ||| y) (x.toNat + y.toNat)

/-- A word that fits 32 bits loses nothing. -/
theorem narrow_eq {x : UInt64} (h : x.toNat < 2^32) : narrow x = pure x.toUInt32 := by
  refine exact_eq ?_
  show (x.toUInt32.toNat : ℤ) = x.toNat
  rw [UInt64.toNat_toUInt32, Nat.mod_eq_of_lt h]

/-- A word below the lowest bit of another one has no bit in common with it. -/
theorem join_shiftLeft {low : UInt32} (high : UInt32) {k : ℕ} (hk : k < 32) (hlow : low.toNat < 2^k) :
    join low (high <<< UInt32.ofNat k) = pure (low ||| high <<< UInt32.ofNat k) := by
  refine exact_eq ?_
  show ((low ||| high <<< UInt32.ofNat k).toNat : ℤ) = _
  rw [Word.toNat_or_shiftLeft low high hk hlow, Word.toNat_shiftLeft high hk, Nat.cast_add]

/-- A sum with a carry out of another word. -/
theorem add_shiftRight_eq {x y : UInt32} (h : (x + (y >>> 26)).toNat = x.toNat + y.toNat / 2^26) :
    add x (y >>> 26) = pure (x + (y >>> 26)) := by
  refine add_eq ?_
  show (x + (y >>> 26)).toNat = x.toNat + (y >>> 26).toNat
  rw [h, toNat_shiftRight_26]

/-- A sum with a carry out of another column. -/
theorem add_carry_eq {x y : UInt64} (h : (x + (y >>> 26)).toNat = x.toNat + y.toNat / 2^26) :
    add x (y >>> 26) = pure (x + (y >>> 26)) := by
  refine add_eq ?_
  show (x + (y >>> 26)).toNat = x.toNat + (y >>> 26).toNat
  rw [h, toNat_carry]

/-! ## The checked operations -/

/-- Five products and their sum. -/
def dotChecked (x0 x1 x2 x3 x4 y0 y1 y2 y3 y4 : UInt64) : Checked UInt64 := do
  let p0 ← mul x0 y0
  let p1 ← mul x1 y1
  let p2 ← mul x2 y2
  let p3 ← mul x3 y3
  let p4 ← mul x4 y4
  let s1 ← add p0 p1
  let s2 ← add s1 p2
  let s3 ← add s2 p3
  add s3 p4

namespace Limbs

/-- The sum, limb by limb. -/
def addChecked (a b : Limbs) : Checked Limbs := do
  let l0 ← Checked.add a.l0 b.l0
  let l1 ← Checked.add a.l1 b.l1
  let l2 ← Checked.add a.l2 b.l2
  let l3 ← Checked.add a.l3 b.l3
  let l4 ← Checked.add a.l4 b.l4
  return ⟨l0, l1, l2, l3, l4⟩

/-- The product in columns. -/
def mulChecked (h r : Limbs) : Checked Columns := do
  let h0 := h.l0.toUInt64
  let h1 := h.l1.toUInt64
  let h2 := h.l2.toUInt64
  let h3 := h.l3.toUInt64
  let h4 := h.l4.toUInt64
  let r0 := r.l0.toUInt64
  let r1 := r.l1.toUInt64
  let r2 := r.l2.toUInt64
  let r3 := r.l3.toUInt64
  let r4 := r.l4.toUInt64
  let s1 ← Checked.mul r1 5
  let s2 ← Checked.mul r2 5
  let s3 ← Checked.mul r3 5
  let s4 ← Checked.mul r4 5
  let d0 ← dotChecked h0 h1 h2 h3 h4 r0 s4 s3 s2 s1
  let d1 ← dotChecked h0 h1 h2 h3 h4 r1 r0 s4 s3 s2
  let d2 ← dotChecked h0 h1 h2 h3 h4 r2 r1 r0 s4 s3
  let d3 ← dotChecked h0 h1 h2 h3 h4 r3 r2 r1 r0 s4
  let d4 ← dotChecked h0 h1 h2 h3 h4 r4 r3 r2 r1 r0
  return ⟨d0, d1, d2, d3, d4⟩

/-- The chain of carries that ends a computation. -/
def settleChecked (h : Limbs) : Checked Limbs := do
  let l2 ← Checked.add h.l2 (h.l1 >>> 26)
  let l3 ← Checked.add h.l3 (l2 >>> 26)
  let l4 ← Checked.add h.l4 (l3 >>> 26)
  let around ← Checked.mul (l4 >>> 26) 5
  let l0 ← Checked.add h.l0 around
  let l1 ← Checked.add (h.l1 &&& mask) (l0 >>> 26)
  return ⟨l0 &&& mask, l1, l2 &&& mask, l3 &&& mask, l4 &&& mask⟩

/-- The number modulo `2^130 - 5`. Only the mask of the choice is meant to go around. -/
def reduceChecked (h : Limbs) : Checked Limbs := do
  let g0 ← Checked.add h.l0 5
  let g1 ← Checked.add h.l1 (g0 >>> 26)
  let g2 ← Checked.add h.l2 (g1 >>> 26)
  let g3 ← Checked.add h.l3 (g2 >>> 26)
  let g4 ← Checked.add h.l4 (g3 >>> 26)
  let carried := g4 >>> 26
  let reached := 0 - carried
  return ⟨pick reached h.l0 g0, pick reached h.l1 g1, pick reached h.l2 g2, pick reached h.l3 g3,
    pick reached h.l4 g4⟩

/-- The low 128 bits as four words. -/
def toWordsChecked (h : Limbs) : Checked (Vector UInt32 4) := do
  let w0 ← join h.l0 (h.l1 <<< 26)
  let w1 ← join (h.l1 >>> 6) (h.l2 <<< 20)
  let w2 ← join (h.l2 >>> 12) (h.l3 <<< 14)
  let w3 ← join (h.l3 >>> 18) (h.l4 <<< 8)
  return #v[w0, w1, w2, w3]

end Limbs

/-- One chain of carries through the columns. -/
def Columns.carryChecked (d : Columns) : Checked Limbs := do
  let l0 ← narrow (d.d0 &&& mask.toUInt64)
  let d1 ← add d.d1 (d.d0 >>> 26)
  let l1 ← narrow (d1 &&& mask.toUInt64)
  let d2 ← add d.d2 (d1 >>> 26)
  let l2 ← narrow (d2 &&& mask.toUInt64)
  let d3 ← add d.d3 (d2 >>> 26)
  let l3 ← narrow (d3 &&& mask.toUInt64)
  let d4 ← add d.d4 (d3 >>> 26)
  let l4 ← narrow (d4 &&& mask.toUInt64)
  let back ← mul (d4 >>> 26) 5
  let back ← narrow back
  let l0 ← add l0 back
  let l1 ← add l1 (l0 >>> 26)
  return ⟨l0 &&& mask, l1, l2, l3, l4⟩

/-- One step of the evaluation. -/
def absorbBlockChecked (r h : Limbs) (block : Bytes) : Checked Limbs := do
  let sum ← h.addChecked (Limbs.ofBytes (block ++ [1]))
  let product ← sum.mulChecked r
  product.carryChecked

/-- One step of the evaluation, with a record of the limbs after it. -/
def recordChecked (r : Limbs) (s : Limbs × List Limbs) (block : Vector UInt8 16) :
    Checked (Limbs × List Limbs) := do
  let h ← absorbBlockChecked r s.1 block.toList
  return (h, s.2 ++ [h])

namespace Authenticator

/-- Reads one more part of the message, with a record of the limbs after each block. -/
def updateChecked (s : Authenticator × List Limbs) (data : Bytes) :
    Checked (Authenticator × List Limbs) := do
  let fed := s.1.pending.absorb (recordChecked s.1.r) (s.1.h, s.2) data
  let t ← fed.1
  return ({ s.1 with h := t.1, pending := fed.2 }, t.2)

/-- The value at the end, where an incomplete block is a block too. -/
def valueChecked (a : Authenticator) : Checked Limbs :=
  if a.pending.pending = [] then pure a.h else absorbBlockChecked a.r a.h a.pending.pending

/-- The bytes of the tag. Only the sum with the mask is meant to go around. -/
def tagChecked (a : Authenticator) : Checked Bytes := do
  let h ← a.valueChecked
  let settled ← h.settleChecked
  let reduced ← settled.reduceChecked
  let words ← reduced.toWordsChecked
  return LittleEndian.encode 16 (LittleEndian.decode (LittleEndian.ofWords words).toList +
    LittleEndian.decode a.s.toList)

end Authenticator

/-! ## One block -/

/-- Five products under a bound and their sum. -/
theorem dotChecked_eq {x0 x1 x2 x3 x4 y0 y1 y2 y3 y4 : UInt64} {B C : ℕ}
    (hBC : 5 * (B * C) ≤ 2^64)
    (hx : x0.toNat < B ∧ x1.toNat < B ∧ x2.toNat < B ∧ x3.toNat < B ∧ x4.toNat < B)
    (hy : y0.toNat < C ∧ y1.toNat < C ∧ y2.toNat < C ∧ y3.toNat < C ∧ y4.toNat < C) :
    dotChecked x0 x1 x2 x3 x4 y0 y1 y2 y3 y4 =
      pure (x0 * y0 + x1 * y1 + x2 * y2 + x3 * y3 + x4 * y4) := by
  obtain ⟨hx0, hx1, hx2, hx3, hx4⟩ := hx
  obtain ⟨hy0, hy1, hy2, hy3, hy4⟩ := hy
  obtain ⟨e0, h0⟩ := Limbs.toNat_product hBC hx0 hy0
  obtain ⟨e1, h1⟩ := Limbs.toNat_product hBC hx1 hy1
  obtain ⟨e2, h2⟩ := Limbs.toNat_product hBC hx2 hy2
  obtain ⟨e3, h3⟩ := Limbs.toNat_product hBC hx3 hy3
  obtain ⟨e4, h4⟩ := Limbs.toNat_product hBC hx4 hy4
  -- The sums, from the left.
  have s1 : (x0 * y0 + x1 * y1).toNat = (x0 * y0).toNat + (x1 * y1).toNat := by
    rw [UInt64.toNat_add]
    omega
  have s2 : (x0 * y0 + x1 * y1 + x2 * y2).toNat =
      (x0 * y0 + x1 * y1).toNat + (x2 * y2).toNat := by
    rw [UInt64.toNat_add]
    omega
  have s3 : (x0 * y0 + x1 * y1 + x2 * y2 + x3 * y3).toNat =
      (x0 * y0 + x1 * y1 + x2 * y2).toNat + (x3 * y3).toNat := by
    rw [UInt64.toNat_add]
    omega
  have s4 : (x0 * y0 + x1 * y1 + x2 * y2 + x3 * y3 + x4 * y4).toNat =
      (x0 * y0 + x1 * y1 + x2 * y2 + x3 * y3).toNat + (x4 * y4).toNat := by
    rw [UInt64.toNat_add]
    omega
  rw [dotChecked, mul_eq e0, pure_bind, mul_eq e1, pure_bind, mul_eq e2, pure_bind, mul_eq e3,
    pure_bind, mul_eq e4, pure_bind, add_eq s1, pure_bind, add_eq s2, pure_bind, add_eq s3, pure_bind,
    add_eq s4]

namespace Limbs

variable {h b r : Limbs}

/-- Adding a block does not overflow. -/
theorem addChecked_eq (bounded : h.Bounded) (tight : b.Tight) :
    h.addChecked b = pure (h.add b) := by
  obtain ⟨h0, h1, h2, h3, h4⟩ := bounded
  obtain ⟨b0, b1, b2, b3, b4⟩ := tight
  have hsum : ∀ {x y : UInt32}, x.toNat < 2^26 + 64 → y.toNat < 2^26 →
      Checked.add x y = pure (x + y) := by
    intro x y hx hy
    refine add_eq ?_
    show (x + y).toNat = x.toNat + y.toNat
    rw [UInt32.toNat_add]
    omega
  rw [addChecked, hsum (by omega) b0, pure_bind, hsum h1 b1, pure_bind, hsum (by omega) b2, pure_bind,
    hsum (by omega) b3, pure_bind, hsum (by omega) b4, pure_bind]
  rfl

/-- Five times a limb fits a word. -/
theorem mul_five_eq (x : UInt32) : Checked.mul x.toUInt64 5 = pure (x.toUInt64 * 5) := by
  refine mul_eq ?_
  show (x.toUInt64 * 5).toNat = x.toUInt64.toNat * 5
  rw [toNat_mul_five, UInt32.toNat_toUInt64, Nat.mul_comm]

/-- No product and no sum of the columns overflows. -/
theorem mulChecked_eq (wide : h.Wide) (tight : r.Tight) : h.mulChecked r = pure (h.mul r) := by
  have hx := wide.toUInt64_lt
  obtain ⟨r0, r1, r2, r3, r4⟩ := tight
  -- One bound for all columns, as if every pair counted five times.
  have hdot : ∀ {y0 y1 y2 y3 y4 : UInt64},
      y0.toNat < 5 * 2^26 ∧ y1.toNat < 5 * 2^26 ∧ y2.toNat < 5 * 2^26 ∧ y3.toNat < 5 * 2^26 ∧
        y4.toNat < 5 * 2^26 →
      dotChecked h.l0.toUInt64 h.l1.toUInt64 h.l2.toUInt64 h.l3.toUInt64 h.l4.toUInt64 y0 y1 y2 y3 y4 =
        pure (h.l0.toUInt64 * y0 + h.l1.toUInt64 * y1 + h.l2.toUInt64 * y2 + h.l3.toUInt64 * y3 +
          h.l4.toUInt64 * y4) :=
    dotChecked_eq (by norm_num) hx
  simp only [mulChecked, mul_five_eq, pure_bind]
  rw [hdot, pure_bind, hdot, pure_bind, hdot, pure_bind, hdot, pure_bind, hdot, pure_bind]
  · rfl
  all_goals
    simp only [UInt32.toNat_toUInt64, toNat_mul_five]
    omega

end Limbs

namespace Columns

variable {d : Columns}

/-- The low bits of a column fit a limb. -/
theorem narrow_low (x : UInt64) :
    narrow (x &&& mask.toUInt64) = pure (x &&& mask.toUInt64).toUInt32 := by
  refine narrow_eq ?_
  have hle : (x &&& mask.toUInt64).toNat ≤ mask.toUInt64.toNat := by
    rw [UInt64.toNat_and]
    exact Nat.and_le_right
  exact hle.trans_lt (by decide)

/-- The carry that comes back fits 32 bits, and nothing overflows. -/
theorem carryChecked_eq (fits : d.Fits) : d.carryChecked = pure d.carry := by
  obtain ⟨e1, e2, e3, e4⟩ := toNat_chained fits
  obtain ⟨hfive, hlt⟩ := toNat_five_carry fits
  -- The chain of carries.
  have c1 : add d.d1 (d.d0 >>> 26) = pure d.chained.d1 := add_carry_eq e1
  have c2 : add d.d2 (d.chained.d1 >>> 26) = pure d.chained.d2 := add_carry_eq e2
  have c3 : add d.d3 (d.chained.d2 >>> 26) = pure d.chained.d3 := add_carry_eq e3
  have c4 : add d.d4 (d.chained.d3 >>> 26) = pure d.chained.d4 := add_carry_eq e4
  -- The carry that comes back.
  have hmul : mul (d.chained.d4 >>> 26) 5 = pure ((d.chained.d4 >>> 26) * 5) := by
    refine mul_eq ?_
    show ((d.chained.d4 >>> 26) * 5).toNat = (d.chained.d4 >>> 26).toNat * 5
    rw [hfive, toNat_carry, Nat.mul_comm]
  have hnarrow : narrow ((d.chained.d4 >>> 26) * 5) =
      pure ((d.chained.d4 >>> 26) * 5).toUInt32 := narrow_eq (by rw [hfive]; omega)
  have hreturned : add (d.d0 &&& mask.toUInt64).toUInt32 ((d.chained.d4 >>> 26) * 5).toUInt32 =
      pure d.returned := by
    refine add_eq ((toNat_returned fits).trans ?_)
    show _ = (d.d0 &&& mask.toUInt64).toUInt32.toNat + ((d.chained.d4 >>> 26) * 5).toUInt32.toNat
    rw [toNat_low, UInt64.toNat_toUInt32, hfive]
    omega
  -- The bit that it leaves in the second limb.
  have hlast : add (d.chained.d1 &&& mask.toUInt64).toUInt32 (d.returned >>> 26) =
      pure ((d.chained.d1 &&& mask.toUInt64).toUInt32 + (d.returned >>> 26)) := by
    refine add_shiftRight_eq ?_
    rw [toNat_low]
    exact toNat_carry_l1 d
  rw [carryChecked, narrow_low, pure_bind, c1, pure_bind, narrow_low, pure_bind, c2, pure_bind,
    narrow_low, pure_bind, c3, pure_bind, narrow_low, pure_bind, c4, pure_bind, narrow_low, pure_bind,
    hmul, pure_bind, hnarrow, pure_bind, hreturned, pure_bind, hlast, pure_bind]
  rfl

end Columns

/-- No operation of a step overflows, and the limbs are bounded after it. -/
theorem absorbBlockChecked_eq {r h : Limbs} (tight : r.Tight) (bounded : h.Bounded) (block : Bytes) :
    absorbBlockChecked r h block = pure (absorbBlock r h block) ∧ (absorbBlock r h block).Bounded := by
  have hblock : (Limbs.ofBytes (block ++ [1])).Tight := Limbs.tight_ofWords _ _ _ _ _
  have wide := Limbs.wide_add bounded hblock
  refine ⟨?_, Columns.bounded_carry _⟩
  rw [absorbBlockChecked, Limbs.addChecked_eq bounded hblock, pure_bind,
    Limbs.mulChecked_eq wide tight, pure_bind, Columns.carryChecked_eq (Limbs.fits_mul wide tight),
    absorbBlock]

/-! ## The end of a computation -/

namespace Limbs

variable {h : Limbs}

/-- The last carries do not overflow. -/
theorem settleChecked_eq (bounded : h.Bounded) : h.settleChecked = pure h.settle := by
  obtain ⟨e2, e3, e4, e0⟩ := toNat_chained bounded
  obtain ⟨hl1, -⟩ := toNat_settle_l1 bounded
  have c2 : Checked.add h.l2 (h.l1 >>> 26) = pure h.chained.l2 := add_shiftRight_eq e2
  have c3 : Checked.add h.l3 (h.chained.l2 >>> 26) = pure h.chained.l3 := add_shiftRight_eq e3
  have c4 : Checked.add h.l4 (h.chained.l3 >>> 26) = pure h.chained.l4 := add_shiftRight_eq e4
  have hmul : Checked.mul (h.chained.l4 >>> 26) 5 = pure ((h.chained.l4 >>> 26) * 5) := by
    refine mul_eq ?_
    show ((h.chained.l4 >>> 26) * 5).toNat = (h.chained.l4 >>> 26).toNat * 5
    rw [toNat_five_carry, toNat_shiftRight_26, Nat.mul_comm]
  have c0 : Checked.add h.l0 ((h.chained.l4 >>> 26) * 5) = pure h.chained.l0 := by
    refine add_eq (e0.trans ?_)
    show _ = h.l0.toNat + ((h.chained.l4 >>> 26) * 5).toNat
    rw [toNat_five_carry]
  have c1 : Checked.add (h.l1 &&& mask) (h.chained.l0 >>> 26) = pure h.settle.l1 := by
    refine add_shiftRight_eq ?_
    rw [toNat_and_mask]
    exact hl1
  rw [settleChecked, c2, pure_bind, c3, pure_bind, c4, pure_bind, hmul, pure_bind, c0, pure_bind, c1,
    pure_bind]
  rfl

/-- Five can be added to limbs of 26 bits. -/
theorem reduceChecked_eq (tight : h.Tight) : h.reduceChecked = pure h.reduce := by
  obtain ⟨e0, e1, e2, e3, e4⟩ := toNat_plusFive tight
  have c0 : Checked.add h.l0 5 = pure h.plusFive.l0 := add_eq e0
  have c1 : Checked.add h.l1 (h.plusFive.l0 >>> 26) = pure h.plusFive.l1 := add_shiftRight_eq e1
  have c2 : Checked.add h.l2 (h.plusFive.l1 >>> 26) = pure h.plusFive.l2 := add_shiftRight_eq e2
  have c3 : Checked.add h.l3 (h.plusFive.l2 >>> 26) = pure h.plusFive.l3 := add_shiftRight_eq e3
  have c4 : Checked.add h.l4 (h.plusFive.l3 >>> 26) = pure h.plusFive.l4 := add_shiftRight_eq e4
  rw [reduceChecked, c0, pure_bind, c1, pure_bind, c2, pure_bind, c3, pure_bind, c4, pure_bind]
  rfl

/-- What stays of a limb of 26 bits when its low bits are shifted out. -/
theorem toNat_shiftRight_lt {x : UInt32} (hx : x.toNat < 2^26) {k j : ℕ} (hk : k < 32)
    (hkj : k + j = 26) : (x >>> UInt32.ofNat k).toNat < 2^j := by
  rw [Word.toNat_shiftRight x hk, Nat.div_lt_iff_lt_mul (Nat.two_pow_pos k), ← pow_add, Nat.add_comm,
    hkj]
  exact hx

/-- No bit of limbs of 26 bits meets another one when they are packed. -/
theorem toWordsChecked_eq (tight : h.Tight) : h.toWordsChecked = pure h.toWords := by
  obtain ⟨b0, b1, b2, b3, b4⟩ := tight
  have w0 : join h.l0 (h.l1 <<< 26) = pure (h.l0 ||| h.l1 <<< 26) :=
    join_shiftLeft h.l1 (by decide : 26 < 32) b0
  have w1 : join (h.l1 >>> 6) (h.l2 <<< 20) = pure (h.l1 >>> 6 ||| h.l2 <<< 20) :=
    join_shiftLeft h.l2 (by decide : 20 < 32) (toNat_shiftRight_lt b1 (by decide : 6 < 32) rfl)
  have w2 : join (h.l2 >>> 12) (h.l3 <<< 14) = pure (h.l2 >>> 12 ||| h.l3 <<< 14) :=
    join_shiftLeft h.l3 (by decide : 14 < 32) (toNat_shiftRight_lt b2 (by decide : 12 < 32) rfl)
  have w3 : join (h.l3 >>> 18) (h.l4 <<< 8) = pure (h.l3 >>> 18 ||| h.l4 <<< 8) :=
    join_shiftLeft h.l4 (by decide : 8 < 32) (toNat_shiftRight_lt b3 (by decide : 18 < 32) rfl)
  rw [toWordsChecked, w0, pure_bind, w1, pure_bind, w2, pure_bind, w3, pure_bind, toWords]

/-- One subtraction of the modulus, if the number reaches it, is the whole reduction. -/
theorem toNat_reduce_eq_ite (tight : h.Tight) :
    h.reduce.toNat = if h.toNat < modulus then h.toNat else h.toNat - modulus := by
  have hlt := tight.toNat_lt
  have hmodulus : modulus = 2^130 - 5 := rfl
  rw [toNat_reduce tight]
  split_ifs with hreached
  · exact Nat.mod_eq_of_lt hreached
  · rw [Nat.mod_eq_sub_mod (Nat.le_of_not_lt hreached), Nat.mod_eq_of_lt (by omega)]

end Limbs

namespace Authenticator

variable {a : Authenticator}

/-- The value at the end is as it is between two blocks. -/
theorem bounded_value (bounded : a.h.Bounded) : a.value.Bounded := by
  rw [value]
  split_ifs
  · exact bounded
  · exact Columns.bounded_carry _

/-- The value of what was read meets no fault, and a limb does not overflow. -/
theorem valueChecked_eq (tight : a.r.Tight) (bounded : a.h.Bounded) :
    a.valueChecked = pure a.value := by
  rw [valueChecked, value]
  split_ifs
  · rfl
  · exact (absorbBlockChecked_eq tight bounded _).1

/-- From bounded limbs on, no operation fails up to the tag. -/
theorem tagChecked_eq (tight : a.r.Tight) (bounded : a.h.Bounded) :
    a.tagChecked = pure a.tag.toList := by
  have settled := Limbs.tight_settle (bounded_value bounded)
  have reduced := Limbs.tight_reduce settled
  rw [tagChecked, valueChecked_eq tight bounded, pure_bind,
    Limbs.settleChecked_eq (bounded_value bounded), pure_bind, Limbs.reduceChecked_eq settled,
    pure_bind, Limbs.toWordsChecked_eq reduced, pure_bind, toList_tag]

end Authenticator

/-! ## A run -/

/-- Blocks one after the other: no operation fails, and the limbs after each of them are recorded and
are bounded. -/
theorem foldlM_recordChecked {r h : Limbs} (tight : r.Tight) (bounded : h.Bounded)
    (seen : List Limbs) (bs : List (Vector UInt8 16)) :
    ∃ after : List Limbs,
      bs.foldlM (recordChecked r) (h, seen) =
        pure (bs.foldl (fun h b => absorbBlock r h b.toList) h, seen ++ after) ∧
      after.length = bs.length ∧ (∀ h ∈ after, h.Bounded) ∧
      (bs.foldl (fun h b => absorbBlock r h b.toList) h).Bounded := by
  -- Over the blocks: the limbs before one are bounded, and so are those after it.
  induction bs generalizing h seen with
  | nil => exact ⟨[], by rw [List.append_nil]; rfl, rfl, by simp, bounded⟩
  | cons b bs ih =>
    obtain ⟨hpure, hnext⟩ := absorbBlockChecked_eq tight bounded b.toList
    obtain ⟨after, hrun, hlength, hafter, hlast⟩ := ih hnext (seen ++ [absorbBlock r h b.toList])
    refine ⟨absorbBlock r h b.toList :: after, ?_, ?_, ?_, hlast⟩
    · rw [List.foldlM_cons, recordChecked, hpure, pure_bind, pure_bind, hrun, List.append_assoc]
      rfl
    · rw [List.length_cons, hlength, List.length_cons]
    · rw [List.forall_mem_cons]
      exact ⟨hnext, hafter⟩

namespace Authenticator

/-- One more part: no operation fails, and the blocks that it completes are recorded. -/
theorem updateChecked_eq {a : Authenticator} (tight : a.r.Tight) (bounded : a.h.Bounded)
    (seen : List Limbs) (data : Bytes) :
    ∃ after : List Limbs,
      updateChecked (a, seen) data = pure (a.update data, seen ++ after) ∧
      after.length = (a.pending.pending.length + data.length) / 16 ∧ (∀ h ∈ after, h.Bounded) ∧
      (a.update data).h.Bounded := by
  -- Both runs are handed the same blocks and keep the same rest.
  obtain ⟨hchecked, hcheckedRest⟩ :=
    Chunker.absorb_eq (by decide : 0 < 16) (recordChecked a.r) (a.h, seen) a.pending data
  obtain ⟨hfed, hfedRest⟩ := Chunker.feed_eq (by decide : 0 < 16)
    (fun h (b : Vector UInt8 16) => absorbBlock a.r h b.toList) a.h a.pending data
  obtain ⟨after, hrun, hlength, hafter, hlast⟩ :=
    foldlM_recordChecked tight bounded seen (Chunker.blocks 16 (a.pending.pending ++ data))
  rw [hrun, ← hfed] at hchecked
  have hpending := Chunker.ext_pending ((hcheckedRest _ hchecked).trans hfedRest.symm)
  refine ⟨after, ?_, ?_, hafter, ?_⟩
  · rw [updateChecked]
    simp only [hchecked, hpending, pure_bind]
    rfl
  · rw [hlength, Chunker.length_blocks (by decide), List.length_append]
  · rw [← hfed] at hlast
    exact hlast

/-- A run from a key on: no operation fails, and the limbs after each block are bounded. -/
theorem foldlM_updateChecked (key : Key) (parts : List Bytes) :
    ∃ seen : List Limbs,
      parts.foldlM updateChecked (ofKey key, []) =
        pure (parts.foldl Authenticator.update (ofKey key), seen) ∧
      seen.length = parts.flatten.length / 16 ∧ (∀ h ∈ seen, h.Bounded) ∧
      (parts.foldl Authenticator.update (ofKey key)).h.Bounded := by
  induction parts using List.reverseRecOn with
  | nil => exact ⟨[], rfl, rfl, by simp, Limbs.bounded_zero⟩
  | append_singleton parts data ih =>
    -- The parts before the last one leave `Bounded` limbs, from which the last one goes on.
    obtain ⟨seen, hrun, hlength, hseen, bounded⟩ := ih
    have reads := reads_foldl key parts
    have tight : (parts.foldl Authenticator.update (ofKey key)).r.Tight := by
      rw [reads.r]
      exact tight_point key
    obtain ⟨after, hpart, hafterLength, hafter, hlast⟩ := updateChecked_eq tight bounded seen data
    rw [reads.pending, Chunker.length_remainder] at hafterLength
    rw [List.foldlM_append, hrun, pure_bind, List.foldlM_cons, hpart, pure_bind, List.foldlM_nil,
      List.foldl_append, List.flatten_append, List.flatten_singleton, List.length_append]
    refine ⟨seen ++ after, rfl, ?_, ?_, hlast⟩
    · rw [List.length_append, hlength, hafterLength]
      omega
    · rw [List.forall_mem_append]
      exact ⟨hseen, hafter⟩

end Authenticator

open Authenticator (updateChecked ofKey)

/-- Under every key, and in whatever parts a message comes, no operation on limbs fails its check up to
the tag, and after each absorbed block the limbs are `Bounded`: 26 bits each, but less than `2^26 + 64` in
the second one. From any such limbs no operation of a step fails, for every block, and the step leaves
such limbs. Nor does any operation of the end: the last carries leave 26 bits in every limb, a number
below `2^130`, from which the modulus taken off once if it is reached gives the remainder, and the four
words are the low 128 bits of that. -/
theorem limbs_exact (key : Key) :
    (∀ parts : List Bytes, ∃ seen : List Limbs,
      parts.foldlM updateChecked (ofKey key, []) =
        pure (parts.foldl Authenticator.update (ofKey key), seen) ∧
      seen.length = parts.flatten.length / 16 ∧ (∀ h ∈ seen, h.Bounded) ∧
      (parts.foldl Authenticator.update (ofKey key)).tagChecked =
        pure (tagOfParts key parts).toList) ∧
    (∀ (h : Limbs) (block : Bytes), h.Bounded →
      absorbBlockChecked (point key) h block = pure (absorbBlock (point key) h block) ∧
      (absorbBlock (point key) h block).Bounded) ∧
    ∀ a : Authenticator, a.r = point key → a.h.Bounded →
      a.tagChecked = pure a.tag.toList ∧
      let settled := a.value.settle
      let reduced := settled.reduce
      settled.Tight ∧ settled.toNat < 2^130 ∧
      reduced.toNat = (if settled.toNat < modulus then settled.toNat else settled.toNat - modulus) ∧
      reduced.toNat = a.value.toNat % modulus ∧
      LittleEndian.decode (LittleEndian.ofWords reduced.toWords).toList = reduced.toNat % 2^128 := by
  refine ⟨fun parts => ?_, fun h block bounded => ?_, fun a hr bounded => ?_⟩
  · -- The parts of a message.
    obtain ⟨seen, hrun, hlength, hseen, bounded⟩ := Authenticator.foldlM_updateChecked key parts
    refine ⟨seen, hrun, hlength, hseen, ?_⟩
    refine Authenticator.tagChecked_eq ?_ bounded
    rw [(Authenticator.reads_foldl key parts).r]
    exact tight_point key
  · -- One block.
    exact absorbBlockChecked_eq (tight_point key) bounded block
  · -- The end of a message.
    have tight : a.r.Tight := by
      rw [hr]
      exact tight_point key
    have hvalue := Authenticator.bounded_value bounded
    have settled := Limbs.tight_settle hvalue
    have hreduce : a.value.settle.reduce.toNat = a.value.toNat % modulus :=
      (Limbs.toNat_reduce settled).trans (Limbs.toNat_settle_modEq hvalue)
    exact ⟨Authenticator.tagChecked_eq tight bounded, settled, settled.toNat_lt,
      Limbs.toNat_reduce_eq_ite settled, hreduce, Limbs.decode_toWords (Limbs.tight_reduce settled)⟩

/-- From the largest limbs, with the largest point and the largest block. -/
theorem limbs_exact_largest :
    let key : Key := Vector.replicate 32 0xff
    let h : Limbs := ⟨0x3ffffff, 0x400003f, 0x3ffffff, 0x3ffffff, 0x3ffffff⟩
    let block : Bytes := List.replicate 16 0xff
    let a : Authenticator := ⟨point key, h, Vector.replicate 16 0xff, Chunker.empty 16⟩
    h.Bounded ∧
    absorbBlockChecked (point key) h block = pure (absorbBlock (point key) h block) ∧
    a.tagChecked = pure a.tag.toList ∧ a.value.settle.Tight := by
  intro key h block a
  have bounded : h.Bounded := by
    constructor <;> decide
  have hend := (limbs_exact key).2.2 a rfl bounded
  exact ⟨bounded, ((limbs_exact key).2.1 h block bounded).1, hend.1, hend.2.1⟩

end SymmetricCrypto.Poly1305
