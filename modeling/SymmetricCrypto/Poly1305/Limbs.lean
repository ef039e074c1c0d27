import SymmetricCrypto.Bytes.LittleEndian

/-!
# Arithmetic modulo `2^130 - 5` on five limbs

A number is held in five limbs that weigh `1`, `2^26`, `2^52`, `2^78` and `2^104`. A product of two
limbs then fits a 64-bit word with room for the sum of five, and a limb above the fifth comes back
into the first with the factor five.

`Limbs.mul` multiplies into five 64-bit columns, and `Columns.carry` brings them back to 32-bit limbs
by one chain of carries; the limb of weight `2^26` may keep one bit more than 26. `Limbs.settle` is
the chain of carries that ends a computation, and `Limbs.reduce` takes the modulus off once if the
number reaches it, without a branch on the number.
-/

namespace SymmetricCrypto.Poly1305

/-- The low 26 bits. -/
def mask : UInt32 := 0x3ffffff

/-- A number in five limbs of 26 bits. -/
structure Limbs where
  /-- Bits 0 to 25. -/
  l0 : UInt32
  /-- Bits 26 to 51. -/
  l1 : UInt32
  /-- Bits 52 to 77. -/
  l2 : UInt32
  /-- Bits 78 to 103. -/
  l3 : UInt32
  /-- Bits 104 and up. -/
  l4 : UInt32
  deriving DecidableEq

/-- The five column sums of a product, each with the weight of its limb. -/
structure Columns where
  /-- Weight 1. -/
  d0 : UInt64
  /-- Weight `2^26`. -/
  d1 : UInt64
  /-- Weight `2^52`. -/
  d2 : UInt64
  /-- Weight `2^78`. -/
  d3 : UInt64
  /-- Weight `2^104`. -/
  d4 : UInt64

namespace Limbs

/-- The limbs of zero. -/
def zero : Limbs := ⟨0, 0, 0, 0, 0⟩

/-- The number that the limbs hold. -/
def toNat (a : Limbs) : Nat :=
  a.l0.toNat + 0x4000000 * (a.l1.toNat + 0x4000000 * (a.l2.toNat + 0x4000000 * (a.l3.toNat +
    0x4000000 * a.l4.toNat)))

/-- The low 130 bits of five 32-bit words. -/
def ofWords (t0 t1 t2 t3 t4 : UInt32) : Limbs where
  l0 := t0 &&& mask
  l1 := ((t0 >>> 26) ||| (t1 <<< 6)) &&& mask
  l2 := ((t1 >>> 20) ||| (t2 <<< 12)) &&& mask
  l3 := ((t2 >>> 14) ||| (t3 <<< 18)) &&& mask
  l4 := ((t3 >>> 8) ||| (t4 <<< 24)) &&& mask

/-- The number of up to 17 bytes, least significant first. -/
def ofBytes (data : Bytes) : Limbs :=
  ofWords (LittleEndian.wordAt data 0) (LittleEndian.wordAt data 4) (LittleEndian.wordAt data 8)
    (LittleEndian.wordAt data 12) (LittleEndian.wordAt data 16)

/-- The sum, limb by limb. -/
def add (a b : Limbs) : Limbs :=
  ⟨a.l0 + b.l0, a.l1 + b.l1, a.l2 + b.l2, a.l3 + b.l3, a.l4 + b.l4⟩

/-- The product in columns: a pair of limbs whose weight is `2^130` times that of a column counts five
times in it. -/
def mul (h r : Limbs) : Columns :=
  let h0 := h.l0.toUInt64
  let h1 := h.l1.toUInt64
  let h2 := h.l2.toUInt64
  let h3 := h.l3.toUInt64
  let h4 := h.l4.toUInt64
  let r0 := r.l0.toUInt64
  let r1 := r.l1.toUInt64
  let r2 := r.l2.toUInt64
  let r3 := r.l3.toUInt64
  let r4 := r.l4.toUInt64
  let s1 := r1 * 5
  let s2 := r2 * 5
  let s3 := r3 * 5
  let s4 := r4 * 5
  { d0 := h0 * r0 + h1 * s4 + h2 * s3 + h3 * s2 + h4 * s1
    d1 := h0 * r1 + h1 * r0 + h2 * s4 + h3 * s3 + h4 * s2
    d2 := h0 * r2 + h1 * r1 + h2 * r0 + h3 * s4 + h4 * s3
    d3 := h0 * r3 + h1 * r2 + h2 * r1 + h3 * r0 + h4 * s4
    d4 := h0 * r4 + h1 * r3 + h2 * r2 + h3 * r1 + h4 * r0 }

end Limbs

/-- One chain of carries through the columns, from the last one five times into the first, and on into
the second limb, which may end one bit wider than the others. -/
def Columns.carry (d : Columns) : Limbs :=
  let d1 := d.d1 + (d.d0 >>> 26)
  let d2 := d.d2 + (d1 >>> 26)
  let d3 := d.d3 + (d2 >>> 26)
  let d4 := d.d4 + (d3 >>> 26)
  let low (x : UInt64) : UInt32 := (x &&& mask.toUInt64).toUInt32
  let l0 := low d.d0 + ((d4 >>> 26) * 5).toUInt32
  { l0 := l0 &&& mask
    l1 := low d1 + (l0 >>> 26)
    l2 := low d2
    l3 := low d3
    l4 := low d4 }

namespace Limbs

/-- The chain of carries from the second limb around to it. -/
def settle (h : Limbs) : Limbs :=
  let l2 := h.l2 + (h.l1 >>> 26)
  let l3 := h.l3 + (l2 >>> 26)
  let l4 := h.l4 + (l3 >>> 26)
  let l0 := h.l0 + (l4 >>> 26) * 5
  { l0 := l0 &&& mask
    l1 := (h.l1 &&& mask) + (l0 >>> 26)
    l2 := l2 &&& mask
    l3 := l3 &&& mask
    l4 := l4 &&& mask }

/-- The number modulo `2^130 - 5`. Adding five carries out of the top limb exactly if the number
reaches the modulus, and what stays is then the number less the modulus; the carry selects, as a mask
over all bits. -/
def reduce (h : Limbs) : Limbs :=
  let g0 := h.l0 + 5
  let g1 := h.l1 + (g0 >>> 26)
  let g2 := h.l2 + (g1 >>> 26)
  let g3 := h.l3 + (g2 >>> 26)
  let g4 := h.l4 + (g3 >>> 26)
  let carried := g4 >>> 26
  let reached := 0 - carried
  let pick (l g : UInt32) : UInt32 := (l &&& ~~~reached) ||| (g &&& mask &&& reached)
  ⟨pick h.l0 g0, pick h.l1 g1, pick h.l2 g2, pick h.l3 g3, pick h.l4 g4⟩

/-- The low 128 bits as four words. -/
def toWords (h : Limbs) : Vector UInt32 4 :=
  #v[h.l0 ||| (h.l1 <<< 26), (h.l1 >>> 6) ||| (h.l2 <<< 20), (h.l2 >>> 12) ||| (h.l3 <<< 14),
    (h.l3 >>> 18) ||| (h.l4 <<< 8)]

end Limbs

end SymmetricCrypto.Poly1305
