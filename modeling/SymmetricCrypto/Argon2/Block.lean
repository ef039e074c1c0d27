import SymmetricCrypto.Bytes.LittleEndian
import SymmetricCrypto.Word

/-!
# Blocks of the Argon2 memory

A block is 1024 bytes, as 128 words of 64 bits. Two blocks are mixed by the permutation of a BLAKE2b
round whose additions also multiply the low halves (`mulAdd`): their sum is read as a matrix of eight
rows of sixteen words, each row is permuted, then each column of pairs of words, and the sum is added
again (`Block.mix`).
-/

namespace SymmetricCrypto.Argon2

open Word

/-- A block of 128 words. -/
abbrev Block := Vector UInt64 128

/-- The sum of two words and of twice the product of their low halves. -/
@[inline] def mulAdd (x y : UInt64) : UInt64 :=
  x + y + 2 * ((x &&& 0xffffffff) * (y &&& 0xffffffff))

/-- Mixes four words. -/
@[inline] def mixQuad (a b c d : UInt64) : UInt64 × UInt64 × UInt64 × UInt64 :=
  let a := mulAdd a b
  let d := rotr64 (d ^^^ a) 32
  let c := mulAdd c d
  let b := rotr64 (b ^^^ c) 24
  let a := mulAdd a b
  let d := rotr64 (d ^^^ a) 16
  let c := mulAdd c d
  let b := rotr64 (b ^^^ c) 63
  (a, b, c, d)

/-- Mixes the columns of a matrix of four rows of four words, then its diagonals. -/
def permute (v : Vector UInt64 16) : Vector UInt64 16 :=
  let (a0, b0, c0, d0) := mixQuad v[0] v[4] v[8] v[12]
  let (a1, b1, c1, d1) := mixQuad v[1] v[5] v[9] v[13]
  let (a2, b2, c2, d2) := mixQuad v[2] v[6] v[10] v[14]
  let (a3, b3, c3, d3) := mixQuad v[3] v[7] v[11] v[15]
  let (a0, b1, c2, d3) := mixQuad a0 b1 c2 d3
  let (a1, b2, c3, d0) := mixQuad a1 b2 c3 d0
  let (a2, b3, c0, d1) := mixQuad a2 b3 c0 d1
  let (a3, b0, c1, d2) := mixQuad a3 b0 c1 d2
  #v[a0, a1, a2, a3, b0, b1, b2, b3, c0, c1, c2, c3, d0, d1, d2, d3]

namespace Block

/-- The block of zeros. -/
def zero : Block := Vector.replicate 128 0

/-- The sum of two blocks. -/
def xor (x y : Block) : Block := Vector.zipWith (· ^^^ ·) x y

/-- Each of the eight rows of sixteen words, permuted. -/
def rows (q : Block) : Vector (Vector UInt64 16) 8 :=
  Vector.ofFn fun r => permute (Vector.ofFn fun k => q[16 * r.val + k.val])

/-- Each of the eight columns, which have a pair of words in each row, permuted. -/
def columns (rows : Vector (Vector UInt64 16) 8) : Vector (Vector UInt64 16) 8 :=
  Vector.ofFn fun c => permute (Vector.ofFn fun k => rows[k.val / 2][2 * c.val + k.val % 2])

/-- The mix of two blocks. -/
def mix (x y : Block) : Block :=
  let sum := x.xor y
  let permuted := columns (rows sum)
  Vector.ofFn fun i =>
    permuted[i.val % 16 / 2][2 * (i.val / 16) + i.val % 2] ^^^ sum[i]

/-- The block of the first 1024 bytes. -/
def ofBytes (data : Bytes) : Block :=
  Vector.ofFn fun i => UInt64.ofNat (LittleEndian.decode ((data.drop (8 * i.val)).take 8))

/-- The bytes of a block. -/
def toBytes (x : Block) : Bytes := x.toList.flatMap fun w => LittleEndian.encode 8 w.toNat

end Block

end SymmetricCrypto.Argon2
