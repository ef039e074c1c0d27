import SymmetricCrypto.Bytes.LittleEndian
import SymmetricCrypto.Error
import SymmetricCrypto.Word

/-!
# BLAKE2b

Unkeyed BLAKE2b, for digests of 1 to 64 bytes. The digest length is part of the initial
state, so digests of different lengths are not prefixes of one another.

The input is read in blocks of 128 bytes. `compress` mixes a block into the chaining value, together
with the number of bytes read so far and a mark on the last block, which is filled up with zeros; the
empty input has one block, all zeros.
-/

namespace SymmetricCrypto.Blake2b

open Word

/-- The first 64 bits of the fractional parts of the square roots of the first eight primes. -/
def initial : Vector UInt64 8 :=
  #v[0x6a09e667f3bcc908, 0xbb67ae8584caa73b, 0x3c6ef372fe94f82b, 0xa54ff53a5f1d36f1,
    0x510e527fade682d1, 0x9b05688c2b3e6c1f, 0x1f83d9abfb41bd6b, 0x5be0cd19137e2179]

/-- The order in which each round reads the words of a block. Rounds ten and eleven use the first
two orders again. -/
def orders : List (List Nat) :=
  [[0, 1, 2, 3, 4, 5, 6, 7, 8, 9, 10, 11, 12, 13, 14, 15],
    [14, 10, 4, 8, 9, 15, 13, 6, 1, 12, 0, 2, 11, 7, 5, 3],
    [11, 8, 12, 0, 5, 2, 15, 13, 10, 14, 3, 6, 7, 1, 9, 4],
    [7, 9, 3, 1, 13, 12, 11, 14, 2, 6, 5, 10, 4, 0, 15, 8],
    [9, 0, 5, 7, 2, 4, 10, 15, 14, 1, 11, 12, 6, 8, 3, 13],
    [2, 12, 6, 10, 0, 11, 8, 3, 4, 13, 7, 5, 15, 14, 1, 9],
    [12, 5, 1, 15, 14, 13, 4, 10, 0, 7, 6, 3, 9, 2, 8, 11],
    [13, 11, 7, 14, 12, 1, 3, 9, 5, 0, 15, 4, 8, 6, 2, 10],
    [6, 15, 14, 9, 11, 3, 0, 8, 12, 2, 13, 7, 1, 4, 10, 5],
    [10, 2, 8, 4, 7, 6, 1, 5, 15, 11, 9, 14, 3, 12, 13, 0],
    [0, 1, 2, 3, 4, 5, 6, 7, 8, 9, 10, 11, 12, 13, 14, 15],
    [14, 10, 4, 8, 9, 15, 13, 6, 1, 12, 0, 2, 11, 7, 5, 3]]

/-- Mixes two message words into four words of the state. -/
def mix (v : Vector UInt64 16) (a b c d : Nat) (x y : UInt64) : Vector UInt64 16 :=
  let a₁ := v.getD a 0 + v.getD b 0 + x
  let d₁ := rotr64 (v.getD d 0 ^^^ a₁) 32
  let c₁ := v.getD c 0 + d₁
  let b₁ := rotr64 (v.getD b 0 ^^^ c₁) 24
  let a₂ := a₁ + b₁ + y
  let d₂ := rotr64 (d₁ ^^^ a₂) 16
  let c₂ := c₁ + d₂
  let b₂ := rotr64 (b₁ ^^^ c₂) 63
  (((v.setIfInBounds a a₂).setIfInBounds b b₂).setIfInBounds c c₂).setIfInBounds d d₂

/-- One round: the four columns, then the four diagonals. -/
def round (m v : Vector UInt64 16) (order : List Nat) : Vector UInt64 16 :=
  let word (i : Nat) : UInt64 := m.getD (order.getD i 0) 0
  let v := mix v 0 4 8 12 (word 0) (word 1)
  let v := mix v 1 5 9 13 (word 2) (word 3)
  let v := mix v 2 6 10 14 (word 4) (word 5)
  let v := mix v 3 7 11 15 (word 6) (word 7)
  let v := mix v 0 5 10 15 (word 8) (word 9)
  let v := mix v 1 6 11 12 (word 10) (word 11)
  let v := mix v 2 7 8 13 (word 12) (word 13)
  mix v 3 4 9 14 (word 14) (word 15)

/-- The 16 words of a block; bytes past the end of the input are zero. -/
def blockWords (block : Bytes) : Vector UInt64 16 :=
  Vector.ofFn fun i => UInt64.ofNat (LittleEndian.decode ((block.drop (8 * i.val)).take 8))

/-- Mixes a block into the chaining value. `count` is the number of input bytes up to its end. -/
def compress (h : Vector UInt64 8) (block : Bytes) (count : Nat) (last : Bool) : Vector UInt64 8 :=
  let low := UInt64.ofNat count
  let high := UInt64.ofNat (count / UInt64.size)
  let mark : UInt64 := if last then 0xffffffffffffffff else 0
  let marked := Vector.zipWith (· ^^^ ·) initial #v[0, 0, 0, 0, low, high, mark, 0]
  let v := orders.foldl (round (blockWords block)) (h ++ marked)
  Vector.zipWith (· ^^^ ·) h (Vector.zipWith (· ^^^ ·) (leading 8 8 v) (trailing 8 8 v))

/-- Mixes in all blocks of the rest of an input of which `count` bytes have been read. -/
def absorb (h : Vector UInt64 8) (count : Nat) (data : Bytes) : Vector UInt64 8 :=
  if _h : data.drop 128 = [] then compress h data (count + data.length) true
  else absorb (compress h (data.take 128) (count + 128) false) (count + 128) (data.drop 128)
termination_by data.length
decreasing_by
  rw [List.drop_eq_nil_iff] at _h
  simp only [List.length_drop]
  omega

/-- The chaining value before the first block: the digest length, no key, and a sequential tree. -/
def start (n : Nat) : Vector UInt64 8 :=
  Vector.zipWith (· ^^^ ·) initial #v[0x01010000 ^^^ UInt64.ofNat n, 0, 0, 0, 0, 0, 0, 0]

/-- The digest of `n` bytes. -/
def digest (n : Nat) (h : 1 ≤ n ∧ n ≤ 64) (data : Bytes) : Vector UInt8 n :=
  let words := absorb (start n) 0 data
  Vector.ofFn fun i =>
    (words[i.val / 8] >>> UInt64.ofNat (8 * (i.val % 8))).toUInt8

/-- The digest of 64 bytes. -/
def digest64 (data : Bytes) : Vector UInt8 64 := digest 64 (by decide) data

/-- The digest of a length that the caller chooses. -/
def digest? (n : Nat) (data : Bytes) : Except Error Bytes :=
  if h : 1 ≤ n ∧ n ≤ 64 then .ok (digest n h data).toList
  else .error (.invalidParameter .digestLength)

end SymmetricCrypto.Blake2b
