import SymmetricCrypto.Bytes.LittleEndian
import SymmetricCrypto.Word

/-!
# SHA-256

A digest of 32 bytes. The message is padded with a one bit, zeros and its length in bits to whole
blocks of 64 bytes (`pad`); each block is expanded to a schedule of 64 words (`schedule`) that drives
64 rounds on a state of eight words (`compress`).
-/

namespace SymmetricCrypto.Sha256

open Word

/-- The working state. -/
structure State where
  a : UInt32
  b : UInt32
  c : UInt32
  d : UInt32
  e : UInt32
  f : UInt32
  g : UInt32
  h : UInt32
  deriving DecidableEq

namespace State

/-- The sum, word by word. -/
def add (s t : State) : State :=
  ⟨s.a + t.a, s.b + t.b, s.c + t.c, s.d + t.d, s.e + t.e, s.f + t.f, s.g + t.g, s.h + t.h⟩

/-- The words in order. -/
def toList (s : State) : List UInt32 := [s.a, s.b, s.c, s.d, s.e, s.f, s.g, s.h]

end State

/-- The first 32 bits of the fractional parts of the square roots of the first eight primes. -/
def initial : State :=
  ⟨0x6a09e667, 0xbb67ae85, 0x3c6ef372, 0xa54ff53a, 0x510e527f, 0x9b05688c, 0x1f83d9ab, 0x5be0cd19⟩

/-- The first 32 bits of the fractional parts of the cube roots of the first 64 primes. -/
def roundConstants : Vector UInt32 64 :=
  #v[0x428a2f98, 0x71374491, 0xb5c0fbcf, 0xe9b5dba5, 0x3956c25b, 0x59f111f1, 0x923f82a4, 0xab1c5ed5,
    0xd807aa98, 0x12835b01, 0x243185be, 0x550c7dc3, 0x72be5d74, 0x80deb1fe, 0x9bdc06a7, 0xc19bf174,
    0xe49b69c1, 0xefbe4786, 0x0fc19dc6, 0x240ca1cc, 0x2de92c6f, 0x4a7484aa, 0x5cb0a9dc, 0x76f988da,
    0x983e5152, 0xa831c66d, 0xb00327c8, 0xbf597fc7, 0xc6e00bf3, 0xd5a79147, 0x06ca6351, 0x14292967,
    0x27b70a85, 0x2e1b2138, 0x4d2c6dfc, 0x53380d13, 0x650a7354, 0x766a0abb, 0x81c2c92e, 0x92722c85,
    0xa2bfe8a1, 0xa81a664b, 0xc24b8b70, 0xc76c51a3, 0xd192e819, 0xd6990624, 0xf40e3585, 0x106aa070,
    0x19a4c116, 0x1e376c08, 0x2748774c, 0x34b0bcb5, 0x391c0cb3, 0x4ed8aa4a, 0x5b9cca4f, 0x682e6ff3,
    0x748f82ee, 0x78a5636f, 0x84c87814, 0x8cc70208, 0x90befffa, 0xa4506ceb, 0xbef9a3f7, 0xc67178f2]

/-- The message, a one bit, the fewest zeros that complete the last block, and the length in bits as
a big-endian 64-bit number. -/
def pad (message : Bytes) : Bytes :=
  message ++ [0x80] ++ List.replicate ((119 - message.length % 64) % 64) 0 ++
    (LittleEndian.encode 8 (8 * message.length)).reverse

/-- The 16 big-endian words of a block. -/
def blockWords (block : Bytes) : List UInt32 :=
  (Bytes.pieces 4 block).map fun group => UInt32.ofNat (LittleEndian.decode group.reverse)

/-- The next word of the schedule, from the words before it. -/
def nextWord (w : Array UInt32) : UInt32 :=
  let back (k : Nat) : UInt32 := w.getD (w.size - k) 0
  let s₀ := rotr32 (back 15) 7 ^^^ rotr32 (back 15) 18 ^^^ (back 15 >>> 3)
  let s₁ := rotr32 (back 2) 17 ^^^ rotr32 (back 2) 19 ^^^ (back 2 >>> 10)
  back 16 + s₀ + back 7 + s₁

/-- The 64 words that drive the rounds for a block: its own 16, then 48 that follow from them. -/
def schedule (block : Bytes) : Array UInt32 :=
  Nat.repeat (fun w => w.push (nextWord w)) 48 (blockWords block).toArray

/-- One round, with the sum of its constant and its schedule word. -/
def round (s : State) (k : UInt32) : State :=
  let choice := (s.e &&& s.f) ^^^ (~~~s.e &&& s.g)
  let majority := (s.a &&& s.b) ^^^ (s.a &&& s.c) ^^^ (s.b &&& s.c)
  let t₁ := s.h + (rotr32 s.e 6 ^^^ rotr32 s.e 11 ^^^ rotr32 s.e 25) + choice + k
  let t₂ := (rotr32 s.a 2 ^^^ rotr32 s.a 13 ^^^ rotr32 s.a 22) + majority
  ⟨t₁ + t₂, s.a, s.b, s.c, s.d + t₁, s.e, s.f, s.g⟩

/-- Folds one block into the state. -/
def compress (s : State) (block : Bytes) : State :=
  let rounds := List.zipWith (· + ·) roundConstants.toList (schedule block).toList
  s.add (rounds.foldl round s)

/-- The digest of a message. -/
def digest (message : Bytes) : Bytes :=
  ((Bytes.pieces 64 (pad message)).foldl compress initial).toList.flatMap fun w =>
    (LittleEndian.wordBytes w).reverse

end SymmetricCrypto.Sha256
