import SymmetricCrypto.Bytes.LittleEndian
import SymmetricCrypto.ChaCha.Permutation

/-!
# ChaCha20 blocks and subkeys

A state holds four constants, the eight words of the key, and four words that the caller lays out.
`State.keystream` permutes it and adds the state it started from, which makes a keystream block.

The layout of RFC 8439 has a 32-bit counter and a nonce of 96 bits (`block`). HChaCha20 fills all four
words with a nonce of 128 bits and gives eight words of the permuted state as a new key, without the
addition (`subkey`).
-/

namespace SymmetricCrypto.ChaCha

/-- A key of 256 bits. -/
abbrev Key := Vector UInt8 32

/-- A nonce of 96 bits. -/
abbrev Nonce := Vector UInt8 12

/-- The words of `expand 32-byte k`. -/
def constants : Vector UInt32 4 := #v[0x61707865, 0x3320646e, 0x79622d32, 0x6b206574]

namespace State

/-- The state of a key with the four words after it. -/
def keyed (key : Key) (tail : Vector UInt32 4) : State :=
  constants ++ LittleEndian.words 8 key ++ tail

/-- The keystream block of a state: the bytes of the permuted state plus the state. -/
def keystream (s : State) : Vector UInt8 64 :=
  LittleEndian.ofWords (Vector.zipWith (· + ·) (permute s) s)

end State

/-- The keystream block at a 32-bit counter. -/
def block (key : Key) (counter : UInt32) (nonce : Nonce) : Vector UInt8 64 :=
  (State.keyed key (#v[counter] ++ LittleEndian.words 3 nonce)).keystream

/-- The HChaCha20 key for a nonce of 128 bits: the first and the last row of the permuted state. -/
def subkey (key : Key) (nonce : Vector UInt8 16) : Key :=
  let s := permute (State.keyed key (LittleEndian.words 4 nonce))
  LittleEndian.ofWords (leading 4 12 s ++ trailing 12 4 s)

end SymmetricCrypto.ChaCha
