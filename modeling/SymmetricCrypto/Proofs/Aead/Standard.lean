import Mathlib
import SymmetricCrypto.ChaCha.Extended
import SymmetricCrypto.Proofs.ChaCha.Standard
import SymmetricCrypto.Proofs.Poly1305.Standard

/-!
# XChaCha20-Poly1305 as one expression

The construction of section 2.8 of RFC 8439 under an HChaCha20 subkey, over the standard's ChaCha20
and Poly1305. The ciphertext is given byte by byte, block counters are natural numbers, and what is
authenticated is a single string.
-/

namespace SymmetricCrypto.Aead.Standard

open Digits

/-- The keystream block at a counter, under the subkey for the first 16 bytes of the nonce and the
nonce of four zeros and the other 8 bytes. -/
def block (key : ChaCha.Key) (nonce : ChaCha.ExtendedNonce) (counter : ℕ) : Bytes :=
  ChaCha.Standard.block (ChaCha.Standard.subkey key.toList (nonce.toList.take 16)) counter
    (List.replicate 4 0 ++ nonce.toList.drop 16)

/-- The ciphertext: byte `i` is summed with byte `i % 64` of block `1 + i / 64`. -/
def ciphertext (key : ChaCha.Key) (nonce : ChaCha.ExtendedNonce) (plaintext : Bytes) : Bytes :=
  plaintext.mapIdx fun i b => b ^^^ (block key nonce (1 + i / 64)).getD (i % 64) 0

/-- The one-time key: the first 32 bytes of block 0. -/
def oneTimeKey (key : ChaCha.Key) (nonce : ChaCha.ExtendedNonce) : Poly1305.Key :=
  Vector.ofFn fun i => (block key nonce 0).getD i.val 0

/-- A byte string with zeros to a multiple of 16 bytes. -/
def padded (data : Bytes) : Bytes := data.rightpad (16 * ((data.length + 15) / 16)) 0

/-- What is authenticated: the associated data and the ciphertext, each padded, and two lengths. -/
def authenticated (associated ciphertext : Bytes) : Bytes :=
  padded associated ++ padded ciphertext ++ bytes 8 associated.length ++
    bytes 8 ciphertext.length

/-- A sealed message: the ciphertext and its tag. -/
def sealedMessage (key : ChaCha.Key) (nonce : ChaCha.ExtendedNonce)
    (plaintext associated : Bytes) : Bytes :=
  let c := ciphertext key nonce plaintext
  c ++ Poly1305.Standard.tag (oneTimeKey key nonce) (authenticated associated c)

end SymmetricCrypto.Aead.Standard
