import Mathlib
import SymmetricCrypto.Proofs.ChaCha.Standard
import SymmetricCrypto.Proofs.Poly1305.Standard
import SymmetricCrypto.SecretStream.State
import SymmetricCrypto.SecretStream.Tag

/-!
# The chunk format

The format of a chunk and the state after it, each written down as one expression over the
keystream blocks `B_0, B_1, …` of the state (`block`). These are the blocks of RFC 8439, and the
authenticator is that of RFC 8439, of one byte string (`authenticated`) under the first half of `B_0`.
Each byte is given by its place. Nothing is read in parts, and no padding is computed in machine words.
The tags and the states are those of a stream, but no function is shared with it.
-/

namespace SymmetricCrypto.SecretStream.Standard

open Digits

/-- The byte of a tag: bit 0 marks the end of a set of chunks, and bit 1 a new key. -/
def tagByte : Tag → UInt8
  | .message => 0
  | .push => 1
  | .rekey => 2
  | .final => 3

/-- The nonce of a state: the chunk counter, least significant byte first, and the inner nonce. -/
def nonce (s : State) : Bytes := bytes 4 s.counter.toNat ++ s.inner.toList

/-- `B_i`: the keystream block at a counter modulo `2^32`, under the key and nonce of a state. -/
def block (s : State) (i : ℕ) : Bytes := ChaCha.Standard.block s.key.toList (i % 2^32) (nonce s)

/-- The tag byte and 63 zeros, summed with `B_1`. -/
def tagBlock (s : State) (tag : UInt8) : Bytes :=
  (tag :: List.replicate 63 0).mapIdx fun i b => b ^^^ (block s 1).getD i 0

/-- The encrypted message: byte `i` is summed with byte `i % 64` of `B_{2 + i / 64}`. -/
def ciphertext (s : State) (message : Bytes) : Bytes :=
  message.mapIdx fun i b => b ^^^ (block s (2 + i / 64)).getD (i % 64) 0

/-- What is authenticated: the associated data with zeros to a multiple of 16 bytes, the encrypted
tag block, the encrypted message, as many zeros as the message has bytes modulo 16, and two
lengths. -/
def authenticated (s : State) (message associated : Bytes) (tag : UInt8) : Bytes :=
  associated.rightpad (16 * ((associated.length + 15) / 16)) 0 ++
    tagBlock s tag ++ ciphertext s message ++ List.replicate (message.length % 16) 0 ++
    bytes 8 associated.length ++ bytes 8 (64 + message.length)

/-- The one-time key of a chunk: the first 32 bytes of `B_0`. -/
def oneTimeKey (s : State) : Poly1305.Key := Vector.ofFn fun i => (block s 0).getD i.val 0

/-- The authenticator of a chunk. -/
def mac (s : State) (message associated : Bytes) (tag : UInt8) : Poly1305.Tag :=
  ⟨(Poly1305.Standard.tag (oneTimeKey s) (authenticated s message associated tag)).toArray,
    by simp [Poly1305.Standard.tag]⟩

/-- A chunk: the encrypted tag byte, the encrypted message and the authenticator. -/
def chunk (s : State) (message associated : Bytes) (tag : UInt8) : Bytes :=
  (tag ^^^ (block s 1).getD 0 0) :: ciphertext s message ++ (mac s message associated tag).toList

/-- The state after a chunk, before the key may change: the first 8 bytes of the authenticator are
summed into the inner nonce, and the counter goes up. -/
def moved (s : State) (mac : Poly1305.Tag) : State :=
  ⟨s.key, s.counter + 1, Vector.ofFn fun i => s.inner.get i ^^^ mac.getD i.val 0⟩

/-- New key and inner nonce: the present ones, summed with the first 40 bytes of `B_0`. The counter
starts again. -/
def rekeyed (s : State) : State :=
  ⟨Vector.ofFn fun i => s.key.get i ^^^ (block s 0).getD i.val 0, 1,
    Vector.ofFn fun i => s.inner.get i ^^^ (block s 0).getD (32 + i.val) 0⟩

/-- The state after a chunk with this authenticator and tag byte. The key changes exactly if bit 1
of the tag byte is set or the counter has gone around. -/
def next (s : State) (mac : Poly1305.Tag) (tag : UInt8) : State :=
  if tag.toNat.testBit 1 ∨ (moved s mac).counter = 0 then rekeyed (moved s mac) else moved s mac

end SymmetricCrypto.SecretStream.Standard
