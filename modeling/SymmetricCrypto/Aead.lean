import SymmetricCrypto.ChaCha.Extended
import SymmetricCrypto.Error
import SymmetricCrypto.Poly1305.Authenticator

/-!
# XChaCha20-Poly1305

Authenticated encryption with associated data: the construction of RFC 8439 under an HChaCha20 subkey,
so that a random nonce of 192 bits is safe. Block 0 of the stream gives the one-time key of the
authenticator, and the blocks from 1 on encrypt. The tag covers the transcript: the associated data and
the ciphertext, each filled up to whole blocks of 16 bytes, and then both lengths.

Opening checks the tag before it decrypts anything.
-/

namespace SymmetricCrypto.Aead

open ChaCha

/-- The length of the tag after the ciphertext. -/
def tagLength : Nat := 16

/-- The 96-bit nonce under the subkey: four zeros and the rest of the 192-bit nonce. -/
def innerNonce (nonce : ExtendedNonce) : Nonce := Vector.replicate 4 (0 : UInt8) ++ nonce.rest

/-- The one-time key: the first half of block 0. -/
def oneTimeKey (key : Key) (nonce : Nonce) : Poly1305.Key := leading 32 32 (block key 0 nonce)

/-- What the tag covers, in the parts in which it is read. -/
def transcript (associated ciphertext : Bytes) : List Bytes :=
  [associated, Poly1305.padding associated, ciphertext, Poly1305.padding ciphertext,
    LittleEndian.encode 8 associated.length, LittleEndian.encode 8 ciphertext.length]

/-- The tag of a ciphertext under the subkey. -/
def tag (key : Key) (nonce : Nonce) (associated ciphertext : Bytes) : Poly1305.Tag :=
  Poly1305.tagOfParts (oneTimeKey key nonce) (transcript associated ciphertext)

/-- The ciphertext and its tag. -/
def encrypt (key : Key) (nonce : ExtendedNonce) (plaintext associated : Bytes) : Bytes :=
  let inner := subkey key nonce.hashed
  let ciphertext := xorStream inner (innerNonce nonce) 1 plaintext
  ciphertext ++ (tag inner (innerNonce nonce) associated ciphertext).toList

/-- The plaintext of a ciphertext and its tag, if the tag is the right one. -/
def decrypt (key : Key) (nonce : ExtendedNonce) (sealed associated : Bytes) : Except Error Bytes :=
  if sealed.length < tagLength then .error (.malformed .shortSealed)
  else
    let ciphertext := sealed.take (sealed.length - tagLength)
    let claimed := sealed.drop (sealed.length - tagLength)
    let inner := subkey key nonce.hashed
    if Bytes.equal (tag inner (innerNonce nonce) associated ciphertext).toList claimed then
      .ok (xorStream inner (innerNonce nonce) 1 ciphertext)
    else .error .authenticationFailure

end SymmetricCrypto.Aead
