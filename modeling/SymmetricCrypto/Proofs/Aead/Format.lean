import Mathlib
import SymmetricCrypto.Proofs.Aead.Acceptance
import SymmetricCrypto.Proofs.Aead.Standard
import SymmetricCrypto.Proofs.ChaCha.Conformance
import SymmetricCrypto.Proofs.ChaCha.Trace
import SymmetricCrypto.Proofs.Poly1305.Evaluation

/-!
# Sealed messages have the standard format

The keystream blocks under the subkey are those of the standard (`toList_block_eq_standard`). As long
as the counter does not go around, block `1 + i / 64` of the standard is the one that the stream uses
at byte `i` (`cipher_eq_ciphertext`), and the authenticator reads the standard's single string in
parts (`flatten_transcript`). So sealing gives the standard's message (`encrypt_eq_standard`).
-/

namespace SymmetricCrypto.Aead

open ChaCha

/-- A keystream block under the subkey is that of the standard. -/
theorem toList_block_eq_standard (key : Key) (nonce : ExtendedNonce) (counter : UInt32) :
    (block (subkey key nonce.hashed) counter (innerNonce nonce)).toList =
      Standard.block key nonce counter.toNat := by
  rw [toList_block, toList_subkey, ExtendedNonce.hashed, toList_leading, innerNonce,
    Vector.toList_append, ExtendedNonce.rest, toList_trailing, Vector.toList_replicate,
    Standard.block]

/-- A byte of a keystream block under the subkey. -/
theorem getElem_block_eq_standard (key : Key) (nonce : ExtendedNonce) (counter : UInt32) {i : ℕ}
    (hi : i < 64) :
    (block (subkey key nonce.hashed) counter (innerNonce nonce))[i] =
      (Standard.block key nonce counter.toNat).getD i 0 := by
  rw [← toList_block_eq_standard, List.getD_eq_getElem _ _ (by simpa using hi),
    Vector.getElem_toList]

/-- The one-time key is that of the standard. -/
theorem oneTimeKey_eq_standard (key : Key) (nonce : ExtendedNonce) :
    oneTimeKey (subkey key nonce.hashed) (innerNonce nonce) = Standard.oneTimeKey key nonce := by
  refine Vector.ext fun i hi => ?_
  rw [oneTimeKey, getElem_leading, getElem_block_eq_standard _ _ _ (by omega),
    Standard.oneTimeKey, Vector.getElem_ofFn]
  rfl

/-- Before the counter goes around, a keystream byte is that of the standard. -/
theorem keystreamByte_eq_standard (key : Key) (nonce : ExtendedNonce) {i : ℕ}
    (hi : 1 + i / 64 < 2^32) :
    keystreamByte (subkey key nonce.hashed) (innerNonce nonce) 1 i =
      (Standard.block key nonce (1 + i / 64)).getD (i % 64) 0 := by
  have hcounter : (1 + UInt32.ofNat (i / 64) : UInt32).toNat = 1 + i / 64 := toNat_add_ofNat hi
  rw [← hcounter, ← getElem_block_eq_standard _ _ _ (Nat.mod_lt i (by decide)), keystreamByte]
  rfl

/-- The ciphertext of a plaintext for which the counter lasts is that of the standard. -/
theorem cipher_eq_ciphertext (key : Key) (nonce : ExtendedNonce) {plaintext : Bytes}
    (fits : plaintext.length ≤ 64 * (2^32 - 1)) :
    cipher key nonce plaintext = Standard.ciphertext key nonce plaintext := by
  apply List.ext_getElem?
  intro i
  rw [cipher, getElem?_xorStream, Standard.ciphertext, List.getElem?_mapIdx]
  rcases lt_or_ge i plaintext.length with hi | hi
  · rw [keystreamByte_eq_standard key nonce (by omega)]
  · rw [List.getElem?_eq_none hi, Option.map_none, Option.map_none]

/-- What the authenticator reads is one string. -/
theorem flatten_transcript_eq_standard (associated ciphertext : Bytes) :
    (transcript associated ciphertext).flatten =
      Standard.authenticated associated ciphertext := by
  rw [transcript, Standard.authenticated, Standard.padded, Standard.padded,
    ← Poly1305.append_padding, ← Poly1305.append_padding, ← LittleEndian.encode_eq_bytes,
    ← LittleEndian.encode_eq_bytes]
  simp only [List.flatten_cons, List.flatten_nil, List.append_assoc, List.append_nil]

/-- The tag of a ciphertext is that of the standard. -/
theorem toList_expectedTag (key : Key) (nonce : ExtendedNonce) (associated ciphertext : Bytes) :
    (expectedTag key nonce associated ciphertext).toList =
      Poly1305.Standard.tag (Standard.oneTimeKey key nonce)
        (Standard.authenticated associated ciphertext) := by
  rw [expectedTag, tag, Poly1305.tagOfParts, (Poly1305.Authenticator.reads_foldl _ _).tag,
    flatten_transcript_eq_standard, oneTimeKey_eq_standard]

/-- A sealed message is the standard's, for every plaintext whose blocks fit the 32-bit counter. -/
theorem encrypt_eq_standard (key : Key) (nonce : ExtendedNonce) (plaintext associated : Bytes)
    (fits : plaintext.length ≤ 64 * (2^32 - 1)) :
    encrypt key nonce plaintext associated =
      Standard.sealedMessage key nonce plaintext associated := by
  rw [encrypt_eq, toList_expectedTag, cipher_eq_ciphertext key nonce fits]
  rfl

/-- The longest plaintext. -/
theorem encrypt_eq_standard_longest :
    let key : Key := Vector.replicate 32 7
    let nonce : ExtendedNonce := Vector.replicate 24 9
    let plaintext : Bytes := List.replicate (64 * (2^32 - 1)) 5
    plaintext.length ≤ 64 * (2^32 - 1) ∧
      encrypt key nonce plaintext [1, 2, 3] =
        Standard.sealedMessage key nonce plaintext [1, 2, 3] :=
  ⟨List.length_replicate.le, encrypt_eq_standard _ _ _ _ List.length_replicate.le⟩

end SymmetricCrypto.Aead
