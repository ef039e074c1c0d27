import Mathlib
import SymmetricCrypto.Aead
import SymmetricCrypto.Proofs.ChaCha.Keystream

/-!
# The sealed messages that open

`decrypt` opens a byte string exactly if `encrypt` gives it (`decrypt_opens_exactly_encrypted`). So
there is only one sealed form of a plaintext under a key, a nonce and associated data.

The tag covers the ciphertext, so both sides compute it from the same input, and decrypting the
ciphertext is encrypting it again. What is left is the cut: the tag is the last 16 bytes, whatever
the length (`ciphertextPart`, `tagPart`).
-/

namespace SymmetricCrypto.Aead

open ChaCha

/-- The ciphertext of a sealed message: all but its last 16 bytes. -/
def ciphertextPart (message : Bytes) : Bytes := message.take (message.length - tagLength)

/-- The tag that a sealed message claims: its last 16 bytes. -/
def tagPart (message : Bytes) : Bytes := message.drop (message.length - tagLength)

/-- A sealed message is its two parts. -/
theorem ciphertextPart_append_tagPart (message : Bytes) :
    ciphertextPart message ++ tagPart message = message := List.take_append_drop _ _

/-- The parts of a sealed message that was put together from them: its ciphertext. -/
theorem ciphertextPart_append (ciphertext : Bytes) (tag : Poly1305.Tag) :
    ciphertextPart (ciphertext ++ tag.toList) = ciphertext := by
  have hlength : (ciphertext ++ tag.toList).length - tagLength = ciphertext.length := by
    rw [List.length_append, Vector.length_toList, tagLength, Nat.add_sub_cancel]
  rw [ciphertextPart, hlength, List.take_left]

/-- The parts of a sealed message that was put together from them: its tag. -/
theorem tagPart_append (ciphertext : Bytes) (tag : Poly1305.Tag) :
    tagPart (ciphertext ++ tag.toList) = tag.toList := by
  have hlength : (ciphertext ++ tag.toList).length - tagLength = ciphertext.length := by
    rw [List.length_append, Vector.length_toList, tagLength, Nat.add_sub_cancel]
  rw [tagPart, hlength, List.drop_left]

/-- The tag that a ciphertext should have. -/
def expectedTag (key : Key) (nonce : ExtendedNonce) (associated ciphertext : Bytes) :
    Poly1305.Tag :=
  tag (subkey key nonce.hashed) (innerNonce nonce) associated ciphertext

/-- The plaintext or the ciphertext, summed with the keystream from block 1 on. -/
def cipher (key : Key) (nonce : ExtendedNonce) (data : Bytes) : Bytes :=
  xorStream (subkey key nonce.hashed) (innerNonce nonce) 1 data

/-- Decrypting is encrypting again. -/
theorem cipher_cipher (key : Key) (nonce : ExtendedNonce) (data : Bytes) :
    cipher key nonce (cipher key nonce data) = data := xorStream_xorStream _ _ _ _

/-- A sealed message is the ciphertext and its tag. -/
theorem encrypt_eq (key : Key) (nonce : ExtendedNonce) (plaintext associated : Bytes) :
    encrypt key nonce plaintext associated =
      cipher key nonce plaintext ++
        (expectedTag key nonce associated (cipher key nonce plaintext)).toList := rfl

/-- What becomes of a byte string: one that is too short and one with another tag are refused, in
this order. -/
theorem decrypt_eq (key : Key) (nonce : ExtendedNonce) (message associated : Bytes) :
    decrypt key nonce message associated =
      if message.length < tagLength then .error (.malformed .shortSealed)
      else if (expectedTag key nonce associated (ciphertextPart message)).toList =
          tagPart message then
        .ok (cipher key nonce (ciphertextPart message))
      else .error .authenticationFailure := by
  unfold decrypt
  exact if_congr Iff.rfl rfl (if_congr Bytes.equal_iff rfl rfl)

variable {key : Key} {nonce : ExtendedNonce} {message plaintext associated : Bytes}

/-- What was sealed opens to the plaintext. -/
theorem decrypt_encrypt (key : Key) (nonce : ExtendedNonce) (plaintext associated : Bytes) :
    decrypt key nonce (encrypt key nonce plaintext associated) associated = .ok plaintext := by
  have hlong : ¬ (encrypt key nonce plaintext associated).length < tagLength := by
    rw [encrypt_eq, List.length_append, Vector.length_toList, tagLength]
    omega
  rw [decrypt_eq, if_neg hlong, encrypt_eq, ciphertextPart_append, tagPart_append, if_pos rfl,
    cipher_cipher]

/-- What opens was sealed: the plaintext gives this very message. -/
theorem eq_encrypt_of_decrypt (h : decrypt key nonce message associated = .ok plaintext) :
    message = encrypt key nonce plaintext associated := by
  rw [decrypt_eq] at h
  split_ifs at h with hshort htag
  obtain rfl := Except.ok.inj h
  rw [encrypt_eq, cipher_cipher, htag, ciphertextPart_append_tagPart]

/-- Opening accepts exactly what sealing produces: a message opens to a plaintext exactly if sealing
the plaintext gives this message. Every other message is refused: as malformed if it is shorter
than a tag, and else because it is not authentic. -/
theorem decrypt_opens_exactly_encrypted (key : Key) (nonce : ExtendedNonce)
    (message associated : Bytes) :
    (∀ plaintext, decrypt key nonce message associated = .ok plaintext ↔
      message = encrypt key nonce plaintext associated) ∧
    ((¬ ∃ plaintext, message = encrypt key nonce plaintext associated) →
      decrypt key nonce message associated =
        .error (if message.length < 16 then .malformed .shortSealed else .authenticationFailure)) ∧
    (message.length < 16 → ¬ ∃ plaintext, message = encrypt key nonce plaintext associated) := by
  -- To open and to seal are inverse.
  have hiff : ∀ plaintext, decrypt key nonce message associated = .ok plaintext ↔
      message = encrypt key nonce plaintext associated := fun plaintext =>
    ⟨eq_encrypt_of_decrypt, fun h => h ▸ decrypt_encrypt key nonce plaintext associated⟩
  refine ⟨hiff, fun hnone => ?_, ?_⟩
  · rw [decrypt_eq]
    rcases lt_or_ge message.length tagLength with hshort | hlong
    · rw [if_pos hshort]
      exact congrArg Except.error (if_pos hshort).symm
    · -- A message with the right tag would be a sealed one.
      have htag : (expectedTag key nonce associated (ciphertextPart message)).toList ≠
          tagPart message := by
        intro htag
        have hopens : decrypt key nonce message associated =
            .ok (cipher key nonce (ciphertextPart message)) := by
          rw [decrypt_eq, if_neg (Nat.not_lt.mpr hlong), if_pos htag]
        exact hnone ⟨_, (hiff _).mp hopens⟩
      rw [if_neg (Nat.not_lt.mpr hlong), if_neg htag]
      exact congrArg Except.error (if_neg (Nat.not_lt.mpr hlong)).symm
  · rintro hshort ⟨plaintext, rfl⟩
    rw [encrypt_eq, List.length_append, Vector.length_toList] at hshort
    omega

end SymmetricCrypto.Aead
