import Mathlib
import SymmetricCrypto.Proofs.Aes.Chaining

/-!
# The ciphertexts that open

A decrypting session opens exactly the ciphertexts that an encrypting session gives
(`decrypt_accepts_exactly_encrypted`), so a plaintext has one ciphertext under a key and an initial
block.

Chaining and its inverse are taken apart block by block: if the blocks of a ciphertext decrypt to the
blocks of a plaintext, then these encrypt to it (`cipherBlock_eq_chain`), and the other way round
(`plainBlock_eq_blockAt`). What is left is the padding: the bytes that are taken off are those that
would be added to what is kept (`eq_padded_take`).
-/

namespace SymmetricCrypto.Aes

open Standard (blockAt chain cipherBlock plainBlock padded paddingLength cbcEncrypt cbcDecrypt
  cbcOpen)

namespace Cbc

variable {E : Equiv.Perm Block} {initial : Block} {plaintext ciphertext message : Bytes} {n : ℕ}

/-! ## Chaining and its inverse -/

/-- What decrypts to the blocks of a plaintext is what they encrypt to. -/
theorem cipherBlock_eq_chain
    (h : ∀ i < n, blockAt plaintext i = plainBlock E initial ciphertext (i + 1)) {i : ℕ}
    (hi : i ≤ n) : cipherBlock E initial plaintext i = chain initial ciphertext i := by
  induction i with
  | zero => rfl
  | succ i ih =>
    have hplain : plainBlock E initial ciphertext (i + 1) =
        (E.symm (chain initial ciphertext (i + 1))).xor (chain initial ciphertext i) :=
      sum_eq_xor _ _
    rw [cipherBlock, ih (Nat.le_of_succ_le hi), h i hi, hplain, sum_eq_xor, Block.xor_xor_cancel,
      Equiv.apply_symm_apply]

/-- What the blocks of a plaintext encrypt to decrypts to them. -/
theorem plainBlock_eq_blockAt
    (h : ∀ i < n, blockAt ciphertext i = cipherBlock E initial plaintext (i + 1)) {i : ℕ}
    (hi : i < n) : plainBlock E initial ciphertext (i + 1) = blockAt plaintext i := by
  have hchain : ∀ i ≤ n, chain initial ciphertext i = cipherBlock E initial plaintext i := by
    intro i hi
    cases i with
    | zero => rfl
    | succ i => exact h i hi
  rw [plainBlock, Nat.add_sub_cancel, hchain (i + 1) hi, hchain i hi.le, cipherBlock,
    Equiv.symm_apply_apply, sum_eq_xor, sum_eq_xor, Block.xor_xor_cancel]

/-- The ciphertext of a message decrypts to the padded message. -/
theorem cbcDecrypt_cbcEncrypt (E : Equiv.Perm Block) (initial : Block) (message : Bytes) :
    cbcDecrypt E initial (cbcEncrypt E initial message) = padded message := by
  have haligned : (padded message).length % 16 = 0 := by
    rw [length_padded, Nat.mul_mod_right]
  have hblocks : ∀ i < message.length / 16 + 1, blockAt (cbcEncrypt E initial message) i =
      cipherBlock E initial (padded message) (i + 1) := by
    intro i hi
    rw [cbcEncrypt_eq]
    exact blockAt_flatMap (fun i => cipherBlock E initial (padded message) (i + 1)) hi
  calc cbcDecrypt E initial (cbcEncrypt E initial message)
      = (List.range (message.length / 16 + 1)).flatMap fun i =>
          (plainBlock E initial (cbcEncrypt E initial message) (i + 1)).toList := by
        rw [cbcDecrypt_eq, length_cbcEncrypt, Nat.mul_div_cancel_left _ (by decide)]
    _ = (List.range ((padded message).length / 16)).flatMap fun i =>
          (blockAt (padded message) i).toList := by
        rw [length_padded_div]
        apply List.flatMap_congr
        intro i hi
        rw [plainBlock_eq_blockAt hblocks (List.mem_range.mp hi)]
    _ = padded message := flatMap_blockAt haligned

/-- Whole blocks that decrypt to a padded message are the ciphertext of the message. -/
theorem eq_cbcEncrypt_of_cbcDecrypt (haligned : ciphertext.length % 16 = 0)
    (h : cbcDecrypt E initial ciphertext = padded message) :
    ciphertext = cbcEncrypt E initial message := by
  have hcount : ciphertext.length / 16 = message.length / 16 + 1 := by
    have hlength := congrArg List.length h
    rw [length_cbcDecrypt, length_padded] at hlength
    omega
  have hblocks : ∀ i < ciphertext.length / 16,
      blockAt (padded message) i = plainBlock E initial ciphertext (i + 1) := by
    intro i hi
    rw [← h, cbcDecrypt_eq]
    exact blockAt_flatMap (fun i => plainBlock E initial ciphertext (i + 1)) hi
  calc ciphertext
      = (List.range (ciphertext.length / 16)).flatMap fun i => (blockAt ciphertext i).toList :=
        (flatMap_blockAt haligned).symm
    _ = (List.range (message.length / 16 + 1)).flatMap fun i =>
          (cipherBlock E initial (padded message) (i + 1)).toList := by
        rw [← hcount]
        apply List.flatMap_congr
        intro i hi
        rw [cipherBlock_eq_chain hblocks (List.mem_range.mp hi)]
        rfl
    _ = cbcEncrypt E initial message := (cbcEncrypt_eq E initial message).symm

/-! ## The padding -/

/-- At least one byte is added. -/
theorem one_le_paddingLength (message : Bytes) : 1 ≤ paddingLength message := by
  rw [paddingLength]
  omega

/-- The number of the bytes that are added fits one byte. -/
theorem toNat_paddingLength (message : Bytes) :
    (UInt8.ofNat (paddingLength message)).toNat = paddingLength message := by
  rw [UInt8.toNat_ofNat', paddingLength]
  omega

/-- The last byte of a padded message is the number of the bytes that were added. -/
theorem getLastD_padded (message : Bytes) :
    (padded message).getLastD 0 = UInt8.ofNat (paddingLength message) := by
  have hpositive := one_le_paddingLength message
  rw [padded, List.getLastD_eq_getLast?, List.getLast?_append_of_ne_nil _ (by simp; omega),
    List.getLast?_replicate, if_neg (by omega), Option.getD_some]

/-- A byte string of whole blocks whose last bytes are all their number is a padded message. -/
theorem eq_padded_take {data : Bytes} {last : UInt8} (haligned : data.length % 16 = 0)
    (hlong : 16 ≤ data.length) (hlast : 1 ≤ last.toNat ∧ last.toNat ≤ 16)
    (hbytes : ∀ byte ∈ data.drop (data.length - last.toNat), byte = last) :
    data = padded (data.take (data.length - last.toNat)) := by
  have hlength : paddingLength (data.take (data.length - last.toNat)) = last.toNat := by
    rw [paddingLength, List.length_take]
    omega
  have htail : data.drop (data.length - last.toNat) = List.replicate last.toNat last := by
    have hreplicate := List.eq_replicate_of_mem hbytes
    rwa [List.length_drop, Nat.sub_sub_self (by omega)] at hreplicate
  rw [padded, hlength, UInt8.ofNat_toNat, ← htail, List.take_append_drop]

/-- What opens is the ciphertext of what it opens to. -/
theorem eq_cbcEncrypt_of_cbcOpen (h : cbcOpen E initial ciphertext = .ok message) :
    ciphertext = cbcEncrypt E initial message := by
  unfold cbcOpen at h
  dsimp only at h
  split_ifs at h with hpartial hempty hlast hbytes
  obtain rfl := Except.ok.inj h
  have haligned : ciphertext.length % 16 = 0 := not_not.mp hpartial
  have hplaintext : (cbcDecrypt E initial ciphertext).length = ciphertext.length := by
    rw [length_cbcDecrypt]
    omega
  have hlong : 16 ≤ ciphertext.length := by
    have := List.length_pos_iff.mpr hempty
    omega
  generalize (cbcDecrypt E initial ciphertext).getLastD 0 = last at *
  have hpositive : last.toNat ≠ 0 := fun hzero => hlast (Or.inl (UInt8.toNat_inj.mp hzero))
  have hshort : last.toNat ≤ 16 := Nat.not_lt.mp fun hlong => hlast (Or.inr hlong)
  push Not at hbytes
  -- What was taken off is the padding of what is kept.
  have hpadded := eq_padded_take (by rw [hplaintext, haligned]) (by rw [hplaintext]; exact hlong)
    ⟨Nat.one_le_iff_ne_zero.mpr hpositive, hshort⟩ hbytes
  exact eq_cbcEncrypt_of_cbcDecrypt haligned hpadded

/-- The ciphertext of a message opens to the message. -/
theorem cbcOpen_cbcEncrypt (E : Equiv.Perm Block) (initial : Block) (message : Bytes) :
    cbcOpen E initial (cbcEncrypt E initial message) = .ok message := by
  have hlength := length_cbcEncrypt E initial message
  have hpositive := one_le_paddingLength message
  have hbound : paddingLength message ≤ 16 := Nat.sub_le _ _
  have hkept : (padded message).length - paddingLength message = message.length := by
    rw [padded, List.length_append, List.length_replicate, Nat.add_sub_cancel]
  -- None of the rules of the padding is broken.
  have haligned : ¬ 16 * (message.length / 16 + 1) % 16 ≠ 0 := by omega
  have hnonempty : cbcEncrypt E initial message ≠ [] := by
    rw [← List.length_pos_iff, hlength]
    omega
  have hlast : ¬ (UInt8.ofNat (paddingLength message) = 0 ∨ 16 < paddingLength message) := by
    rintro (hzero | hlong)
    · have := congrArg UInt8.toNat hzero
      rw [toNat_paddingLength] at this
      exact absurd this (Nat.one_le_iff_ne_zero.mp hpositive)
    · omega
  have hbytes : ¬ ∃ byte ∈ (padded message).drop message.length,
      byte ≠ UInt8.ofNat (paddingLength message) := by
    rintro ⟨byte, hbyte, hne⟩
    rw [padded, List.drop_left] at hbyte
    exact hne (List.eq_of_mem_replicate hbyte)
  unfold cbcOpen
  dsimp only
  rw [cbcDecrypt_cbcEncrypt, getLastD_padded, toNat_paddingLength, hkept, hlength,
    if_neg haligned, if_neg hnonempty, if_neg hlast, if_neg hbytes, padded, List.take_left]

/-- What does not open is malformed. -/
theorem cbcOpen_eq_ok_or_malformed (E : Equiv.Perm Block) (initial : Block) (ciphertext : Bytes) :
    (∃ message, cbcOpen E initial ciphertext = .ok message) ∨
      ∃ cause, cbcOpen E initial ciphertext = .error (.malformed cause) := by
  unfold cbcOpen
  dsimp only
  split_ifs
  · exact .inr ⟨_, rfl⟩
  · exact .inr ⟨_, rfl⟩
  · exact .inr ⟨_, rfl⟩
  · exact .inr ⟨_, rfl⟩
  · exact .inl ⟨_, rfl⟩

/-- Opening accepts exactly what sealing produces, however both are cut. A session opens the data that
its pieces make up by the rules of the padding, in their order. It gives a message exactly if an
encrypting session gives this data for the message, and data that no message gives is rejected as
malformed; then the session keeps neither output nor pending bytes. The function for a whole
ciphertext does the same. -/
theorem decrypt_accepts_exactly_encrypted (key : Key) (initial : Block) (pieces : List Bytes) :
    let opened := (Session.start mode key .decrypting initial).completeAll mode pieces decrypt
    let sealing (parts : List Bytes) :=
      ((Session.start mode key .encrypting initial).completeAll mode parts encrypt).1
    opened.1 = cbcOpen key.permutation initial pieces.flatten ∧
    (∀ parts, opened.1 = .ok parts.flatten ↔ sealing parts = .ok ⟨pieces.flatten, initial⟩) ∧
    ((∃ parts, sealing parts = .ok ⟨pieces.flatten, initial⟩) ∨
      ∃ cause, opened.1 = .error (.malformed cause) ∧ opened.2.output = #[] ∧
        opened.2.pending.pending = []) ∧
    decryptMessage key initial pieces.flatten = opened.1 := by
  intro opened sealing
  obtain ⟨s, hopened⟩ := completeAll_decrypt key initial pieces
  have hresult : opened.1 = cbcOpen key.permutation initial pieces.flatten := congrArg Prod.fst hopened
  -- To open and to seal are inverse, whatever the parts.
  have hiff : ∀ parts, opened.1 = .ok parts.flatten ↔
      sealing parts = .ok ⟨pieces.flatten, initial⟩ := by
    intro parts
    have hsealing : sealing parts =
        .ok ⟨cbcEncrypt key.permutation initial parts.flatten, initial⟩ :=
      completeAll_encrypt key initial parts
    rw [hresult, hsealing]
    constructor
    · intro hopens
      rw [← eq_cbcEncrypt_of_cbcOpen hopens]
    · intro hsealed
      obtain ⟨hciphertext, -⟩ := Sealed.mk.inj (Except.ok.inj hsealed)
      rw [← hciphertext, cbcOpen_cbcEncrypt]
  refine ⟨hresult, hiff, ?_, ?_⟩
  · rcases cbcOpen_eq_ok_or_malformed key.permutation initial pieces.flatten with
      ⟨message, hopens⟩ | ⟨cause, hcause⟩
    · -- The data is what the message is sealed to.
      refine .inl ⟨[message], (hiff [message]).mp ?_⟩
      rw [hresult, hopens, List.flatten_singleton]
    · -- The finalizer has cleared the session.
      have hafter : opened.2 = s.finish s.register := congrArg Prod.snd hopened
      refine .inr ⟨cause, hresult.trans hcause, ?_⟩
      rw [hafter]
      exact ⟨rfl, rfl⟩
  · obtain ⟨t, hone⟩ := completeAll_decrypt key initial [pieces.flatten]
    rw [decryptMessage, Session.complete_eq_completeAll, hone, hresult, List.flatten_singleton]

end Cbc

end SymmetricCrypto.Aes
