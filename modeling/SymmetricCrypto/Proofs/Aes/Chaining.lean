import Mathlib
import SymmetricCrypto.Aes.Cbc
import SymmetricCrypto.Proofs.Aes.Streaming

/-!
# Chained sessions compute the chained blocks

Whatever the pieces in which a message arrives, an encrypting session gives the blocks
`C_i = E(P_i ⊕ C_{i-1})` of the padded message, and a decrypting session has made the blocks
`E⁻¹(C_i) ⊕ C_{i-1}` of the whole blocks that it was given (`blocks_eq_standard`).

The register before block `i` is `C_{i-1}` in both directions, and a step sums two blocks as the
standard does (`sum_eq_xor`), so `Session.foldlM_advance` runs the blocks. The last block of a message
is the rest with the padding, which makes the blocks of the padded message complete
(`blocks_padded`).
-/

namespace SymmetricCrypto.Aes.Cbc

open Chunker (blocks remainder)
open Session (advance Taken)
open Standard (blockAt sum chain cipherBlock plainBlock padded paddingLength cbcEncrypt cbcDecrypt
  cbcOpen)

/-- The standard's sum of two blocks is that of the sessions. -/
theorem sum_eq_xor (x y : Block) : sum x y = x.xor y := by
  refine Vector.ext fun j hj => ?_
  unfold sum Block.xor
  rw [Vector.getElem_ofFn, Vector.getElem_zipWith]
  rfl

/-- Blocks can always be chained. -/
theorem total_mode : mode.Total := by
  intro k d register block
  cases d with
  | encrypting => exact ⟨_, rfl⟩
  | decrypting => exact ⟨_, rfl⟩

/-- What is numbered from 1 may be numbered from 0. -/
theorem flatMap_range'_one (f : ℕ → Bytes) (n : ℕ) :
    (List.range' 1 n).flatMap f = (List.range n).flatMap fun i => f (i + 1) := by
  rw [List.range'_eq_map_range, List.flatMap_map]
  simp only [Nat.add_comm 1]

/-! ## Encryption -/

/-- A padded message has one block more than the message has whole blocks. -/
theorem length_padded (message : Bytes) :
    (padded message).length = 16 * (message.length / 16 + 1) := by
  rw [padded, paddingLength, List.length_append, List.length_replicate]
  omega

/-- The number of blocks of a padded message. -/
theorem length_padded_div (message : Bytes) :
    (padded message).length / 16 = message.length / 16 + 1 := by
  rw [length_padded, Nat.mul_div_cancel_left _ (by decide)]

/-- The last block of a padded message is the rest of the message, filled up. -/
theorem blocks_padded (message : Bytes) (h : (remainder 16 message).length ≤ 16) :
    blocks 16 (padded message) = blocks 16 message ++ [Padding.fill (remainder 16 message) h] := by
  have hmissing : Padding.missing (remainder 16 message) = paddingLength message := by
    rw [Padding.missing, Chunker.length_remainder, paddingLength]
  have hlast : remainder 16 message ++
      List.replicate (paddingLength message) (UInt8.ofNat (paddingLength message)) =
        (Padding.fill (remainder 16 message) h).toList ++ [] := by
    rw [← hmissing, List.append_nil]
    rfl
  have hnone : blocks 16 [] = [] := Chunker.blocks_of_lt (by decide)
  rw [padded, Chunker.blocks_append (by decide), hlast, Chunker.blocks_append_left (by decide), hnone]

/-- The ciphertext, with its blocks counted from 0. -/
theorem cbcEncrypt_eq (E : Equiv.Perm Block) (initial : Block) (message : Bytes) :
    cbcEncrypt E initial message = (List.range (message.length / 16 + 1)).flatMap fun i =>
      (cipherBlock E initial (padded message) (i + 1)).toList :=
  flatMap_range'_one _ _

/-- A ciphertext is as long as the padded message. -/
theorem length_cbcEncrypt (E : Equiv.Perm Block) (initial : Block) (message : Bytes) :
    (cbcEncrypt E initial message).length = 16 * (message.length / 16 + 1) := by
  simp [cbcEncrypt, List.length_flatMap, Nat.mul_comm]

/-- The run over the blocks of a padded message. -/
theorem run_padded (key : Key) (initial : Block) (message : Bytes) :
    (blocks 16 (padded message)).foldlM (advance mode (Schedule.ofKey key) .encrypting)
        (initial, #[]) =
      .ok (cipherBlock key.permutation initial (padded message) (message.length / 16 + 1),
        (cbcEncrypt key.permutation initial message).toArray) := by
  rw [blocks_eq_blockAt, length_padded_div, cbcEncrypt_eq]
  -- The register before a block is the ciphertext block before it.
  exact Session.foldlM_advance mode (Schedule.ofKey key) .encrypting (blockAt (padded message))
    (cipherBlock key.permutation initial (padded message))
    (fun i => cipherBlock key.permutation initial (padded message) (i + 1))
    (message.length / 16 + 1) fun i _ => by
      rw [cipherBlock, sum_eq_xor]
      rfl

variable {key : Key} {initial : Block} {data : Bytes} {s : Session Block}

/-- The finalizer gives the ciphertext of the data that the session has taken. -/
theorem encrypt_of_taken (taken : Taken mode key .encrypting initial data s) :
    encrypt s = (.ok ⟨cbcEncrypt key.permutation initial data, initial⟩,
      s.finish (cipherBlock key.permutation initial (padded data) (data.length / 16 + 1))) := by
  have hrefusal := taken.refusal_eq
  obtain ⟨hschedule, hdirection, hinitial, hprogress, hpending, -⟩ := taken
  -- The last block is one more step of the run.
  have hlast : advance mode s.schedule s.direction (s.register, s.output)
        (Padding.fill s.pending.pending s.pending.length_le) =
      .ok (cipherBlock key.permutation initial (padded data) (data.length / 16 + 1),
        (cbcEncrypt key.permutation initial data).toArray) := by
    have hlength : (remainder 16 data).length ≤ 16 := by
      rw [← hpending]
      exact s.pending.length_le
    have hfill : Padding.fill s.pending.pending s.pending.length_le =
        Padding.fill (remainder 16 data) hlength := by
      simp only [hpending]
    have hrun := run_padded key initial data
    rw [blocks_padded data hlength, List.foldlM_append] at hrun
    have hprogress : (blocks 16 data).foldlM (advance mode (Schedule.ofKey key) .encrypting)
        (initial, #[]) = .ok (s.register, s.output) := hprogress
    rw [hprogress] at hrun
    rw [hschedule, hdirection, hfill, ← hrun]
    exact (bind_pure _).symm
  rw [encrypt, hrefusal]
  simp only [hlast, hinitial]

/-- Whatever the pieces, an encrypting session gives the ciphertext of the whole message. -/
theorem completeAll_encrypt (key : Key) (initial : Block) (pieces : List Bytes) :
    ((Session.start mode key .encrypting initial).completeAll mode pieces encrypt).1 =
      .ok ⟨cbcEncrypt key.permutation initial pieces.flatten, initial⟩ := by
  obtain ⟨s, htaken, hcomplete⟩ :=
    Session.exists_completeAll_eq total_mode key .encrypting initial pieces encrypt
  rw [hcomplete, encrypt_of_taken htaken]

/-! ## Decryption -/

/-- The plaintext, with its blocks counted from 0. -/
theorem cbcDecrypt_eq (E : Equiv.Perm Block) (initial : Block) (ciphertext : Bytes) :
    cbcDecrypt E initial ciphertext = (List.range (ciphertext.length / 16)).flatMap fun i =>
      (plainBlock E initial ciphertext (i + 1)).toList :=
  flatMap_range'_one _ _

/-- The run over the whole blocks of a ciphertext. -/
theorem run_ciphertext (key : Key) (initial : Block) (ciphertext : Bytes) :
    (blocks 16 ciphertext).foldlM (advance mode (Schedule.ofKey key) .decrypting) (initial, #[]) =
      .ok (chain initial ciphertext (ciphertext.length / 16),
        (cbcDecrypt key.permutation initial ciphertext).toArray) := by
  rw [blocks_eq_blockAt, cbcDecrypt_eq]
  -- Here too the register before a block is the ciphertext block before it.
  exact Session.foldlM_advance mode (Schedule.ofKey key) .decrypting (blockAt ciphertext)
    (chain initial ciphertext) (fun i => plainBlock key.permutation initial ciphertext (i + 1))
    (ciphertext.length / 16) fun i _ => by
      rw [plainBlock, sum_eq_xor]
      rfl

/-- A plaintext with its padding is as long as the whole blocks of the ciphertext. -/
theorem length_cbcDecrypt (E : Equiv.Perm Block) (initial : Block) (ciphertext : Bytes) :
    (cbcDecrypt E initial ciphertext).length = 16 * (ciphertext.length / 16) := by
  simp [cbcDecrypt, List.length_flatMap, Nat.mul_comm]

/-- Before the padding is taken off, the output is the plaintext of the whole blocks. -/
theorem output_of_taken (taken : Taken mode key .decrypting initial data s) :
    s.output.toList = cbcDecrypt key.permutation initial data := by
  have hprogress : (blocks 16 data).foldlM (advance mode (Schedule.ofKey key) .decrypting)
      (initial, #[]) = .ok (s.register, s.output) := taken.progress
  rw [run_ciphertext] at hprogress
  obtain ⟨-, houtput⟩ := Prod.mk.inj (Except.ok.inj hprogress)
  rw [← houtput]

/-- What becomes of a padded message. -/
theorem strip_eq (message : Bytes) :
    Padding.strip message =
      let last := message.getLastD 0
      let kept := message.length - last.toNat
      if message = [] then .error (.malformed .noBlock)
      else if last = 0 ∨ 16 < last.toNat then .error (.malformed .paddingLength)
      else if ∃ byte ∈ message.drop kept, byte ≠ last then .error (.malformed .paddingBytes)
      else .ok (message.take kept) := by
  rw [Padding.strip, List.getLastD_eq_getLast?]
  rcases hlast : message.getLast? with _ | last
  · obtain rfl := List.getLast?_eq_none_iff.mp hlast
    rfl
  · have hzero : last.toNat = 0 ↔ last = 0 := by
      rw [← UInt8.toNat_inj]
      rfl
    have hbytes : (message.drop (message.length - last.toNat)).all (· == last) = true ↔
        ¬ ∃ byte ∈ message.drop (message.length - last.toNat), byte ≠ last := by
      simp
    have hsome : message ≠ [] := by
      rintro rfl
      contradiction
    dsimp only [Option.getD_some]
    rw [if_neg hsome, if_congr hbytes rfl rfl, ite_not]
    exact if_congr (or_congr hzero Iff.rfl) rfl rfl

/-- The finalizer opens the data that the session has taken. -/
theorem decrypt_of_taken (taken : Taken mode key .decrypting initial data s) :
    decrypt s = (cbcOpen key.permutation initial data, s.finish s.register) := by
  have haligned : s.pending.pending ≠ [] ↔ data.length % 16 ≠ 0 := by
    rw [taken.pending_eq, ← Chunker.length_remainder, Ne, Ne, List.length_eq_zero_iff]
  have hplaintext : (if s.pending.pending ≠ [] then .error (.malformed .partialBlock)
      else Padding.strip s.output.toList) = cbcOpen key.permutation initial data := by
    unfold cbcOpen
    rw [output_of_taken taken]
    by_cases hpartial : data.length % 16 ≠ 0
    · rw [if_pos (haligned.mpr hpartial), if_pos hpartial]
    · have hempty : cbcDecrypt key.permutation initial data = [] ↔ data = [] := by
        rw [← List.length_eq_zero_iff, ← List.length_eq_zero_iff, length_cbcDecrypt]
        omega
      rw [if_neg (mt haligned.mp hpartial), if_neg hpartial, strip_eq]
      exact if_congr hempty rfl rfl
  rw [decrypt, taken.refusal_eq]
  simp only [hplaintext]

/-- Whatever the pieces, a decrypting session opens the whole ciphertext. -/
theorem completeAll_decrypt (key : Key) (initial : Block) (pieces : List Bytes) :
    ∃ s : Session Block,
      (Session.start mode key .decrypting initial).completeAll mode pieces decrypt =
        (cbcOpen key.permutation initial pieces.flatten, s.finish s.register) := by
  obtain ⟨s, htaken, hcomplete⟩ :=
    Session.exists_completeAll_eq total_mode key .decrypting initial pieces decrypt
  exact ⟨s, by rw [hcomplete, decrypt_of_taken htaken]⟩

/-- A session of cipher block chaining computes the chained blocks of the message that its pieces make
up, however it is cut. An encrypting session gives the blocks `C_1`, …, `C_n` of the padded message,
one more than the message has whole blocks, with the initial block. A decrypting session has made the
plaintext of the whole blocks, with its padding, and keeps the bytes after them. -/
theorem blocks_eq_standard (key : Key) (initial : Block) (pieces : List Bytes) :
    ((Session.start mode key .encrypting initial).completeAll mode pieces encrypt).1 =
      .ok ⟨cbcEncrypt key.permutation initial pieces.flatten, initial⟩ ∧
    (cbcEncrypt key.permutation initial pieces.flatten).length =
      16 * (pieces.flatten.length / 16 + 1) ∧
    ∃ s, (Session.start mode key .decrypting initial).addAll mode pieces = (.ok (), s) ∧
      s.output.toList = cbcDecrypt key.permutation initial pieces.flatten ∧
      s.pending.pending = pieces.flatten.drop (16 * (pieces.flatten.length / 16)) := by
  refine ⟨completeAll_encrypt key initial pieces, length_cbcEncrypt _ _ _, ?_⟩
  obtain ⟨s, hadd, htaken⟩ := Session.taken_addAll total_mode key .decrypting initial pieces
  exact ⟨s, hadd, output_of_taken htaken, htaken.pending_eq⟩

end SymmetricCrypto.Aes.Cbc
