import Mathlib
import SymmetricCrypto.Proofs.ChaCha.Conformance
import SymmetricCrypto.Proofs.Poly1305.Evaluation
import SymmetricCrypto.Proofs.SecretStream.Epoch
import SymmetricCrypto.Proofs.SecretStream.Standard

/-!
# Sealed chunks have the standard format

`push` makes a chunk in parts: the tag block and the message go through the keystream, and the
authenticator reads what it covers piece by piece. The keystream is made of the blocks of the standard
(`keystreamByte_eq_block`), and so the tag block and the encrypted message are those of the standard
(`toList_tagBlock`, `body_eq_ciphertext`). To the authenticator, pieces of any
length are one string (`flatten_transcript`), so its value is the standard one (`mac_eq_standard`).
The state after the chunk follows from that value (`advance_eq_next`), with the new key taken under
the nonce that has already moved on (`rekey_eq_rekeyed`).
-/

namespace SymmetricCrypto.SecretStream.State

open ChaCha

/-- The nonce of a state is the standard one. -/
theorem toList_nonce_eq_standard (s : State) : s.nonce.toList = Standard.nonce s := by
  rw [toList_nonce, LittleEndian.wordBytes, LittleEndian.encode_eq_bytes, Standard.nonce]

/-- A byte of a keystream block of a state is that of the standard block. -/
theorem getElem_block (s : State) (n : ℕ) {i : ℕ} (hi : i < 64) :
    (block s.key (UInt32.ofNat n) s.nonce)[i] = (Standard.block s n).getD i 0 := by
  have hblock : (block s.key (UInt32.ofNat n) s.nonce).toList = Standard.block s n := by
    rw [toList_block, toList_nonce_eq_standard, UInt32.toNat_ofNat', Standard.block]
  rw [← hblock, List.getD_eq_getElem _ _ (by rwa [Vector.length_toList]), Vector.getElem_toList]

/-- A keystream byte is a byte of a standard block. -/
theorem keystreamByte_eq_block (s : State) (start i : ℕ) :
    keystreamByte s.key s.nonce (UInt32.ofNat start) i =
      (Standard.block s (start + i / 64)).getD (i % 64) 0 := by
  rw [keystreamByte, ← UInt32.ofNat_add]
  exact getElem_block s _ (Nat.mod_lt i (by decide))

/-- In the first 64 bytes, it is a byte of the first block. -/
theorem keystreamByte_eq_block_of_lt (s : State) (start : ℕ) {i : ℕ} (hi : i < 64) :
    keystreamByte s.key s.nonce (UInt32.ofNat start) i = (Standard.block s start).getD i 0 := by
  rw [keystreamByte_of_lt _ _ _ hi]
  exact getElem_block s start hi

/-- The block that carries a tag byte is the tag byte and zeros, summed with block 1. -/
theorem toList_tagBlock (s : State) (byte : UInt8) :
    (s.tagBlock byte).toList = Standard.tagBlock s byte := by
  have hplain : ((Vector.replicate 64 0).set 0 byte).toList = byte :: List.replicate 63 0 := rfl
  have hlength : (byte :: List.replicate 63 (0 : UInt8)).length = 64 := rfl
  rw [tagBlock, toList_xorVector, hplain, Standard.tagBlock]
  apply List.ext_getElem?
  intro i
  rw [getElem?_xorStream, List.getElem?_mapIdx]
  rcases lt_or_ge i 64 with hi | hi
  · have hkey := keystreamByte_eq_block_of_lt s 1 hi
    rw [← hkey]
    rfl
  · rw [List.getElem?_eq_none (hlength.trans_le hi), Option.map_none, Option.map_none]

/-- The encrypted message is the standard one. -/
theorem body_eq_ciphertext (s : State) (message : Bytes) :
    s.body message = Standard.ciphertext s message := by
  apply List.ext_getElem?
  intro i
  have hkey := keystreamByte_eq_block s 2 i
  rw [body, getElem?_xorStream, Standard.ciphertext, List.getElem?_mapIdx, ← hkey]
  rfl

/-- What the authenticator reads is one string. -/
theorem flatten_transcript (s : State) (message associated : Bytes) (byte : UInt8) :
    (transcript associated (s.tagBlock byte) (s.body message)).flatten =
      Standard.authenticated s message associated byte := by
  rw [transcript, length_body, toList_tagBlock, body_eq_ciphertext, Standard.authenticated,
    ← Poly1305.append_padding, ← LittleEndian.encode_eq_bytes, ← LittleEndian.encode_eq_bytes]
  simp only [List.flatten_cons, List.flatten_nil, List.append_assoc, List.append_nil]

/-- The authenticator of a chunk is the standard one. -/
theorem mac_eq_standard (s : State) (message associated : Bytes) (byte : UInt8) :
    s.mac associated (s.tagBlock byte) (s.body message) =
      Standard.mac s message associated byte := by
  have hkey : Aead.oneTimeKey s.key s.nonce = Standard.oneTimeKey s := by
    refine Vector.ext fun i hi => ?_
    unfold Aead.oneTimeKey Standard.oneTimeKey
    rw [getElem_leading, Vector.getElem_ofFn]
    exact getElem_block s 0 (by omega)
  rw [← Vector.toList_inj, mac, Poly1305.tagOfParts, (Poly1305.Authenticator.reads_foldl _ _).tag,
    flatten_transcript, hkey]
  rfl

/-- A new key is the standard one. -/
theorem rekey_eq_rekeyed (s : State) : s.rekey = Standard.rekeyed s := by
  have hkey : leading 32 8 (xorVector s.key s.nonce 0 (s.key ++ s.inner)) =
      (Standard.rekeyed s).key := by
    refine Vector.ext fun i hi => ?_
    unfold Standard.rekeyed
    rw [getElem_leading, getElem_xorVector, Vector.getElem_append_left hi, Vector.getElem_ofFn]
    exact congrArg (s.key[i] ^^^ ·) (keystreamByte_eq_block_of_lt s 0 (by omega))
  have hinner : trailing 32 8 (xorVector s.key s.nonce 0 (s.key ++ s.inner)) =
      (Standard.rekeyed s).inner := by
    refine Vector.ext fun i hi => ?_
    unfold Standard.rekeyed
    rw [getElem_trailing, getElem_xorVector,
      Vector.getElem_append_right (by omega) (Nat.le_add_right 32 i), Vector.getElem_ofFn]
    simp only [Nat.add_sub_cancel_left]
    exact congrArg (s.inner[i] ^^^ ·) (keystreamByte_eq_block_of_lt s 0 (by omega))
  exact congrArg₂ (State.mk · 1 ·) hkey hinner

/-- The state that a chunk moves on to is the standard one. -/
theorem moved_eq_standard (s : State) (mac : Poly1305.Tag) : s.moved mac = Standard.moved s mac := by
  have hinner : Vector.zipWith (· ^^^ ·) s.inner (leading 8 8 mac) =
      (Standard.moved s mac).inner := by
    refine Vector.ext fun i hi => ?_
    unfold Standard.moved
    rw [Vector.getElem_zipWith, getElem_leading, Vector.getElem_ofFn]
    exact congrArg (s.inner[i] ^^^ ·) (getD_eq_getElem mac (by omega) 0).symm
  exact congrArg (State.mk s.key (s.counter + 1)) hinner

/-- A tag byte asks for a new key exactly if its bit 1 is set. -/
theorem forcesRekey_eq_testBit (byte : UInt8) : Tag.forcesRekey byte = byte.toNat.testBit 1 := by
  revert byte
  decide +kernel

/-- The state after a chunk is the standard one. -/
theorem advance_eq_next (s : State) (mac : Poly1305.Tag) (byte : UInt8) :
    s.advance mac byte = Standard.next s mac byte := by
  rw [advance_eq, moved_eq_standard, forcesRekey_eq_testBit, rekey_eq_rekeyed, Standard.next]
  simp only [Bool.or_eq_true, beq_iff_eq]

/-- The byte of a tag is the standard one. -/
theorem toByte_eq_tagByte (tag : Tag) : tag.toByte = Standard.tagByte tag := by
  cases tag <;> rfl

/-- A sealed chunk has the standard format, and the state after it is the standard next one. -/
theorem push_eq_standard (s : State) (message associated : Bytes) (tag : Tag)
    (h : message.length ≤ messageMax) :
    let byte := Standard.tagByte tag
    s.push message associated tag =
      (.ok (Standard.chunk s message associated byte),
        Standard.next s (Standard.mac s message associated byte) byte) := by
  intro byte
  have hbyte : tag.toByte = byte := toByte_eq_tagByte tag
  have hfirst : (s.tagBlock byte)[0] = byte ^^^ (Standard.block s 1).getD 0 0 := by
    have hkey := keystreamByte_eq_block s 1 0
    rw [getElem_tagBlock, if_pos rfl, UInt8.xor_comm]
    exact congrArg (byte ^^^ ·) hkey
  rw [push_eq h, hbyte, hfirst, mac_eq_standard, advance_eq_next, body_eq_ciphertext, Standard.chunk]

/-- An instance whose counter goes around, so that the key changes though the tag does not ask for
it. -/
theorem push_eq_standard_around :
    let s : State := ⟨Vector.replicate 32 7, 0xffffffff, Vector.replicate 8 9⟩
    [1, 2, 3].length ≤ messageMax ∧
      s.push [1, 2, 3] [4, 5] .push =
        (.ok (Standard.chunk s [1, 2, 3] [4, 5] 1),
          Standard.rekeyed (Standard.moved s (Standard.mac s [1, 2, 3] [4, 5] 1))) := by
  intro s
  refine ⟨by decide, (push_eq_standard s [1, 2, 3] [4, 5] .push (by decide)).trans ?_⟩
  have haround : s.counter + 1 = 0 := by decide
  rw [Standard.next]
  exact congrArg (Prod.mk _) (if_pos (Or.inr haround))

end SymmetricCrypto.SecretStream.State
