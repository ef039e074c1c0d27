import Mathlib
import SymmetricCrypto.Aead
import SymmetricCrypto.Proofs.Aead.Acceptance
import SymmetricCrypto.Proofs.Bytes.Words
import SymmetricCrypto.Proofs.ChaCha.Extended
import SymmetricCrypto.Proofs.ChaCha.Keystream

/-!
# The two layouts of a state give one stream

Under the subkey for a nonce of 192 bits, the last four words of a state are laid out in two ways. A
session has a counter of two words and then the rest of the nonce; a sealed message has a counter of
one word and then the inner nonce, which starts with a word of zero. So the states are the same as long
as the high word of the long counter is zero, and no longer (`extendedState_eq_iff`). Up to there, a
session gives the same stream as `xorStream`, whatever the pieces of its data, and the ciphertext of a
sealed message is what a session gives that starts at block 1 (`streams_agree`).
-/

namespace SymmetricCrypto.Aead

open ChaCha

/-- The words of the inner nonce: zero, and those that a session has as well. -/
theorem words_innerNonce (nonce : ExtendedNonce) :
    LittleEndian.words 3 (innerNonce nonce) =
      #v[(0 : UInt32)] ++ LittleEndian.words 2 nonce.rest := by
  have hparts : (innerNonce nonce).toList =
      (Vector.replicate 4 (0 : UInt8)).toList ++ nonce.rest.toList := Vector.toList_append
  have hzero : LittleEndian.words 1 (Vector.replicate 4 (0 : UInt8)) = #v[(0 : UInt32)] := by
    decide
  have hwords := LittleEndian.words_append (m := 1) (n := 2) _ _ hparts
  rwa [hzero] at hwords

/-- The state of a session at a block is that of the other layout exactly if the high word of its
counter is zero. -/
theorem extendedState_eq_iff (key : Key) (nonce : ExtendedNonce) {n : ℕ} (hn : n < 2^64) :
    extendedState key nonce n =
      State.keyed (subkey key nonce.hashed)
        (#v[UInt32.ofNat n] ++ LittleEndian.words 3 (innerNonce nonce)) ↔ n < 2^32 := by
  rw [words_innerNonce, extendedState]
  generalize LittleEndian.words 2 nonce.rest = rest
  generalize subkey key nonce.hashed = inner
  -- The inner nonce starts with the zero word that is the high word of the counter.
  have htail : #v[UInt32.ofNat n] ++ (#v[(0 : UInt32)] ++ rest) =
      (#v[UInt32.ofNat n, 0] ++ rest : Vector UInt32 4) := by
    apply Vector.toList_inj.mp
    simp only [Vector.toList_append]
    rfl
  rw [htail]
  constructor
  · -- Word 13 is the high word of the counter in one state, and zero in the other.
    intro hstate
    have hread := congrArg (fun s : State => s.getD (12 + 1) 0) hstate
    rw [State.getD_keyed _ _ (by decide), State.getD_keyed _ _ (by decide),
      Vector.getElem_append_left (by decide), Vector.getElem_append_left (by decide)] at hread
    have hhigh : UInt32.ofNat (n / 2^32) = 0 := hread
    have hzero := congrArg UInt32.toNat hhigh
    rw [UInt32.toNat_ofNat', UInt32.toNat_zero] at hzero
    omega
  · intro hlow
    rw [Nat.div_eq_of_lt hlow]
    rfl

/-- Until the counter of 32 bits goes around, the keystreams are the same. -/
theorem extendedByte_eq_keystreamByte (key : Key) (nonce : ExtendedNonce) {counter : UInt32} {i : ℕ}
    (h : counter.toNat + i / 64 < 2^32) :
    extendedByte key nonce counter i =
      keystreamByte (subkey key nonce.hashed) (innerNonce nonce) counter i := by
  have hcounter : UInt32.ofNat (counter.toNat + i / 64) = counter + UInt32.ofNat (i / 64) := by
    rw [UInt32.ofNat_add, UInt32.ofNat_toNat]
  have hlong : counter.toNat + i / 64 < 2^64 := h.trans (by decide)
  have hblock : extendedBlock key nonce (counter.toNat + i / 64) =
      block (subkey key nonce.hashed) (counter + UInt32.ofNat (i / 64)) (innerNonce nonce) := by
    rw [extendedBlock, (extendedState_eq_iff key nonce hlong).mpr h, hcounter]
    rfl
  rw [extendedByte, Nat.mod_eq_of_lt hlong, hblock]
  exact getD_eq_getElem _ (Nat.mod_lt i (by decide)) 0

/-- Until then, data summed with one keystream is data summed with the other. -/
theorem mapIdx_extendedByte (key : Key) (nonce : ExtendedNonce) {counter : UInt32} {data : Bytes}
    (fits : counter.toNat + (data.length + 63) / 64 ≤ 2^32) :
    (data.mapIdx fun i b => b ^^^ extendedByte key nonce counter i) =
      xorStream (subkey key nonce.hashed) (innerNonce nonce) counter data := by
  apply List.ext_getElem?
  intro i
  rw [List.getElem?_mapIdx, getElem?_xorStream]
  rcases lt_or_ge i data.length with hi | hi
  · rw [extendedByte_eq_keystreamByte key nonce (by omega)]
  · rw [List.getElem?_eq_none hi, Option.map_none, Option.map_none]

/-- A message is summed with the same stream in both layouts, as long as the number of its last block
fits 32 bits: `xorStream` under the subkey and the inner nonce gives the same bytes as a session, in
one call or in many. So a sealed message whose plaintext has at most `64 * (2^32 - 1)` bytes is what
`xorExtended` gives from block 1 on, and the tag of these bytes. -/
theorem streams_agree (key : Key) (nonce : ExtendedNonce) :
    (∀ (counter : UInt32) (pieces : List Bytes),
      counter.toNat + (pieces.flatten.length + 63) / 64 ≤ 2^32 →
      let out := xorStream (subkey key nonce.hashed) (innerNonce nonce) counter pieces.flatten
      xorExtended key nonce counter pieces.flatten = out ∧
        ((Session.start key nonce counter).applyAll pieces).1.flatten = out) ∧
    ∀ plaintext associated : Bytes, plaintext.length ≤ 64 * (2^32 - 1) →
      let body := xorExtended key nonce 1 plaintext
      body.length = plaintext.length ∧
        encrypt key nonce plaintext associated =
          body ++ (tag (subkey key nonce.hashed) (innerNonce nonce) associated body).toList := by
  -- One call is enough, since a session does not depend on the cuts.
  have hone : ∀ (counter : UInt32) (data : Bytes), counter.toNat + (data.length + 63) / 64 ≤ 2^32 →
      xorExtended key nonce counter data =
        xorStream (subkey key nonce.hashed) (innerNonce nonce) counter data := by
    intro counter data fits
    have hstart := (Session.at_start key nonce counter).apply data
    simp only [Nat.zero_add] at hstart
    rw [xorExtended, hstart.1, mapIdx_extendedByte key nonce fits]
  refine ⟨fun counter pieces fits => ⟨hone counter _ fits, ?_⟩, fun plaintext associated fits => ?_⟩
  · rw [Session.flatten_applyAll_start, mapIdx_extendedByte key nonce fits]
  · have hcount : (1 : UInt32).toNat + (plaintext.length + 63) / 64 ≤ 2^32 := by
      show 1 + (plaintext.length + 63) / 64 ≤ 2^32
      omega
    rw [hone 1 plaintext hcount]
    exact ⟨length_xorStream _ _ _ _, rfl⟩

/-- A message of two blocks that are the last ones of a counter of 32 bits, in two pieces, and the
longest plaintext. -/
theorem streams_agree_last :
    let key : Key := Vector.replicate 32 7
    let nonce : ExtendedNonce := Vector.replicate 24 9
    let counter : UInt32 := 0xfffffffe
    let pieces : List Bytes := [List.replicate 70 1, List.replicate 58 2]
    let plaintext : Bytes := List.replicate (64 * (2^32 - 1)) 5
    (counter.toNat + (pieces.flatten.length + 63) / 64 ≤ 2^32 ∧
      ((Session.start key nonce counter).applyAll pieces).1.flatten =
        xorStream (subkey key nonce.hashed) (innerNonce nonce) counter pieces.flatten) ∧
    plaintext.length ≤ 64 * (2^32 - 1) ∧
      ciphertextPart (encrypt key nonce plaintext [1]) = xorExtended key nonce 1 plaintext := by
  intro key nonce counter pieces plaintext
  obtain ⟨hstream, hbody⟩ := streams_agree key nonce
  have hfits : counter.toNat + (pieces.flatten.length + 63) / 64 ≤ 2^32 := by
    simp [pieces, counter]
  have hlongest : plaintext.length ≤ 64 * (2^32 - 1) := List.length_replicate.le
  refine ⟨⟨hfits, (hstream counter pieces hfits).2⟩, hlongest, ?_⟩
  rw [(hbody plaintext [1] hlongest).2, ciphertextPart_append]

end SymmetricCrypto.Aead
