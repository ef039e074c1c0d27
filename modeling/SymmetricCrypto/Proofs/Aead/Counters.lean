import Mathlib
import SymmetricCrypto.Aead
import SymmetricCrypto.Proofs.ChaCha.Keystream
import SymmetricCrypto.Proofs.ChaCha.Trace

/-!
# The block counters of a sealed message

`encryptTraced` is `encrypt` with every block taken by `blockTraced`. A message uses the blocks from
1 on for its plaintext and block 0 for the one-time key, all under one subkey and one nonce
(`trace_encryptTraced`). The counter has 32 bits, so the blocks are distinct exactly as long as the
plaintext starts at most `2^32 - 1` pieces of 64 bytes (`counters_nodup_iff`).

Nothing bounds the plaintext. One byte more, and the counter is back at zero: the block of the
one-time key is summed into the plaintext (`keystreamByte_around`).
-/

namespace SymmetricCrypto.Aead

open ChaCha

/-- The longest plaintext whose blocks, after block 0, do not go around the counter. -/
def plaintextMax : Nat := 64 * (2^32 - 1)

/-- `encrypt` with a record of the blocks that it uses. -/
def encryptTraced (key : Key) (nonce : ExtendedNonce) (plaintext associated : Bytes) :
    Traced Input Bytes := do
  let inner := subkey key nonce.hashed
  let ciphertext ← xorStreamTraced inner (innerNonce nonce) 1 plaintext
  let first ← blockTraced inner 0 (innerNonce nonce)
  let tag := Poly1305.tagOfParts (leading 32 32 first) (transcript associated ciphertext)
  return ciphertext ++ tag.toList

/-- The record aside, a traced encryption is the encryption. -/
@[simp] theorem value_encryptTraced (key : Key) (nonce : ExtendedNonce)
    (plaintext associated : Bytes) :
    (encryptTraced key nonce plaintext associated).value =
      encrypt key nonce plaintext associated := by
  unfold encryptTraced encrypt tag oneTimeKey
  rw [Traced.value_bind, value_xorStreamTraced]
  rfl

/-- A message uses one block from block 1 on for each started piece of the plaintext, and block 0,
under the subkey and the inner nonce. -/
theorem trace_encryptTraced (key : Key) (nonce : ExtendedNonce) (plaintext associated : Bytes) :
    (encryptTraced key nonce plaintext associated).trace =
      ((List.range (startedBlocks plaintext.length)).map fun i =>
        ⟨subkey key nonce.hashed, innerNonce nonce, 1 + UInt32.ofNat i⟩) ++
          [⟨subkey key nonce.hashed, innerNonce nonce, 0⟩] := by
  unfold encryptTraced
  rw [Traced.trace_bind, Traced.trace_bind, trace_xorStreamTraced]
  rfl

/-- The counters of a plaintext of `n` bytes, before block 0. -/
def plaintextCounters (n : Nat) : List UInt32 :=
  (List.range (startedBlocks n)).map fun i => 1 + UInt32.ofNat i

/-- The counters of the blocks that a message uses. -/
theorem map_counter_trace_encryptTraced (key : Key) (nonce : ExtendedNonce)
    (plaintext associated : Bytes) :
    (encryptTraced key nonce plaintext associated).trace.map Input.counter =
      plaintextCounters plaintext.length ++ [0] := by
  rw [trace_encryptTraced, List.map_append, List.map_map]
  rfl

/-- Up to the longest plaintext the counter does not go around. -/
theorem one_add_startedBlocks_le {n : Nat} (fits : n ≤ plaintextMax) :
    (1 : UInt32).toNat + startedBlocks n ≤ 2^32 := by
  unfold plaintextMax at fits
  show 1 + (n + 63) / 64 ≤ 2^32
  omega

/-- Block `2^32` of a plaintext has the counter zero. -/
theorem one_add_ofNat_last : (1 + UInt32.ofNat (2^32 - 1) : UInt32) = 0 := by decide

/-- The counters of a message are distinct exactly up to the longest plaintext. -/
theorem nodup_plaintextCounters_iff (n : Nat) :
    (plaintextCounters n ++ [0]).Nodup ↔ n ≤ plaintextMax := by
  constructor
  · intro hnodup
    by_contra hlong
    -- A longer plaintext starts the piece whose counter is zero.
    have hzero : (0 : UInt32) ∈ plaintextCounters n := by
      refine List.mem_map.mpr ⟨2^32 - 1, List.mem_range.mpr ?_, one_add_ofNat_last⟩
      unfold plaintextMax at hlong
      unfold startedBlocks
      omega
    exact (List.disjoint_of_nodup_append hnodup) hzero (List.mem_singleton_self 0)
  · intro fits
    have hcount := one_add_startedBlocks_le fits
    rw [← List.concat_eq_append, List.nodup_concat]
    constructor
    · -- No block of the plaintext is block 0.
      intro hzero
      obtain ⟨i, hi, heq⟩ := List.mem_map.mp hzero
      have hi' := List.mem_range.mp hi
      have hvalue : (1 + UInt32.ofNat i : UInt32).toNat = 1 + i := toNat_add_ofNat (by omega)
      rw [heq, UInt32.toNat_zero] at hvalue
      omega
    · exact nodup_counters hcount

/-- Where the counter is back at zero, the keystream is the one-time key. -/
theorem keystreamByte_around (key : Key) (nonce : Nonce) {j : Nat} (hj : j < 32) :
    keystreamByte key nonce 1 (plaintextMax + j) = (oneTimeKey key nonce).get ⟨j, hj⟩ := by
  have hkey : (oneTimeKey key nonce).get ⟨j, hj⟩ = (block key 0 nonce).get ⟨j, by omega⟩ := by
    show (leading 32 32 (block key 0 nonce))[j] = _
    rw [leading, Vector.getElem_ofFn]
    rfl
  rw [plaintextMax, keystreamByte_add_blocks, one_add_ofNat_last,
    keystreamByte_of_lt key nonce 0 (by omega), hkey]

/-- So a longer plaintext is summed with the one-time key there. -/
theorem getElem?_encrypt_around (key : Key) (nonce : ExtendedNonce) {plaintext : Bytes}
    (associated : Bytes) {j : Nat} (hj : j < 32) (hlong : plaintextMax + j < plaintext.length) :
    (encrypt key nonce plaintext associated)[plaintextMax + j]? =
      plaintext[plaintextMax + j]?.map
        (· ^^^ (oneTimeKey (subkey key nonce.hashed) (innerNonce nonce)).get ⟨j, hj⟩) := by
  unfold encrypt
  dsimp only
  rw [List.getElem?_append_left (by rw [length_xorStream]; exact hlong), getElem?_xorStream,
    keystreamByte_around _ _ hj]

/-- The blocks that a message uses are all under the subkey and the inner nonce: one block from
block 1 on for each started piece of 64 bytes of the plaintext, and block 0 for the one-time key.
Their counters are distinct exactly if the plaintext has at most `64 * (2^32 - 1)` bytes. -/
theorem counters_nodup_iff (key : Key) (nonce : ExtendedNonce) (plaintext associated : Bytes) :
    (encryptTraced key nonce plaintext associated).value =
      encrypt key nonce plaintext associated ∧
    (∀ input ∈ (encryptTraced key nonce plaintext associated).trace,
      input.key = subkey key nonce.hashed ∧ input.nonce = innerNonce nonce) ∧
    (encryptTraced key nonce plaintext associated).trace.map Input.counter =
      ((List.range ((plaintext.length + 63) / 64)).map fun i => 1 + UInt32.ofNat i) ++ [0] ∧
    (((encryptTraced key nonce plaintext associated).trace.map Input.counter).Nodup ↔
      plaintext.length ≤ 64 * (2^32 - 1)) := by
  refine ⟨value_encryptTraced _ _ _ _, ?_, map_counter_trace_encryptTraced _ _ _ _, ?_⟩
  · intro input hinput
    rw [trace_encryptTraced, List.mem_append] at hinput
    rcases hinput with hinput | hinput
    · obtain ⟨i, -, rfl⟩ := List.mem_map.mp hinput
      exact ⟨rfl, rfl⟩
    · rw [List.mem_singleton.mp hinput]
      exact ⟨rfl, rfl⟩
  · rw [map_counter_trace_encryptTraced]
    exact nodup_plaintextCounters_iff plaintext.length

/-- A plaintext of zeros, one byte longer than the longest one: a counter is used twice, and the
last byte of the ciphertext is the first byte of the one-time key. -/
theorem one_time_key_in_ciphertext :
    let key : Key := Vector.replicate 32 0
    let nonce : ExtendedNonce := Vector.replicate 24 0
    let plaintext : Bytes := List.replicate (64 * (2^32 - 1) + 1) 0
    ¬ ((encryptTraced key nonce plaintext []).trace.map Input.counter).Nodup ∧
      (encrypt key nonce plaintext [])[64 * (2^32 - 1)]? =
        some ((oneTimeKey (subkey key nonce.hashed) (innerNonce nonce)).get ⟨0, by decide⟩) := by
  intro key nonce plaintext
  have hlength : plaintext.length = plaintextMax + 1 := List.length_replicate
  have hlast : plaintext[plaintextMax + 0]? = some 0 :=
    List.getElem?_replicate_of_lt (Nat.lt_succ_self plaintextMax)
  constructor
  · rw [map_counter_trace_encryptTraced, nodup_plaintextCounters_iff, hlength]
    exact Nat.not_succ_le_self _
  · have hlong : plaintextMax + 0 < plaintext.length := hlength ▸ Nat.lt_succ_self plaintextMax
    refine (getElem?_encrypt_around key nonce [] (by decide) hlong).trans ?_
    rw [hlast, Option.map_some, UInt8.zero_xor]

end SymmetricCrypto.Aead
