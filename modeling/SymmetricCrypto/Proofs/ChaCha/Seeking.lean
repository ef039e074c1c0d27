import Mathlib
import SymmetricCrypto.Proofs.ChaCha.Extended
import SymmetricCrypto.Proofs.ChaCha.Keystream
import SymmetricCrypto.Proofs.ChaCha.Trace
import SymmetricCrypto.Proofs.Word

/-!
# A stream can be entered at any block

A byte of the stream depends on its own position only (`getElem?_xorStream`), so data after a whole
number of blocks is summed with the stream that starts at a later counter (`xorStream_append`).

The same stream is written over a buffer in place: chunk after chunk, with one state whose word 12
counts the blocks (`sumInPlace`). What the loop holds after some chunks is `summedChunks`. A chunk
is one more piece of the stream by `xorStream_append`, so a step keeps to it
(`sumChunk_summedChunks`), and the buffer is the stream in the end (`sumInPlace_eq`).
-/

namespace SymmetricCrypto.ChaCha

/-! ## Whole blocks -/

/-- Data after a whole number of blocks is summed with the stream from a later counter on. -/
theorem xorStream_append (key : Key) (nonce : Nonce) (counter : UInt32) {a : Bytes} {n : ℕ}
    (ha : a.length = 64 * n) (b : Bytes) :
    xorStream key nonce counter (a ++ b) =
      xorStream key nonce counter a ++ xorStream key nonce (counter + UInt32.ofNat n) b := by
  apply List.ext_getElem?
  intro i
  rw [getElem?_xorStream]
  rcases lt_or_ge i a.length with hi | hi
  · have hi' : i < (xorStream key nonce counter a).length := by rwa [length_xorStream]
    rw [List.getElem?_append_left hi, List.getElem?_append_left hi', getElem?_xorStream]
  · have hi' : (xorStream key nonce counter a).length ≤ i := by rwa [length_xorStream]
    obtain ⟨j, rfl⟩ := Nat.exists_eq_add_of_le hi
    rw [List.getElem?_append_right hi, List.getElem?_append_right hi', length_xorStream,
      Nat.add_sub_cancel_left, getElem?_xorStream, ha, keystreamByte_add_blocks]

/-! ## The stream in place -/

/-- The state of the block at a 32-bit counter. -/
def State.atBlock (key : Key) (nonce : Nonce) (counter : UInt32) : State :=
  State.keyed key (Vector.singleton counter ++ LittleEndian.words 3 nonce)

/-- The state of the next block: the counter in word 12 goes up by one and wraps. -/
def State.counted (s : State) : State := s.setIfInBounds 12 (s.getD 12 0 + 1)

/-- One chunk of a buffer is summed with the block of the state, and the state counts the block. -/
def sumChunk (x : State × Bytes) (k : ℕ) : State × Bytes :=
  let chunk := (x.2.drop (64 * k)).take 64
  (x.1.counted,
    x.2.take (64 * k) ++ Bytes.xor chunk x.1.keystream.toList ++ x.2.drop (64 * k + 64))

/-- A buffer summed in place with the keystream from a block counter on, and the state after it. -/
def sumInPlace (key : Key) (nonce : Nonce) (counter : UInt32) (data : Bytes) : State × Bytes :=
  (List.range (startedBlocks data.length)).foldl sumChunk (State.atBlock key nonce counter, data)

/-- The counted state is that of the next counter. -/
theorem counted_atBlock (key : Key) (nonce : Nonce) (counter : UInt32) :
    (State.atBlock key nonce counter).counted = State.atBlock key nonce (counter + 1) := by
  unfold State.counted State.atBlock
  rw [State.getD_keyed _ _ (i := 0) (by decide), Vector.getElem_append_left (by decide),
    State.setIfInBounds_keyed _ _ (i := 0) (by decide), Vector.set_append_left (by decide)]
  rfl

/-- What the loop holds after some chunks: these are summed, the rest of the buffer is untouched,
and the state is that of the next block. -/
def summedChunks (key : Key) (nonce : Nonce) (counter : UInt32) (data : Bytes) (n : ℕ) :
    State × Bytes :=
  (State.atBlock key nonce (counter + UInt32.ofNat n),
    xorStream key nonce counter (data.take (64 * n)) ++ data.drop (64 * n))

/-- One chunk: the summed part is one piece longer, which may be shorter than a block. -/
theorem sumChunk_summedChunks (key : Key) (nonce : Nonce) (counter : UInt32) {data : Bytes} {n : ℕ}
    (hn : 64 * n ≤ data.length) :
    sumChunk (summedChunks key nonce counter data n) n =
      summedChunks key nonce counter data (n + 1) := by
  have hdone : (data.take (64 * n)).length = 64 * n := List.length_take_of_le hn
  have hsummed : (xorStream key nonce counter (data.take (64 * n))).length = 64 * n := by
    rw [length_xorStream, hdone]
  have hcounter : counter + UInt32.ofNat n + 1 = counter + UInt32.ofNat (n + 1) :=
    (Word.add_ofNat_add counter n 1).symm
  have hrest : data.drop (64 * n + 64) = data.drop (64 * (n + 1)) := by rw [Nat.mul_succ]
  have hpiece := xorStream_append key nonce counter hdone ((data.drop (64 * n)).take 64)
  rw [← List.take_add, ← Nat.mul_succ, xorStream_of_length_le (List.length_take_le ..)] at hpiece
  unfold sumChunk summedChunks
  dsimp only
  rw [counted_atBlock, hcounter, List.take_left' hsummed, List.drop_left' hsummed, hpiece,
    ← List.drop_drop, List.drop_left' hsummed, List.drop_drop, hrest]
  rfl

/-- The loop up to any chunk. -/
theorem foldl_sumChunk (key : Key) (nonce : Nonce) (counter : UInt32) (data : Bytes) {n : ℕ}
    (hn : n ≤ startedBlocks data.length) :
    (List.range n).foldl sumChunk (State.atBlock key nonce counter, data) =
      summedChunks key nonce counter data n := by
  induction n with
  | zero =>
    rw [summedChunks, Word.add_ofNat_zero, Nat.mul_zero, List.take_zero, xorStream, dif_pos rfl]
    rfl
  | succ n ih =>
    have hstarted : 64 * n ≤ data.length := by
      unfold startedBlocks at hn
      omega
    rw [List.range_succ, List.foldl_append, ih (by omega), List.foldl_cons, List.foldl_nil,
      sumChunk_summedChunks key nonce counter hstarted]

/-- The buffer holds the stream, and the state after it is that of the block behind the last one. -/
theorem sumInPlace_eq (key : Key) (nonce : Nonce) (counter : UInt32) (data : Bytes) :
    sumInPlace key nonce counter data =
      (State.atBlock key nonce (counter + UInt32.ofNat (startedBlocks data.length)),
        xorStream key nonce counter data) := by
  have hall : data.length ≤ 64 * startedBlocks data.length := by
    unfold startedBlocks
    omega
  rw [sumInPlace, foldl_sumChunk key nonce counter data le_rfl, summedChunks,
    List.take_of_length_le hall, List.drop_of_length_le hall, List.append_nil]

/-- The stream is pointwise and can be entered at any block, also where it is written over a buffer
in place. Byte `i` of the data is summed with byte `i % 64` of the block whose counter is `i / 64`
after the first one, modulo `2^32`. So a second pass restores the data, and data after a whole
number of blocks is summed as if the stream started at the counter of its first block. -/
theorem xorStream_seekable (key : Key) (nonce : Nonce) (counter : UInt32) :
    let counterAt (n : ℕ) := UInt32.ofNat ((counter.toNat + n) % 2^32)
    (∀ data, (sumInPlace key nonce counter data).2 = xorStream key nonce counter data) ∧
    (∀ data i, (xorStream key nonce counter data)[i]? = data[i]?.map fun b =>
      b ^^^ (block key (counterAt (i / 64)) nonce).get ⟨i % 64, Nat.mod_lt i (by decide)⟩) ∧
    (∀ data, xorStream key nonce counter (xorStream key nonce counter data) = data) ∧
    ∀ a b : Bytes, 64 ∣ a.length →
      xorStream key nonce counter (a ++ b) =
        xorStream key nonce counter a ++ xorStream key nonce (counterAt (a.length / 64)) b := by
  intro counterAt
  have hcounterAt (n : ℕ) : counterAt n = counter + UInt32.ofNat n :=
    Word.ofNat_toNat_add_mod counter n
  refine ⟨fun data => ?_, fun data i => ?_, xorStream_xorStream key nonce counter, fun a b ha => ?_⟩
  · rw [sumInPlace_eq]
  · rw [hcounterAt, getElem?_xorStream]
    rfl
  · obtain ⟨n, hn⟩ := ha
    have hdiv : a.length / 64 = n := by omega
    rw [hcounterAt, hdiv, xorStream_append key nonce counter hn]

/-- An instance whose counter goes around within the first part, and whose second part ends within a
block. -/
theorem xorStream_seekable_wrap :
    let key : Key := Vector.replicate 32 7
    let nonce : Nonce := Vector.replicate 12 9
    let a : Bytes := List.replicate 128 1
    let b : Bytes := List.replicate 70 2
    64 ∣ a.length ∧
      xorStream key nonce 0xffffffff (a ++ b) =
        xorStream key nonce 0xffffffff a ++ xorStream key nonce 1 b := by
  intro key nonce a b
  have ha : a.length = 128 := List.length_replicate
  have hdvd : 64 ∣ a.length := by rw [ha]; decide
  have h := (xorStream_seekable key nonce 0xffffffff).2.2.2 a b hdvd
  rw [ha] at h
  exact ⟨hdvd, h⟩

end SymmetricCrypto.ChaCha
