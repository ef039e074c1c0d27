import Mathlib
import SymmetricCrypto.ChaCha.Stream
import SymmetricCrypto.Proofs.Word

/-!
# The ChaCha20 stream byte by byte

`xorStream` walks through its data in pieces of 64 bytes. `getElem?_xorStream` says what that does
to one byte: the byte at position `i` is summed with byte `i % 64` of the block whose counter is
`i / 64` after the first one (`keystreamByte`). Since a keystream byte does not depend on the data,
the stream is its own inverse (`xorStream_xorStream`).
-/

namespace SymmetricCrypto.ChaCha

/-- The keystream byte at position `i` of the stream that starts at a block counter. -/
def keystreamByte (key : Key) (nonce : Nonce) (counter : UInt32) (i : Nat) : UInt8 :=
  (block key (counter + UInt32.ofNat (i / 64)) nonce).get ⟨i % 64, Nat.mod_lt i (by decide)⟩

/-- A number of blocks further, the keystream is that of the counter further by as many. -/
theorem keystreamByte_add_blocks (key : Key) (nonce : Nonce) (counter : UInt32) (n i : ℕ) :
    keystreamByte key nonce counter (64 * n + i) =
      keystreamByte key nonce (counter + UInt32.ofNat n) i := by
  have hdiv : (64 * n + i) / 64 = n + i / 64 := by omega
  have hmod : (64 * n + i) % 64 = i % 64 := by omega
  simp only [keystreamByte, hdiv, hmod, Word.add_ofNat_add]

/-- Sixty-four bytes further, the keystream is that of the next counter. -/
theorem keystreamByte_add_64 (key : Key) (nonce : Nonce) (counter : UInt32) (i : Nat) :
    keystreamByte key nonce counter (64 + i) = keystreamByte key nonce (counter + 1) i :=
  keystreamByte_add_blocks key nonce counter 1 i

/-- The first 64 keystream bytes are the block at the counter. -/
theorem keystreamByte_of_lt (key : Key) (nonce : Nonce) (counter : UInt32) {i : Nat} (hi : i < 64) :
    keystreamByte key nonce counter i = (block key counter nonce).get ⟨i, hi⟩ := by
  have hdiv : i / 64 = 0 := by omega
  have hmod : i % 64 = i := by omega
  simp only [keystreamByte, hdiv, hmod, Word.add_ofNat_zero]

/-- Within the data, each byte is summed with the keystream byte at its position. -/
theorem getElem?_xorStream_of_lt (key : Key) (nonce : Nonce) (counter : UInt32) (data : Bytes)
    (i : Nat) (hi : i < data.length) :
    (xorStream key nonce counter data)[i]? =
      data[i]?.map (· ^^^ keystreamByte key nonce counter i) := by
  fun_induction xorStream key nonce counter data generalizing i with
  | case1 => simp at hi
  | case2 counter data hdata ih =>
    have hfirst : (Bytes.xor (data.take 64) (block key counter nonce).toList).length =
        min 64 data.length := by
      simp only [Bytes.length_xor, List.length_take, Vector.length_toList]
      omega
    rcases lt_or_ge i 64 with h64 | h64
    · -- The byte lies in the first piece.
      have hkey := keystreamByte_of_lt key nonce counter h64
      generalize block key counter nonce = b at hfirst hkey ⊢
      have hblock : b.toList[i]? = some (keystreamByte key nonce counter i) := by
        rw [hkey, List.getElem?_eq_getElem (by simpa using h64)]
        rfl
      rw [List.getElem?_append_left (by omega), Bytes.xor, List.getElem?_zipWith, hblock,
        List.getElem?_take_of_lt h64]
      cases data[i]? <;> rfl
    · -- The byte lies in the rest, which starts at the next counter.
      obtain ⟨j, rfl⟩ : ∃ j, i = 64 + j := ⟨i - 64, by omega⟩
      have hj : j < (data.drop 64).length := by
        rw [List.length_drop]
        omega
      have hrest : 64 + j - min 64 data.length = j := by omega
      rw [List.getElem?_append_right (by omega), hfirst, hrest, ih j hj, keystreamByte_add_64,
        List.getElem?_drop]

/-- Each byte of the data is summed with the keystream byte at its position. -/
theorem getElem?_xorStream (key : Key) (nonce : Nonce) (counter : UInt32) (data : Bytes) (i : Nat) :
    (xorStream key nonce counter data)[i]? =
      data[i]?.map (· ^^^ keystreamByte key nonce counter i) := by
  rcases lt_or_ge i data.length with hi | hi
  · exact getElem?_xorStream_of_lt key nonce counter data i hi
  · rw [List.getElem?_eq_none (by simpa using hi), List.getElem?_eq_none hi, Option.map_none]

/-- Data of at most 64 bytes is summed with one block. -/
theorem xorStream_of_length_le {key : Key} {nonce : Nonce} {counter : UInt32} {data : Bytes}
    (h : data.length ≤ 64) :
    xorStream key nonce counter data = Bytes.xor data (block key counter nonce).toList := by
  rw [xorStream]
  split
  · rename_i hempty
    rw [hempty]
    rfl
  · rw [List.take_of_length_le h, List.drop_of_length_le h, xorStream, dif_pos rfl,
      List.append_nil]

/-- The stream is its own inverse. -/
theorem xorStream_xorStream (key : Key) (nonce : Nonce) (counter : UInt32) (data : Bytes) :
    xorStream key nonce counter (xorStream key nonce counter data) = data := by
  apply List.ext_getElem?
  intro i
  rw [getElem?_xorStream, getElem?_xorStream]
  cases data[i]? with
  | none => rfl
  | some b => simp

/-- The bytes of a vector that went through the stream. -/
theorem toList_xorVector {n : Nat} (key : Key) (nonce : Nonce) (counter : UInt32)
    (data : Vector UInt8 n) :
    (xorVector key nonce counter data).toList = xorStream key nonce counter data.toList := rfl

/-- Each entry of a vector is summed with the keystream byte at its position. -/
theorem getElem_xorVector {n : Nat} (key : Key) (nonce : Nonce) (counter : UInt32)
    (data : Vector UInt8 n) (i : Nat) (hi : i < n) :
    (xorVector key nonce counter data)[i] = data[i] ^^^ keystreamByte key nonce counter i := by
  have h := getElem?_xorStream key nonce counter data.toList i
  rw [← toList_xorVector, List.getElem?_eq_getElem (by simpa using hi),
    List.getElem?_eq_getElem (by simpa using hi), Option.map_some, Option.some.injEq] at h
  simpa only [Vector.getElem_toList] using h

end SymmetricCrypto.ChaCha
