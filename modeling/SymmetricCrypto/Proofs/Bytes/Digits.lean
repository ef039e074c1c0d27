import Mathlib
import SymmetricCrypto.Proofs.Bytes.Words

/-!
# Numbers and their bytes by place

The standards are written with these two definitions: the number of a byte string is a sum over the
places of its bytes (`value`), and each byte of a number is a quotient (`bytes`). The codec that the
ciphers run takes one byte after the other and goes on with the rest. It computes the same in both
directions (`decode_eq_value`, `encode_eq_bytes`), and so a standard shares no definition with it.
-/

namespace SymmetricCrypto.Digits

/-- The number of a byte string: each byte, times 256 to the power of its place. -/
def value (data : Bytes) : ℕ := ∑ i ∈ Finset.range data.length, (data.getD i 0).toNat * 256^i

/-- The first `n` bytes of a number, each by its place. -/
def bytes (n v : ℕ) : Bytes := (List.range n).map fun i => UInt8.ofNat (v / 256^i)

/-- As many bytes as are asked for. -/
@[simp] theorem length_bytes (n v : ℕ) : (bytes n v).length = n := by
  rw [bytes, List.length_map, List.length_range]

end SymmetricCrypto.Digits

namespace SymmetricCrypto.LittleEndian

/-- The codec reads the number of a byte string. -/
theorem decode_eq_value (data : Bytes) : decode data = Digits.value data := decode_eq_sum data

/-- The codec writes the bytes of a number. -/
theorem encode_eq_bytes (n v : ℕ) : encode n v = Digits.bytes n v := by
  unfold Digits.bytes
  refine List.ext_getElem ?_ fun i hi _ => ?_
  · rw [length_encode, List.length_map, List.length_range]
  · rw [getElem_encode n v i hi, List.getElem_map, List.getElem_range]

/-- The codec reads the number at a position by place; bytes past the end are zero. -/
theorem decode_take_drop (data : Bytes) (start n : ℕ) :
    decode ((data.drop start).take n) =
      ∑ j ∈ Finset.range n, (data.getD (start + j) 0).toNat * 256^j := by
  have hbyte : ∀ j < n, ((data.drop start).take n).getD j 0 = data.getD (start + j) 0 := by
    intro j hj
    rw [List.getD_eq_getElem?_getD, List.getElem?_take_of_lt hj, List.getElem?_drop,
      List.getD_eq_getElem?_getD]
  have hlength : ((data.drop start).take n).length ≤ n := List.length_take_le n _
  rw [decode_eq_sum]
  refine (Finset.sum_congr rfl fun j hj => ?_).trans
    (Finset.sum_subset (Finset.range_subset_range.mpr hlength) fun j hj hout => ?_)
  · rw [hbyte j ((Finset.mem_range.mp hj).trans_le hlength)]
  · have hend : ((data.drop start).take n).length ≤ j :=
      Nat.le_of_not_lt fun hlt => hout (Finset.mem_range.mpr hlt)
    rw [← hbyte j (Finset.mem_range.mp hj), List.getD_eq_default _ _ hend]
    exact Nat.zero_mul _

end SymmetricCrypto.LittleEndian
