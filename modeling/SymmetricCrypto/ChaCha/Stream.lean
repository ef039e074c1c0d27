import SymmetricCrypto.ChaCha.Block

/-!
# The ChaCha20 stream

Data is summed with the keystream blocks at consecutive counters, one for each started piece of 64
bytes. The counter has 32 bits and wraps.
-/

namespace SymmetricCrypto.ChaCha

/-- The data summed with the keystream from a block counter on. -/
def xorStream (key : Key) (nonce : Nonce) (counter : UInt32) (data : Bytes) : Bytes :=
  if _h : data = [] then []
  else
    Bytes.xor (data.take 64) (block key counter nonce).toList ++
      xorStream key nonce (counter + 1) (data.drop 64)
termination_by data.length
decreasing_by
  have := List.length_pos_iff.mpr _h
  simp only [List.length_drop]
  omega

/-- The stream keeps the length of the data. -/
@[simp] theorem length_xorStream (key : Key) (nonce : Nonce) (counter : UInt32) (data : Bytes) :
    (xorStream key nonce counter data).length = data.length := by
  fun_induction xorStream key nonce counter data with
  | case1 => rfl
  | case2 counter data h ih =>
    simp only [List.length_append, Bytes.length_xor, Vector.length_toList, List.length_take, ih,
      List.length_drop]
    omega

/-- The same for data of fixed length. -/
def xorVector {n : Nat} (key : Key) (nonce : Nonce) (counter : UInt32) (data : Vector UInt8 n) :
    Vector UInt8 n :=
  ⟨(xorStream key nonce counter data.toList).toArray, by simp⟩

end SymmetricCrypto.ChaCha
