import SymmetricCrypto.Digest.Blake2b

/-!
# Digests of any length

The hash `H'` of RFC 9106 gives a digest of any number of bytes below `2^32`. Its length comes before
the input, as a 32-bit word. A length up to 64 is one BLAKE2b digest. A longer one is a chain of
64-byte digests, each taken of the one before: the chain gives the first half of each, and a last
digest gives the remaining 33 to 64 bytes.
-/

namespace SymmetricCrypto.Stretch

/-- `n > 64` bytes from the chain that goes on with the digest `v`. -/
def chain (n : Nat) (h : 64 < n) (v : Vector UInt8 64) : Bytes :=
  v.toList.take 32 ++
    if hn : n - 32 ≤ 64 then (Blake2b.digest (n - 32) (by omega) v.toList).toList
    else chain (n - 32) (by omega) (Blake2b.digest64 v.toList)
termination_by n

/-- A chain gives as many bytes as are asked for. -/
@[simp] theorem length_chain (n : Nat) (h : 64 < n) (v : Vector UInt8 64) :
    (chain n h v).length = n := by
  fun_induction chain n h v with
  | case1 n h v ih =>
    rw [List.length_append]
    split
    · simp; omega
    · rename_i hn
      rw [ih hn]
      simp
      omega

/-- The digest of `n` bytes. -/
def digest (n : Nat) (h : 1 ≤ n) (data : Bytes) : Bytes :=
  let input := LittleEndian.encode 4 n ++ data
  if hn : n ≤ 64 then (Blake2b.digest n ⟨h, hn⟩ input).toList
  else chain n (by omega) (Blake2b.digest64 input)

/-- A digest has the length that is asked for. -/
@[simp] theorem length_digest (n : Nat) (h : 1 ≤ n) (data : Bytes) : (digest n h data).length = n := by
  simp only [digest]
  split <;> simp

/-- The digest of a length that the caller chooses. -/
def digest? (n : Nat) (data : Bytes) : Except Error Bytes :=
  if h : n = 0 then .error (.invalidParameter .emptyStretch)
  else if UInt32.size ≤ n then .error (.invalidParameter .longStretch)
  else .ok (digest n (by omega) data)

end SymmetricCrypto.Stretch
