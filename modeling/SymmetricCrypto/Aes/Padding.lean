import SymmetricCrypto.Aes.Schedule

/-!
# Padding to whole blocks

The padding of PKCS#7 fills the last block up with bytes that are each the number of bytes added. A
message that ends at a block boundary gets a whole block, so that a padding is always there to be taken
off, and its last byte says how long it is.
-/

namespace SymmetricCrypto.Aes.Padding

/-- The number of bytes that fill up a block. -/
def missing (tail : Bytes) : Nat := 16 - tail.length

/-- The block that starts with these bytes, filled up. -/
def fill (tail : Bytes) (h : tail.length ≤ 16) : Block :=
  ⟨(tail ++ List.replicate (missing tail) (UInt8.ofNat (missing tail))).toArray, by
    simp [missing]; omega⟩

/-- The message before its padding, if it has one. -/
def strip (padded : Bytes) : Except Error Bytes :=
  match padded.getLast? with
  | none => .error (.malformed .noBlock)
  | some last =>
    let n := last.toNat
    if n = 0 ∨ 16 < n then .error (.malformed .paddingLength)
    else if (padded.drop (padded.length - n)).all (· == last) then
      .ok (padded.take (padded.length - n))
    else .error (.malformed .paddingBytes)

end SymmetricCrypto.Aes.Padding
