/-!
# Rotations of machine words

The rotations that the permutations and the digests are built from, each by a distance below the
width of its word.
-/

namespace SymmetricCrypto.Word

/-- A byte rotated left by `k < 8`. -/
@[inline] def rotl8 (x : UInt8) (k : UInt8) : UInt8 := (x <<< k) ||| (x >>> (8 - k))

/-- A 32-bit word rotated left by `k < 32`. -/
@[inline] def rotl32 (x : UInt32) (k : UInt32) : UInt32 := (x <<< k) ||| (x >>> (32 - k))

/-- A 32-bit word rotated right by `k < 32`. -/
@[inline] def rotr32 (x : UInt32) (k : UInt32) : UInt32 := (x >>> k) ||| (x <<< (32 - k))

/-- A 64-bit word rotated right by `k < 64`. -/
@[inline] def rotr64 (x : UInt64) (k : UInt64) : UInt64 := (x >>> k) ||| (x <<< (64 - k))

end SymmetricCrypto.Word
