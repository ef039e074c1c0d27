import SymmetricCrypto.Aes.Field
import SymmetricCrypto.Word

/-!
# The substitution of bytes

A byte is replaced by its inverse in the field of 256 elements, followed by an affine map of its bits.
The tables `box` and `inverseBox` hold the substitution and its inverse for all bytes.
-/

namespace SymmetricCrypto.Aes.Substitution

open Word

/-- The affine map: the sum of five rotations of the byte and a constant. -/
def affine (x : UInt8) : UInt8 :=
  x ^^^ rotl8 x 1 ^^^ rotl8 x 2 ^^^ rotl8 x 3 ^^^ rotl8 x 4 ^^^ 0x63

/-- The inverse of the affine map. -/
def affineInverse (y : UInt8) : UInt8 := rotl8 y 1 ^^^ rotl8 y 3 ^^^ rotl8 y 6 ^^^ 0x05

/-- The substitution of each byte. -/
def box : Vector UInt8 256 := Vector.ofFn fun i => affine (Field.inverse (UInt8.ofNat i.val))

/-- The byte that each byte is substituted for. -/
def inverseBox : Vector UInt8 256 :=
  Vector.ofFn fun i => Field.inverse (affineInverse (UInt8.ofNat i.val))

/-- The substitution. -/
def forward (x : UInt8) : UInt8 :=
  have := x.toNat_lt
  box[x.toNat]

/-- The inverse substitution. -/
def backward (y : UInt8) : UInt8 :=
  have := y.toNat_lt
  inverseBox[y.toNat]

end SymmetricCrypto.Aes.Substitution
