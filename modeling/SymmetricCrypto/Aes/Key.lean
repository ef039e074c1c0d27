import SymmetricCrypto.Bytes.Basic
import SymmetricCrypto.Error

/-!
# AES keys

A key has 4, 6 or 8 words of four bytes. Its size fixes the number of rounds.
-/

namespace SymmetricCrypto.Aes

/-- The sizes of an AES key. -/
inductive KeySize
  /-- 16 bytes. -/
  | aes128
  /-- 24 bytes. -/
  | aes192
  /-- 32 bytes. -/
  | aes256
  deriving DecidableEq

namespace KeySize

/-- The number of 32-bit words of a key. -/
def words : KeySize → Nat
  | aes128 => 4
  | aes192 => 6
  | aes256 => 8

/-- The number of rounds under a key: six more than it has words. -/
def rounds (size : KeySize) : Nat := size.words + 6

/-- The name of a cipher with keys of this size. -/
def text : KeySize → String
  | aes128 => "Aes128"
  | aes192 => "Aes192"
  | aes256 => "Aes256"

end KeySize

/-- An AES key. -/
structure Key where
  /-- The size, which the rounds depend on. -/
  size : KeySize
  /-- As many bytes as the size says. -/
  bytes : Vector UInt8 (4 * size.words)
  deriving DecidableEq

namespace Key

/-- The key with these bytes; their number is its size. -/
def ofBytes? (data : Bytes) : Except Error Key :=
  if h : data.length = 16 then .ok ⟨.aes128, data.toArray, by simpa [KeySize.words] using h⟩
  else if h : data.length = 24 then .ok ⟨.aes192, data.toArray, by simpa [KeySize.words] using h⟩
  else if h : data.length = 32 then .ok ⟨.aes256, data.toArray, by simpa [KeySize.words] using h⟩
  else .error (.invalidParameter .aesKeyLength)

/-- The key with zeros for its bytes. -/
def wipe (key : Key) : Key := ⟨key.size, Vector.replicate _ 0⟩

/-- A text for logs, which shows the size and none of the bytes. -/
def redacted (key : Key) : String := "InternalAesKey::" ++ key.size.text ++ "(<redacted>)"

end Key

end SymmetricCrypto.Aes
