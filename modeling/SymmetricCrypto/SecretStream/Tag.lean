import SymmetricCrypto.Bytes.Basic

/-!
# Chunk tags

Each chunk of a stream carries a tag. Bit 0 of its byte marks the end of a logical message, and bit 1
changes the key after the chunk; the last chunk of a stream has both.
-/

namespace SymmetricCrypto.SecretStream

/-- What a chunk is in its stream. -/
inductive Tag
  /-- An ordinary chunk. -/
  | message
  /-- The end of a set of chunks, after which the stream goes on. -/
  | push
  /-- A chunk after which the key changes. -/
  | rekey
  /-- The last chunk, after which the key changes too. -/
  | final
  deriving DecidableEq

namespace Tag

/-- The byte of a tag. -/
def toByte : Tag → UInt8
  | message => 0
  | push => 1
  | rekey => 2
  | final => 3

/-- The tag of a byte, if it stands for one. -/
def ofByte? (byte : UInt8) : Option Tag :=
  if byte = 0 then some message
  else if byte = 1 then some push
  else if byte = 2 then some rekey
  else if byte = 3 then some final
  else none

/-- A tag reads back from its byte. -/
@[simp] theorem ofByte?_toByte (t : Tag) : ofByte? t.toByte = some t := by
  cases t <;> decide

/-- Whether a tag byte asks for a new key after its chunk. -/
def forcesRekey (byte : UInt8) : Bool := byte &&& 2 != 0

end Tag

end SymmetricCrypto.SecretStream
