import SymmetricCrypto.Bytes.Chunker
import SymmetricCrypto.Poly1305.Limbs

/-!
# The Poly1305 authenticator

The one-time key is a point `r`, some of whose bits are cleared, and a mask `s`. A message is read in
blocks of 16 bytes, each with a one after its last byte, as the coefficients of a polynomial without a
constant term; its value at `r` modulo `2^130 - 5`, plus `s`, is the tag (RFC 8439).

The message may come in any number of parts: the bytes of an incomplete block wait in a chunker.
-/

namespace SymmetricCrypto.Poly1305

/-- A one-time key. -/
abbrev Key := Vector UInt8 32

/-- An authentication tag. -/
abbrev Tag := Vector UInt8 16

/-- The bits of a word of `r` that a key keeps, by the position of the word. -/
def clampMask : Nat → UInt32
  | 0 => 0x0fffffff
  | _ => 0x0ffffffc

/-- The point of a key: the first 16 bytes without the cleared bits. -/
def point (key : Key) : Limbs :=
  let word (i : Nat) : UInt32 := LittleEndian.wordAt key.toList (4 * i) &&& clampMask i
  Limbs.ofWords (word 0) (word 1) (word 2) (word 3) 0

/-- One step of the evaluation: adds a block of at most 16 bytes, with a one after its last byte, and
multiplies by the point. -/
def absorbBlock (r h : Limbs) (block : Bytes) : Limbs :=
  ((h.add (Limbs.ofBytes (block ++ [1]))).mul r).carry

/-- An authenticator in progress. -/
structure Authenticator where
  /-- The point. -/
  r : Limbs
  /-- The value of the polynomial over the blocks so far. -/
  h : Limbs
  /-- The mask. -/
  s : Vector UInt8 16
  /-- The bytes of the block that is not complete. -/
  pending : Chunker 16

namespace Authenticator

/-- The authenticator of a key before the first byte. -/
def ofKey (key : Key) : Authenticator where
  r := point key
  h := Limbs.zero
  s := trailing 16 16 key
  pending := Chunker.empty 16

/-- Reads one more part of the message. -/
def update (a : Authenticator) (data : Bytes) : Authenticator :=
  let (h, pending) := a.pending.feed (fun h block => absorbBlock a.r h block.toList) a.h data
  { a with h, pending }

/-- The tag of what was read: an incomplete block is a block too, the value is reduced, and the mask is
added modulo `2^128`. -/
def tag (a : Authenticator) : Tag :=
  let h := if a.pending.pending = [] then a.h else absorbBlock a.r a.h a.pending.pending
  let value := LittleEndian.decode (LittleEndian.ofWords h.settle.reduce.toWords).toList
  ⟨(LittleEndian.encode 16 (value + LittleEndian.decode a.s.toList)).toArray, by simp⟩

end Authenticator

/-- The tag of a message that comes in parts. -/
def tagOfParts (key : Key) (parts : List Bytes) : Tag :=
  (parts.foldl Authenticator.update (Authenticator.ofKey key)).tag

/-- The tag of a message. -/
def tag (key : Key) (message : Bytes) : Tag := tagOfParts key [message]

/-- The zeros that complete the last block of 16 bytes. -/
def padding (data : Bytes) : Bytes := List.replicate ((16 - data.length % 16) % 16) 0

end SymmetricCrypto.Poly1305
