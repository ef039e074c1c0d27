import SymmetricCrypto.SecretStream.State

/-!
# Chunks of an authenticated stream

A chunk is the encrypted tag byte, the encrypted message, and an authenticator of 16 bytes. The tag
byte is encrypted as the first byte of a whole block, whose other bytes are zero, with block 1 of the
keystream; the message is encrypted from block 2 on. Block 0 gives the one-time key.

The authenticator covers the associated data filled up to whole blocks of 16 bytes, the encrypted tag
block, the encrypted message, as many zeros as the message has bytes over whole blocks of 16, and both
lengths. The zeros do not fill up the block; they are what the format has.

`push` and `pull` give the result and the state after it. A chunk that is refused leaves the state as
it was.
-/

namespace SymmetricCrypto.SecretStream

open ChaCha

/-- The bytes of a chunk beyond its message. -/
def overhead : Nat := 17

/-- The longest message of a chunk: with two blocks before it, the 32-bit block counter lasts for it. -/
def messageMax : Nat := 64 * (UInt32.size - 2)

/-- What the authenticator of a chunk covers, in the parts in which it is read. -/
def transcript (associated : Bytes) (tagBlock : Vector UInt8 64) (body : Bytes) : List Bytes :=
  [associated, Poly1305.padding associated, tagBlock.toList, body,
    List.replicate (body.length % 16) 0, LittleEndian.encode 8 associated.length,
    LittleEndian.encode 8 (64 + body.length)]

namespace State

/-- The block that carries a tag byte, summed with block 1 of the keystream. -/
def tagBlock (s : State) (byte : UInt8) : Vector UInt8 64 :=
  xorVector s.key s.nonce 1 ((Vector.replicate 64 0).set 0 byte)

/-- The message or its ciphertext, summed with the keystream from block 2 on. -/
def body (s : State) (message : Bytes) : Bytes := xorStream s.key s.nonce 2 message

/-- The authenticator of a chunk. -/
def mac (s : State) (associated : Bytes) (tagBlock : Vector UInt8 64) (body : Bytes) : Poly1305.Tag :=
  Poly1305.tagOfParts (Aead.oneTimeKey s.key s.nonce) (transcript associated tagBlock body)

/-- Seals the next message of the stream. -/
def push (s : State) (message associated : Bytes) (tag : Tag) : Except Error Bytes × State :=
  if messageMax < message.length then (.error (.invalidParameter .longChunk), s)
  else
    let tagBlock := s.tagBlock tag.toByte
    let body := s.body message
    let mac := s.mac associated tagBlock body
    (.ok (tagBlock[0] :: body ++ mac.toList), s.advance mac tag.toByte)

/-- Opens the next chunk of the stream: the message and its tag. -/
def pull (s : State) (chunk associated : Bytes) : Except Error (Bytes × Tag) × State :=
  match chunk with
  | [] => (.error (.malformed .shortChunk), s)
  | first :: rest =>
    if rest.length < 16 then (.error (.malformed .shortChunk), s)
    else
      let body := rest.take (rest.length - 16)
      let claimed := rest.drop (rest.length - 16)
      let zeroBlock := s.tagBlock 0
      let tagByte := zeroBlock[0] ^^^ first
      let mac := s.mac associated (zeroBlock.set 0 first) body
      if Bytes.equal mac.toList claimed then
        match Tag.ofByte? tagByte with
        | some tag => (.ok (s.body body, tag), s.advance mac tagByte)
        | none => (.error (.malformed .unknownTag), s)
      else (.error .authenticationFailure, s)

end State

end SymmetricCrypto.SecretStream
