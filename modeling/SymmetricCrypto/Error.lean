/-!
# Errors

Every operation that can refuse its input returns an `Error`. An error names its cause, grouped by
who is at fault: a parameter outside the range of its algorithm (`Parameter`), bytes that no honest
sender writes (`Malformation`), a tag that does not verify, an object used against its protocol
(`Misuse`), or memory that is not there. `Error.message` is the wording.
-/

namespace SymmetricCrypto

/-- A parameter that lies outside the range its algorithm allows. -/
inductive Parameter
  /-- An AES key of a length other than 16, 24 or 32 bytes. -/
  | aesKeyLength
  /-- A BLAKE2b digest of no bytes or of more than 64. -/
  | digestLength
  /-- A variable-length digest of no bytes. -/
  | emptyStretch
  /-- A variable-length digest whose length does not fit its 32-bit length field. -/
  | longStretch
  /-- A chunk for which the 32-bit block counter would run out. -/
  | longChunk
  /-- No lane, or more than `2^24 - 1` of them. -/
  | laneCount
  /-- No pass over the memory. -/
  | passCount
  /-- Fewer than eight blocks for each lane. -/
  | memoryPerLane
  /-- A password tag shorter than 4 or longer than 1024 bytes. -/
  | tagLength
  /-- A secret or associated data whose length does not fit 32 bits. -/
  | longSecret
  /-- A salt shorter than 8 bytes. -/
  | shortSalt
  /-- A tag length that does not fit its 32-bit field. -/
  | longTag
  /-- A password hashing input whose length does not fit its 32-bit field. -/
  | longInput
  deriving DecidableEq

/-- Input bytes that cannot be the output of the inverse operation. -/
inductive Malformation
  /-- A block cipher text that does not end at a block boundary. -/
  | partialBlock
  /-- A block cipher text without any block. -/
  | noBlock
  /-- A last plaintext byte that is not a padding length. -/
  | paddingLength
  /-- A padding whose bytes are not all its length. -/
  | paddingBytes
  /-- A sealed message shorter than its tag. -/
  | shortSealed
  /-- A stream chunk shorter than its tag byte and its authenticator. -/
  | shortChunk
  /-- An authentic stream chunk with a tag byte that stands for no tag. -/
  | unknownTag
  deriving DecidableEq

/-- The modes of operation that have sessions. -/
inductive BlockMode
  /-- Cipher block chaining. -/
  | cbc
  /-- Counter mode. -/
  | ctr
  deriving DecidableEq

/-- A use of an object that its protocol does not allow. -/
inductive Misuse
  /-- A second transformation of a cipher state that serves for one block. -/
  | blockSpent
  /-- The finalizer of the other direction. -/
  | wrongDirection (mode : BlockMode)
  /-- Data or a finalizer after the finalizer. -/
  | finalized (mode : BlockMode)
  deriving DecidableEq

/-- Why an operation returned no result. -/
inductive Error
  /-- A parameter is out of its range. -/
  | invalidParameter (cause : Parameter)
  /-- The input has not the form of an output. -/
  | malformed (cause : Malformation)
  /-- The authenticator is not that of the message. -/
  | authenticationFailure
  /-- The call comes at a wrong time. -/
  | misuse (cause : Misuse)
  /-- There is no room for so many blocks. -/
  | outOfMemory (blocks : Nat)
  deriving DecidableEq

/-- The range that the parameter has to keep to. -/
def Parameter.text : Parameter → String
  | aesKeyLength => "AES keys must be 16, 24 or 32 bytes"
  | digestLength => "blake2b output must be 1..=64 bytes"
  | emptyStretch => "H' output must not be empty"
  | longStretch => "H' output length exceeds u32"
  | longChunk => "secretstream chunk too large"
  | laneCount => "parallelism must be between 1 and 2^24-1"
  | passCount => "iterations must be at least 1"
  | memoryPerLane => "memory must be at least 8 KiB per lane"
  | tagLength => "tag length must be between 4 and 1024 bytes"
  | longSecret => "secret and associated data must fit in 2^32-1 bytes"
  | shortSalt => "salt must be at least 8 bytes"
  | longTag => "tag length exceeds u32"
  | longInput => "Argon2 input longer than 2^32-1 bytes"

/-- What is wrong with the bytes. -/
def Malformation.text : Malformation → String
  | partialBlock => "ciphertext is not a multiple of the block size"
  | noBlock => "ciphertext is empty"
  | paddingLength => "invalid PKCS#7 padding length"
  | paddingBytes => "invalid PKCS#7 padding bytes"
  | shortSealed => "ciphertext shorter than the authentication tag"
  | shortChunk => "secretstream chunk shorter than its overhead"
  | unknownTag => "unknown secretstream tag"

/-- The name of the mode in messages. -/
def BlockMode.text : BlockMode → String
  | cbc => "CBC"
  | ctr => "CTR"

/-- The rule that was broken. -/
def Misuse.text : Misuse → String
  | blockSpent => "AES block state already transformed"
  | wrongDirection mode => mode.text ++ " session built for the other direction"
  | finalized mode => mode.text ++ " session already finalized"

/-- The wording of an error: its kind, then its cause. -/
def Error.message : Error → String
  | invalidParameter cause => "invalid parameter: " ++ cause.text
  | malformed cause => "malformed input: " ++ cause.text
  | authenticationFailure => "authentication failed"
  | misuse cause => "misuse: " ++ cause.text
  | outOfMemory blocks => "unable to allocate " ++ toString blocks ++ " memory blocks"

end SymmetricCrypto
