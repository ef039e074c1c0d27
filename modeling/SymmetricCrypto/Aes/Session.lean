import SymmetricCrypto.Aes.Cipher
import SymmetricCrypto.Bytes.Chunker
import SymmetricCrypto.Random.Generator

/-!
# Sessions of a mode of operation

A session takes data in pieces, transforms each block as soon as it is complete, and keeps the output
until it is finalized. A mode says what a block becomes and what it leaves in the register for the next
one. The protocol is the same for all modes: a session has a direction, only the finalizer of that
direction is allowed, and only once, and no data is taken after it.

A call that the protocol refuses changes nothing. A block that cannot be transformed ends the call:
what the blocks before it became stays, and the chunker keeps what it keeps after a refusal.
`Session.wipe` makes a session without key, data and output, in the same direction and not finalized.
-/

namespace SymmetricCrypto.Aes

/-- The two directions of a session. -/
inductive Direction
  /-- From plaintext to ciphertext. -/
  | encrypting
  /-- From ciphertext to plaintext. -/
  | decrypting
  deriving DecidableEq

/-- How a mode of operation goes from block to block. -/
structure Mode (ρ : Type) where
  /-- The name in messages. -/
  name : BlockMode
  /-- The register before the first block. -/
  start : Block → ρ
  /-- What becomes of a block, and the register after it. -/
  step : Schedule → Direction → ρ → Block → Except Error (Block × ρ)

/-- A mode of operation at work. -/
structure Session (ρ : Type) where
  /-- The round keys. -/
  schedule : Schedule
  /-- What the session was opened for. -/
  direction : Direction
  /-- The block that the register started from. -/
  initial : Block
  /-- What the mode keeps from block to block. -/
  register : ρ
  /-- The bytes of the block that is not complete. -/
  pending : Chunker 16
  /-- What the complete blocks became. -/
  output : Array UInt8
  /-- Whether the session was finalized. -/
  finished : Bool

/-- A ciphertext with the block that decryption starts from. -/
structure Sealed where
  /-- The encrypted message. -/
  ciphertext : Bytes
  /-- The initial block that it was encrypted under. -/
  initial : Block
  deriving DecidableEq

namespace Session

variable {ρ : Type}

/-- A session before its first byte. -/
def start (mode : Mode ρ) (key : Key) (direction : Direction) (initial : Block) : Session ρ where
  schedule := Schedule.ofKey key
  direction := direction
  initial := initial
  register := mode.start initial
  pending := Chunker.empty 16
  output := #[]
  finished := false

/-- An encrypting session from a random block. -/
def startRandom (mode : Mode ρ) (key : Key) (g : Random.Generator) :
    Session ρ × Random.Generator :=
  let (initial, g) := g.vector 16
  (start mode key .encrypting initial, g)

/-- Transforms a complete block. An error comes with the register and the output before the block. -/
def advance (mode : Mode ρ) (k : Schedule) (d : Direction) :
    ρ × Array UInt8 → Block → Except (Error × ρ × Array UInt8) (ρ × Array UInt8)
  | (register, output), block =>
    match mode.step k d register block with
    | .error e => .error (e, register, output)
    | .ok (out, register) => .ok (register, output ++ out.toArray)

/-- Takes more data, unless the session is finalized. -/
def add (mode : Mode ρ) (s : Session ρ) (data : Bytes) : Except Error Unit × Session ρ :=
  if s.finished then (.error (.misuse (.finalized mode.name)), s)
  else
    match s.pending.absorb (advance mode s.schedule s.direction) (s.register, s.output) data with
    | (.error (e, register, output), pending) => (.error e, { s with register, output, pending })
    | (.ok (register, output), pending) => (.ok (), { s with register, output, pending })

/-- Takes a whole message and finalizes. -/
def complete {α : Type} (mode : Mode ρ) (s : Session ρ) (message : Bytes)
    (finalize : Session ρ → Except Error α × Session ρ) : Except Error α :=
  match s.add mode message with
  | (.error e, _) => .error e
  | (.ok (), s) => (finalize s).1

/-- Why the finalizer of a direction is not allowed now, if so. A wrong direction comes first. -/
def refusal (mode : Mode ρ) (s : Session ρ) (d : Direction) : Option Misuse :=
  if s.direction ≠ d then some (.wrongDirection mode.name)
  else if s.finished then some (.finalized mode.name)
  else none

/-- The session after its finalizer, which took the output. -/
def finish (s : Session ρ) (register : ρ) : Session ρ :=
  { s with register, pending := Chunker.empty 16, output := #[], finished := true }

/-- The session without its key, data and output. -/
def wipe (mode : Mode ρ) (s : Session ρ) : Session ρ where
  schedule := Schedule.wiped
  direction := s.direction
  initial := Block.zero
  register := mode.start Block.zero
  pending := Chunker.empty 16
  output := #[]
  finished := false

end Session

end SymmetricCrypto.Aes
