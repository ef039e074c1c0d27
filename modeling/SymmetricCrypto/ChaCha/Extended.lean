import SymmetricCrypto.ChaCha.Stream

/-!
# XChaCha20

A nonce of 192 bits: the first 16 bytes turn the key into a subkey, and the other 8 are the last two
words of the state. The two words before them are a block counter of 64 bits, whose low word carries
into the high one.

A session keeps the keystream bytes that it has not used, so that the output does not depend on how
the data is cut into calls.
-/

namespace SymmetricCrypto.ChaCha

/-- A nonce of 192 bits. -/
abbrev ExtendedNonce := Vector UInt8 24

namespace ExtendedNonce

/-- The part of the nonce that goes into the subkey. -/
def hashed (nonce : ExtendedNonce) : Vector UInt8 16 := leading 16 8 nonce

/-- The part of the nonce that stays in the state. -/
def rest (nonce : ExtendedNonce) : Vector UInt8 8 := trailing 16 8 nonce

end ExtendedNonce

/-- The state of the next block: the 64-bit counter in words 12 and 13 goes up by one. -/
def State.next (s : State) : State :=
  let low := s.getD 12 0 + 1
  let counted := s.setIfInBounds 12 low
  if low = 0 then counted.setIfInBounds 13 (s.getD 13 0 + 1) else counted

/-- A stream in progress. -/
structure Session where
  /-- The state of the next block. -/
  state : State
  /-- The keystream bytes of the last block that are not used yet. -/
  unused : Bytes
  /-- The number of bytes that went through. -/
  processed : UInt64

namespace Session

/-- A stream that starts at a block counter. -/
def start (key : Key) (nonce : ExtendedNonce) (counter : UInt32) : Session where
  state := State.keyed (subkey key nonce.hashed) (#v[counter, 0] ++ LittleEndian.words 2 nonce.rest)
  unused := []
  processed := 0

/-- Sums data with the unused bytes and then with the blocks of the state on. A block is made only
when a byte of it is needed. -/
def run (state : State) (unused data : Bytes) : Bytes × State × Bytes :=
  if _h : data.drop unused.length = [] then
    (Bytes.xor data unused, state, unused.drop data.length)
  else
    let (out, rest) := run state.next state.keystream.toList (data.drop unused.length)
    (Bytes.xor data unused ++ out, rest)
termination_by data.length - unused.length
decreasing_by
  rw [List.drop_eq_nil_iff] at _h
  simp only [List.length_drop, Vector.length_toList]
  omega

/-- The data summed with the next bytes of the keystream, and the session after it. -/
def apply (s : Session) (data : Bytes) : Bytes × Session :=
  let (out, state, unused) := run s.state s.unused data
  (out, ⟨state, unused, s.processed + UInt64.ofNat data.length⟩)

/-- The session without its key: all words of the state are zero, and nothing was processed. -/
def wipe (_ : Session) : Session := ⟨Vector.replicate 16 0, [], 0⟩

end Session

/-- The data summed with the keystream of a nonce from a block counter on. -/
def xorExtended (key : Key) (nonce : ExtendedNonce) (counter : UInt32) (data : Bytes) : Bytes :=
  ((Session.start key nonce counter).apply data).1

end SymmetricCrypto.ChaCha
