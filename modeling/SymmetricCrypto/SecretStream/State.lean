import SymmetricCrypto.Aead
import SymmetricCrypto.Random.Generator
import SymmetricCrypto.SecretStream.Tag

/-!
# The state of an authenticated stream

Both ends of a stream hold a key, a chunk counter and an inner nonce of 8 bytes. A header of 24 bytes
starts them: its first 16 bytes go into the key by HChaCha20, the others are the inner nonce, and the
counter starts at one. The nonce of a chunk is the counter followed by the inner nonce.

After a chunk the first 8 bytes of its authenticator are summed into the inner nonce and the counter
goes up (`State.advance`). The key and the inner nonce change, and the counter starts again, on request
(`State.rekey`), after a tag that asks for it, and when the counter has gone around to zero.
-/

namespace SymmetricCrypto.SecretStream

/-- The header that starts a stream. -/
abbrev Header := Vector UInt8 24

/-- What one end of a stream holds. -/
structure State where
  /-- The key of all blocks until the next change of it. -/
  key : ChaCha.Key
  /-- The number of the next chunk, 1 after each change of the key. -/
  counter : UInt32
  /-- The rest of the nonce, which each chunk moves on by its authenticator. -/
  inner : Vector UInt8 8
  deriving DecidableEq

namespace State

/-- The state at the start of a stream. -/
def ofHeader (key : ChaCha.Key) (header : Header) : State where
  key := ChaCha.subkey key (leading 16 8 header)
  counter := 1
  inner := trailing 16 8 header

/-- The nonce of the next chunk. -/
def nonce (s : State) : ChaCha.Nonce := LittleEndian.ofWords #v[s.counter] ++ s.inner

/-- New key and inner nonce, summed with the first bytes of block 0, and the counter back at one. -/
def rekey (s : State) : State :=
  let fresh : Vector UInt8 40 := ChaCha.xorVector s.key s.nonce 0 (s.key ++ s.inner)
  ⟨leading 32 8 fresh, 1, trailing 32 8 fresh⟩

/-- The state after a chunk with this authenticator and tag byte. -/
def advance (s : State) (mac : Poly1305.Tag) (tagByte : UInt8) : State :=
  let moved : State :=
    ⟨s.key, s.counter + 1, Vector.zipWith (· ^^^ ·) s.inner (leading 8 8 mac)⟩
  if Tag.forcesRekey tagByte || moved.counter == 0 then moved.rekey else moved

/-- The state without its key: everything is zero. -/
def wipe (_ : State) : State := ⟨Vector.replicate 32 0, 0, Vector.replicate 8 0⟩

end State

/-- A random stream key. -/
def newKey (g : Random.Generator) : ChaCha.Key × Random.Generator := g.vector 32

/-- A stream under a random header: the header, the state of the sender, and the generator. -/
def startSending (key : ChaCha.Key) (g : Random.Generator) : (Header × State) × Random.Generator :=
  let (header, g) := g.vector 24
  ((header, State.ofHeader key header), g)

end SymmetricCrypto.SecretStream
