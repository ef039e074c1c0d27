import SymmetricCrypto.ChaCha.Block

/-!
# A random generator that forgets

The generator expands a seed of 256 bits with ChaCha20 blocks under the zero nonce. A request takes
one block for each started 64 bytes, and the first half of the block after them becomes the new key,
so the state after a request does not show what was given out. A request of no bytes changes the key
too. The block counter goes on through all requests, with 32 bits, and wraps.
-/

namespace SymmetricCrypto.Random

open ChaCha

/-- The key and the counter of the next block. -/
structure Generator where
  /-- The key, which each request replaces. -/
  key : Key
  /-- The number of the next block. -/
  counter : UInt32
  deriving DecidableEq

namespace Generator

/-- The generator of a seed. -/
def ofSeed (seed : Key) : Generator := ⟨seed, 0⟩

/-- The block that is `k` after the next one. -/
def ahead (g : Generator) (k : Nat) : Vector UInt8 64 :=
  block g.key (g.counter + UInt32.ofNat k) (Vector.replicate 12 0)

/-- The number of blocks that a request of `n` bytes starts. -/
def blocksFor (n : Nat) : Nat := (n + 63) / 64

/-- The generator after a request that has used `k` blocks. -/
def rekeyed (g : Generator) (k : Nat) : Generator :=
  ⟨leading 32 32 (g.ahead k), g.counter + UInt32.ofNat (k + 1)⟩

/-- The next `n` bytes, and the generator after them. -/
def bytes (g : Generator) (n : Nat) : Bytes × Generator :=
  (((List.range (blocksFor n)).flatMap fun k => (g.ahead k).toList).take n, g.rekeyed (blocksFor n))

/-- As many bytes as are asked for. -/
@[simp] theorem length_bytes (g : Generator) (n : Nat) : (g.bytes n).1.length = n := by
  simp only [bytes, blocksFor, List.length_take, List.length_flatMap, Vector.length_toList,
    List.map_const', List.sum_replicate_nat, List.length_range]
  omega

/-- The next `n` bytes for a caller who is ready for a failure. There is none. -/
def tryBytes {ε : Type} (g : Generator) (n : Nat) : Except ε Bytes × Generator :=
  let (data, g) := g.bytes n
  (.ok data, g)

/-- The next `n` bytes as a vector, and the generator after them. -/
def vector (g : Generator) (n : Nat) : Vector UInt8 n × Generator :=
  let drawn := g.bytes n
  (⟨drawn.1.toArray, by simp [drawn]⟩, drawn.2)

/-- The next four bytes as a little-endian word, and the generator after them. -/
def word32 (g : Generator) : UInt32 × Generator :=
  let (bytes, g) := g.bytes 4
  (UInt32.ofNat (LittleEndian.decode bytes), g)

/-- The next eight bytes as a little-endian word, and the generator after them. -/
def word64 (g : Generator) : UInt64 × Generator :=
  let (bytes, g) := g.bytes 8
  (UInt64.ofNat (LittleEndian.decode bytes), g)

/-- The generator without its key, the same as that of the zero seed. -/
def wipe (_ : Generator) : Generator := ofSeed (Vector.replicate 32 0)

end Generator

end SymmetricCrypto.Random
