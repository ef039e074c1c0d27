import SymmetricCrypto.Argon2.Fill
import SymmetricCrypto.Digest.Stretch
import SymmetricCrypto.Random.Generator

/-!
# Deriving a tag from a password

A digest of all inputs, each with its length before it (`initialInput`), gives the first two blocks of
every lane. The memory is filled, the last blocks of all lanes are summed, and a digest of the sum is
the tag.

The memory has to be available: a derivation for which it is not gives up before any work.
-/

namespace SymmetricCrypto.Argon2

/-- The version of the algorithm, 1.3. -/
def version : UInt32 := 0x13

/-- The number of bytes of a random salt. -/
def randomSaltLength : Nat := 64

/-- A byte string after its length in 32 bits, if the length fits. -/
def lengthPrefixed (data : Bytes) : Except Error Bytes :=
  if data.length < UInt32.size then .ok (LittleEndian.encode 4 data.length ++ data)
  else .error (.invalidParameter .longInput)

/-- The fixed part of the input of the initial digest. The memory is the requested one, before it is
rounded. -/
def header (p : Params) : Bytes :=
  LittleEndian.wordBytes p.lanes ++ LittleEndian.encode 4 p.tagLength ++
    LittleEndian.wordBytes p.memory ++ LittleEndian.wordBytes p.passes ++
    LittleEndian.wordBytes version ++ LittleEndian.wordBytes p.variant.id

/-- The input of the initial digest. -/
def initialInput (p : Params) (password salt : Bytes) : Except Error Bytes :=
  if UInt32.size ≤ p.tagLength then .error (.invalidParameter .longTag)
  else do
    let password ← lengthPrefixed password
    let salt ← lengthPrefixed salt
    let secret ← lengthPrefixed p.secretBytes
    let associated ← lengthPrefixed p.associatedBytes
    return header p ++ password ++ salt ++ secret ++ associated

/-- The first block of a lane, or its second one. -/
def givenBlock (digest : Vector UInt8 64) (lane column : UInt32) : Block :=
  Block.ofBytes <| Stretch.digest 1024 (by decide)
    (digest.toList ++ LittleEndian.wordBytes column ++ LittleEndian.wordBytes lane)

/-- The memory before the first pass: zero but for the two first blocks of each lane. -/
def initialMemory (f : Plan) (digest : Vector UInt8 64) : Memory :=
  f.laneList.foldl
    (fun m lane =>
      (m.setIfInBounds (f.layout.index lane 0) (givenBlock digest lane 0)).setIfInBounds
        (f.layout.index lane 1) (givenBlock digest lane 1))
    (Array.replicate f.layout.total.toNat Block.zero)

/-- The sum of the last blocks of all lanes. -/
def lastColumn (f : Plan) (m : Memory) : Block :=
  f.laneList.foldl
    (fun sum lane =>
      sum.xor (m.getD (f.layout.index lane (f.layout.laneLength - 1)) Block.zero))
    Block.zero

namespace Hasher

/-- The parameters of a hasher ask for a tag of at least one byte. -/
theorem one_le_tagLength (a : Hasher) : 1 ≤ a.params.tagLength := by
  have := (a.params.fault?_eq_none_iff.mp a.sound).2.2.2.1.1
  unfold minTagLength at this
  omega

/-- What the parameters of a hasher fill, and how. -/
def plan (a : Hasher) : Plan :=
  ⟨Layout.ofParams a.params, a.params.passes, a.params.variant⟩

/-- The tag of a password and a salt, with memory for `available` blocks. -/
def derive (a : Hasher) (available : Nat) (password salt : Bytes) : Except Error Bytes :=
  if salt.length < minSaltLength then .error (.invalidParameter .shortSalt)
  else if available < a.plan.layout.total.toNat then
    .error (.outOfMemory a.plan.layout.total.toNat)
  else do
    let input ← initialInput a.params password salt
    let memory := a.plan.fill (initialMemory a.plan (Blake2b.digest64 input))
    return Stretch.digest a.params.tagLength a.one_le_tagLength
      (lastColumn a.plan memory).toBytes

end Hasher

/-- A tag with the random salt that it was derived under. -/
structure Derived where
  /-- The derived bytes. -/
  tag : Bytes
  /-- The salt that was drawn. -/
  salt : Bytes
  deriving DecidableEq

namespace Derived

/-- A text for logs, which shows no byte of the tag. -/
def redacted (d : Derived) : String :=
  "ArgonOutput \x7b tag: \"<redacted>\", salt_len: " ++ toString d.salt.length ++ " \x7d"

end Derived

/-- The tag of a password under a random salt. The salt is drawn first. -/
def Hasher.deriveRandom (a : Hasher) (available : Nat) (password : Bytes) (g : Random.Generator) :
    Except Error Derived × Random.Generator :=
  let (salt, g) := g.bytes randomSaltLength
  ((a.derive available password salt).map fun tag => ⟨tag, salt⟩, g)

/-- The tag of a password and a salt under parameters that are checked first. -/
def derive (available : Nat) (p : Params) (password salt : Bytes) : Except Error Bytes := do
  (← Hasher.ofParams p).derive available password salt

/-- The tag of a password under a random salt and parameters that are checked before it is drawn. -/
def deriveRandom (available : Nat) (p : Params) (password : Bytes) (g : Random.Generator) :
    Except Error Derived × Random.Generator :=
  match Hasher.ofParams p with
  | .error e => (.error e, g)
  | .ok a => a.deriveRandom available password g

end SymmetricCrypto.Argon2
