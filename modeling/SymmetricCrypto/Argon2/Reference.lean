import SymmetricCrypto.Argon2.Block
import SymmetricCrypto.Argon2.Layout

/-!
# The choice of the block to mix in

Each new block mixes the block before it with an earlier one, the reference block, which a word of 64
bits chooses: its high half chooses the lane, and its low half a column in the window of blocks of that
lane that are finished (`choose`). The word is the first one of the block before, or it comes from
address blocks that depend on the position alone (`AddressStream`).
-/

namespace SymmetricCrypto.Argon2

/-- Whether the choices in a segment depend on the position alone. -/
def Variant.independent (v : Variant) (p : Position) : Bool :=
  match v with
  | argon2d => false
  | argon2i => true
  | argon2id => p.pass = 0 ∧ p.slice < 2

/-- The number of finished blocks that may be chosen in a lane, for the block at `index` of a segment.
In the own lane they go up to the block before the previous one. In another lane they end with its last
finished segment, less its last block for the first block of a segment. -/
def windowSize (l : Layout) (p : Position) (index : UInt32) (own : Bool) : UInt32 :=
  let finished := if p.pass = 0 then p.base l else l.laneLength - l.segmentLength
  if own then finished + index - 1 else finished - (if index = 0 then 1 else 0)

/-- The column of the oldest block that may be chosen. -/
def windowStart (l : Layout) (p : Position) : UInt32 :=
  if p.pass = 0 ∨ p.slice = 3 then 0 else (p.slice + 1) * l.segmentLength

/-- The distance from the oldest block of a window of `size` blocks. Small choices are near the newest
block, and the square makes them more likely. -/
def distance (size choice : UInt64) : UInt64 :=
  let square : UInt64 := (choice * choice) >>> 32
  let back : UInt64 := (size * square) >>> 32
  size - 1 - back

/-- The lane and the column that a word chooses, for the block at `index` of a segment. -/
def choose (l : Layout) (p : Position) (index : UInt32) (word : UInt64) : UInt32 × UInt32 :=
  let lane := if p.pass = 0 ∧ p.slice = 0 then p.lane else (word >>> 32).toUInt32 % l.lanes
  let size := windowSize l p index (lane = p.lane)
  let column :=
    ((windowStart l p).toUInt64 + distance size.toUInt64 (word &&& 0xffffffff)) %
      l.laneLength.toUInt64
  (lane, column.toUInt32)

/-- The source of words that depend on the position alone. An address block gives 128 of them. -/
structure AddressStream where
  /-- What all address blocks of the segment are made from. -/
  origin : Vector UInt64 6
  /-- The number of address blocks so far. -/
  counter : UInt64
  /-- The last address block. -/
  addresses : Option Block

namespace AddressStream

/-- The stream of a segment before its first address block. -/
def start (l : Layout) (p : Position) (passes : UInt32) (v : Variant) : AddressStream where
  origin :=
    #v[p.pass.toUInt64, p.lane.toUInt64, p.slice.toUInt64, l.total.toUInt64, passes.toUInt64,
      v.id.toUInt64]
  counter := 0
  addresses := none

/-- The address block at a counter: the origin, the counter and zeros, mixed twice with zeros. -/
def addressBlock (origin : Vector UInt64 6) (counter : UInt64) : Block :=
  let input : Block := origin ++ #v[counter] ++ Vector.replicate 121 (0 : UInt64)
  Block.zero.mix (Block.zero.mix input)

/-- The next address block, and the stream after it. -/
def refill (s : AddressStream) : Block × AddressStream :=
  let counter := s.counter + 1
  let addresses := addressBlock s.origin counter
  (addresses, ⟨s.origin, counter, some addresses⟩)

/-- The word for the block at `index`: a new address block is made for the first word and whenever the
index begins another 128. -/
def next (s : AddressStream) (index : UInt32) : UInt64 × AddressStream :=
  let slot := index.toNat % 128
  let (addresses, s) :=
    match s.addresses with
    | some addresses => if slot = 0 then s.refill else (addresses, s)
    | none => s.refill
  (addresses.getD slot 0, s)

end AddressStream

end SymmetricCrypto.Argon2
