import SymmetricCrypto.Argon2.Reference

/-!
# Filling the Argon2 memory

Each pass fills the four slices in order. In a slice every lane fills its segment on its own, from the
memory as it was when the slice began and from its own new blocks; the segments are stored when all
lanes are done. So the lanes of a slice may be filled in any order.

A new block is the mix of the block before it, around the lane, with its reference block. From the
second pass on it is summed with the block that it replaces.
-/

namespace SymmetricCrypto.Argon2

/-- The blocks of all lanes, lane after lane. -/
abbrev Memory := Array Block

/-- What is filled, and how. -/
structure Plan where
  /-- The dimensions of the memory. -/
  layout : Layout
  /-- The number of passes over the memory. -/
  passes : UInt32
  /-- The way in which references are chosen. -/
  variant : Variant

/-- A segment in progress. -/
structure Progress where
  /-- The new blocks of the segment. -/
  written : Array Block
  /-- The source of choices, unless the memory makes them. -/
  addresses : Option AddressStream

namespace Plan

/-- The segment before its first new block. -/
def begin (f : Plan) (p : Position) : Progress where
  written := #[]
  addresses :=
    if f.variant.independent p then some (.start f.layout p f.passes f.variant) else none

/-- The block in a lane and column: a new one of the segment, or one of the memory. -/
def read (f : Plan) (m : Memory) (p : Position) (written : Array Block) (lane column : UInt32) :
    Block :=
  let start := p.base f.layout + p.first
  if lane = p.lane ∧ start ≤ column ∧ (column - start).toNat < written.size then
    written.getD (column - start).toNat Block.zero
  else m.getD (f.layout.index lane column) Block.zero

/-- The block before the one at `index` of the segment. -/
def previous (f : Plan) (m : Memory) (p : Position) (s : Progress) (index : UInt32) : Block :=
  let column := p.base f.layout + index
  f.read m p s.written p.lane (if column = 0 then f.layout.laneLength - 1 else column - 1)

/-- The reference position for the block at `index` of the segment, and the source after it. -/
def reference (f : Plan) (m : Memory) (p : Position) (s : Progress) (index : UInt32) :
    (UInt32 × UInt32) × Option AddressStream :=
  match s.addresses with
  | some stream =>
    let (word, stream) := stream.next index
    (choose f.layout p index word, some stream)
  | none => (choose f.layout p index ((f.previous m p s index).getD 0 0), none)

/-- Writes the block at `index` of the segment. -/
def write (f : Plan) (m : Memory) (p : Position) (s : Progress) (index : UInt32) : Progress :=
  let ((lane, column), addresses) := f.reference m p s index
  let mixed := (f.previous m p s index).mix (f.read m p s.written lane column)
  let old := m.getD (f.layout.index p.lane (p.base f.layout + index)) Block.zero
  ⟨s.written.push (if p.pass = 0 then mixed else mixed.xor old), addresses⟩

/-- The indices of the blocks of the segment that are filled, in order. -/
def indices (f : Plan) (p : Position) : List UInt32 :=
  (List.range' p.first.toNat (f.layout.segmentLength.toNat - p.first.toNat)).map UInt32.ofNat

/-- The new blocks of the segment. -/
def segment (f : Plan) (m : Memory) (p : Position) : Array Block :=
  ((f.indices p).foldl (f.write m p) (f.begin p)).written

/-- The memory with the new blocks of a segment stored. -/
def store (f : Plan) (m : Memory) (p : Position) (blocks : Array Block) : Memory :=
  ((f.indices p).zip blocks.toList).foldl
    (fun m (index, block) =>
      m.setIfInBounds (f.layout.index p.lane (p.base f.layout + index)) block) m

/-- The lanes, in the order in which their segments are stored. -/
def laneList (f : Plan) : List UInt32 := (List.range f.layout.lanes.toNat).map UInt32.ofNat

/-- The memory after a slice. -/
def fillSlice (f : Plan) (m : Memory) (pass slice : UInt32) : Memory :=
  let segments := f.laneList.map fun lane =>
    let p : Position := ⟨pass, lane, slice⟩
    (p, f.segment m p)
  segments.foldl (fun m (p, blocks) => f.store m p blocks) m

/-- The memory after a pass. -/
def fillPass (f : Plan) (m : Memory) (pass : UInt32) : Memory :=
  [0, 1, 2, 3].foldl (fun m slice => f.fillSlice m pass slice) m

/-- The memory after all passes. -/
def fill (f : Plan) (m : Memory) : Memory :=
  (List.range f.passes.toNat).foldl (fun m pass => f.fillPass m (UInt32.ofNat pass)) m

end Plan

end SymmetricCrypto.Argon2
