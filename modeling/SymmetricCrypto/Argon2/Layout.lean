import SymmetricCrypto.Argon2.Params

/-!
# The layout of the Argon2 memory

The memory is a matrix with a row for each lane, stored lane after lane. Each lane is cut into four
slices; the part of a lane in a slice is a segment. The requested memory is rounded down so that all
segments have the same length.
-/

namespace SymmetricCrypto.Argon2

/-- The number of slices. -/
def slices : UInt32 := 4

/-- The dimensions of the memory, in blocks. -/
structure Layout where
  /-- The number of lanes. -/
  lanes : UInt32
  /-- The blocks of a lane. -/
  laneLength : UInt32
  /-- The blocks of a lane in one slice. -/
  segmentLength : UInt32
  /-- The blocks of all lanes. -/
  total : UInt32
  deriving DecidableEq

namespace Layout

/-- The layout of a memory with a number of lanes: a whole number of blocks for each segment, and at
least two. -/
def ofMemory (memory lanes : UInt32) : Layout :=
  let quantum := slices * lanes
  let total := max memory (2 * quantum) / quantum * quantum
  { lanes
    laneLength := total / lanes
    segmentLength := total / lanes / slices
    total }

/-- The layout for the parameters. -/
def ofParams (p : Params) : Layout := ofMemory p.memory p.lanes

/-- The place of a block in the memory. -/
def index (l : Layout) (lane column : UInt32) : Nat :=
  lane.toNat * l.laneLength.toNat + column.toNat

end Layout

/-- The segment that is being filled. -/
structure Position where
  /-- The passes that are complete. -/
  pass : UInt32
  /-- The lane of the segment. -/
  lane : UInt32
  /-- The slice of the segment. -/
  slice : UInt32
  deriving DecidableEq

namespace Position

/-- The column in which the segment starts. -/
def base (p : Position) (l : Layout) : UInt32 := p.slice * l.segmentLength

/-- The first block of the segment that is filled. The first two blocks of each lane are given. -/
def first (p : Position) : UInt32 := if p.pass = 0 ∧ p.slice = 0 then 2 else 0

end Position

end SymmetricCrypto.Argon2
