import Mathlib
import SymmetricCrypto.Proofs.Argon2.Segment
import SymmetricCrypto.Proofs.Traced

/-!
# What the accesses to the memory depend on

The time of a memory access can tell where it went. This module runs the fill with a record of its
accesses: where each block is read and written, and which reference position is chosen. A block is
taken by `fetch`, so that what is recorded is where it came from. Forgetting the record gives the
fill back (`value_fillTraced`), and the positions in the record of a segment are those that the fill
chooses (`positions_segmentTraced`).

Where choices come from address blocks, two runs over any two memories leave the same record. The
invariant is `Progress.Alike`: both runs have the same source of choices, which is not the memory,
and equally many new blocks. A write keeps it and leaves the same accesses (`agree_writeTraced`),
since the blocks go into nothing but new blocks.
-/

namespace SymmetricCrypto.Argon2

/-- Where a block is: in the memory, or among the new blocks of a segment in progress. -/
inductive Location
  /-- At a place of the memory. -/
  | memory (place : ℕ)
  /-- Among the new blocks. -/
  | new (offset : ℕ)
  deriving DecidableEq

/-- What is recorded of a fill. -/
inductive Access
  /-- A reference position was chosen. -/
  | chose (lane column : UInt32)
  /-- A block was read. -/
  | read (location : Location)
  /-- A block was written. -/
  | wrote (location : Location)
  deriving DecidableEq

/-- The block at a location. -/
def blockAt (m : Memory) (written : Array Block) : Location → Block
  | .memory place => m.getD place Block.zero
  | .new offset => written.getD offset Block.zero

/-- The block at a location, recorded. -/
def fetch (m : Memory) (written : Array Block) (location : Location) : Traced Access Block :=
  ⟨blockAt m written location, [.read location]⟩

/-- The reference position that an access has chosen. -/
def Access.position? : Access → Option (UInt32 × UInt32)
  | chose lane column => some (lane, column)
  | read _ | wrote _ => none

/-- The reference positions that were chosen, in order. -/
def positions (accesses : List Access) : List (UInt32 × UInt32) :=
  accesses.filterMap Access.position?

/-- The positions of two records, one after the other. -/
theorem positions_append (a b : List Access) : positions (a ++ b) = positions a ++ positions b :=
  List.filterMap_append

namespace Progress

/-- Segments in progress that differ in their blocks only: they have the same source of choices,
which is not the memory, and equally many new blocks. -/
structure Alike (s t : Progress) : Prop where
  /-- The source of choices is the same. -/
  addresses_eq : s.addresses = t.addresses
  /-- The choices come from address blocks. -/
  isSome_addresses : s.addresses.isSome
  /-- There are equally many new blocks. -/
  size_eq : s.written.size = t.written.size

/-- Segments that are alike have the same words, whatever the blocks before are. -/
theorem Alike.word {s t : Progress} (h : s.Alike t) (previous previous' : Block)
    (index : UInt32) :
    s.word previous index = t.word previous' index ∧ (t.word previous' index).2.isSome := by
  obtain ⟨stream, hs⟩ := Option.isSome_iff_exists.mp h.isSome_addresses
  have ht : t.addresses = some stream := h.addresses_eq ▸ hs
  unfold Progress.word
  rw [hs, ht]
  exact ⟨rfl, rfl⟩

end Progress

namespace Plan

/-- Where `read` finds a block. -/
def locate (f : Plan) (p : Position) (written : ℕ) (lane column : UInt32) : Location :=
  let start := p.base f.layout + p.first
  if lane = p.lane ∧ start ≤ column ∧ (column - start).toNat < written then
    .new (column - start).toNat
  else .memory (f.layout.index lane column)

/-- `read` with a record. -/
def readTraced (f : Plan) (m : Memory) (p : Position) (written : Array Block)
    (lane column : UInt32) : Traced Access Block :=
  fetch m written (f.locate p written.size lane column)

/-- A mix for the block in a column of the segment, summed with the block that it replaces from the
second pass on, with a record. -/
def replaceTraced (f : Plan) (m : Memory) (p : Position) (written : Array Block) (column : UInt32)
    (mixed : Block) : Traced Access Block :=
  if p.pass = 0 then pure mixed
  else do
    let old ← fetch m written (.memory (f.layout.index p.lane column))
    return mixed.xor old

/-- `write` with a record. -/
def writeTraced (f : Plan) (m : Memory) (p : Position) (s : Progress) (index : UInt32) :
    Traced Access Progress := do
  let column := p.base f.layout + index
  let previous ← f.readTraced m p s.written p.lane
    (if column = 0 then f.layout.laneLength - 1 else column - 1)
  let word := s.word previous index
  let chosen := choose f.layout p index word.1
  Traced.note (.chose chosen.1 chosen.2)
  let reference ← f.readTraced m p s.written chosen.1 chosen.2
  let block ← f.replaceTraced m p s.written column (previous.mix reference)
  Traced.note (.wrote (.new s.written.size))
  return ⟨s.written.push block, word.2⟩

/-- `segment` with a record. -/
def segmentTraced (f : Plan) (m : Memory) (p : Position) : Traced Access (Array Block) := do
  let s ← (f.indices p).foldlM (f.writeTraced m p) (f.begin p)
  return s.written

/-- `store` with a record. -/
def storeTraced (f : Plan) (m : Memory) (p : Position) (blocks : Array Block) :
    Traced Access Memory :=
  ((f.indices p).zip blocks.toList).foldlM
    (fun m (index, block) => do
      let place := f.layout.index p.lane (p.base f.layout + index)
      Traced.note (.wrote (.memory place))
      return m.setIfInBounds place block) m

/-- `fillSlice` with a record. -/
def fillSliceTraced (f : Plan) (m : Memory) (pass slice : UInt32) : Traced Access Memory := do
  let segments ← f.laneList.mapM fun lane => do
    let p : Position := ⟨pass, lane, slice⟩
    let blocks ← f.segmentTraced m p
    return (p, blocks)
  segments.foldlM (fun m (p, blocks) => f.storeTraced m p blocks) m

/-- `fillPass` with a record. -/
def fillPassTraced (f : Plan) (m : Memory) (pass : UInt32) : Traced Access Memory :=
  [0, 1, 2, 3].foldlM (fun m slice => f.fillSliceTraced m pass slice) m

/-- `fill` with a record. -/
def fillTraced (f : Plan) (m : Memory) : Traced Access Memory :=
  (List.range f.passes.toNat).foldlM (fun m pass => f.fillPassTraced m (UInt32.ofNat pass)) m

/-! ## The record aside -/

/-- The record aside, a traced read is the read. -/
@[simp] theorem value_readTraced (f : Plan) (m : Memory) (p : Position) (written : Array Block)
    (lane column : UInt32) :
    (f.readTraced m p written lane column).value = f.read m p written lane column := by
  unfold readTraced fetch locate read
  dsimp only
  split <;> rfl

/-- The record aside, the mix is summed with the old block from the second pass on. -/
@[simp] theorem value_replaceTraced (f : Plan) (m : Memory) (p : Position) (written : Array Block)
    (column : UInt32) (mixed : Block) :
    (f.replaceTraced m p written column mixed).value =
      if p.pass = 0 then mixed
      else mixed.xor (m.getD (f.layout.index p.lane column) Block.zero) := by
  unfold replaceTraced
  split <;> rfl

/-- The record aside, a traced write is the write. -/
@[simp] theorem value_writeTraced (f : Plan) (m : Memory) (p : Position) (s : Progress)
    (index : UInt32) : (f.writeTraced m p s index).value = f.write m p s index := by
  unfold writeTraced
  rw [write_eq_word]
  simp only [Traced.value_bind, Traced.value_pure, value_readTraced, value_replaceTraced]
  rfl

/-- The record aside, a traced segment is the segment. -/
@[simp] theorem value_segmentTraced (f : Plan) (m : Memory) (p : Position) :
    (f.segmentTraced m p).value = f.segment m p := by
  unfold segmentTraced segment
  rw [Traced.value_bind, Traced.value_pure, Traced.value_foldlM (f.value_writeTraced m p)]

/-- The record aside, a traced segment with its position is the segment with its position. -/
theorem value_position_segmentTraced (f : Plan) (m : Memory) (p : Position) :
    (do
      let blocks ← f.segmentTraced m p
      return (p, blocks) : Traced Access (Position × Array Block)).value = (p, f.segment m p) := by
  rw [Traced.value_bind, Traced.value_pure, value_segmentTraced]

/-- The record aside, the blocks are stored. -/
@[simp] theorem value_storeTraced (f : Plan) (m : Memory) (p : Position) (blocks : Array Block) :
    (f.storeTraced m p blocks).value = f.store m p blocks :=
  Traced.value_foldlM (fun _ _ => rfl) _ m

/-- The record aside, a traced slice is the slice. -/
@[simp] theorem value_fillSliceTraced (f : Plan) (m : Memory) (pass slice : UInt32) :
    (f.fillSliceTraced m pass slice).value = f.fillSlice m pass slice := by
  unfold fillSliceTraced fillSlice
  rw [Traced.value_bind, Traced.value_foldlM fun m segment => f.value_storeTraced m _ _,
    Traced.value_mapM fun lane => f.value_position_segmentTraced m ⟨pass, lane, slice⟩]

/-- The record aside, a traced pass is the pass. -/
@[simp] theorem value_fillPassTraced (f : Plan) (m : Memory) (pass : UInt32) :
    (f.fillPassTraced m pass).value = f.fillPass m pass :=
  Traced.value_foldlM (fun m slice => f.value_fillSliceTraced m pass slice) _ m

/-- The record aside, a traced fill is the fill. -/
@[simp] theorem value_fillTraced (f : Plan) (m : Memory) : (f.fillTraced m).value = f.fill m :=
  Traced.value_foldlM (fun m pass => f.value_fillPassTraced m (UInt32.ofNat pass)) _ m

/-! ## The positions that are chosen -/

/-- The reference positions for the blocks at some indices of a segment, in order. -/
def references (f : Plan) (m : Memory) (p : Position) :
    Progress → List UInt32 → List (UInt32 × UInt32)
  | _, [] => []
  | s, index :: rest =>
    (f.reference m p s index).1 :: f.references m p (f.write m p s index) rest

/-- A write chooses one position. -/
theorem positions_writeTraced (f : Plan) (m : Memory) (p : Position) (s : Progress)
    (index : UInt32) :
    positions (f.writeTraced m p s index).trace = [(f.reference m p s index).1] := by
  -- Beside the choice there are reads and a write.
  have hreplace (written : Array Block) (column : UInt32) (mixed : Block) :
      positions (f.replaceTraced m p written column mixed).trace = [] := by
    unfold replaceTraced
    split <;> rfl
  unfold writeTraced
  rw [reference_eq_word]
  simp only [Traced.trace_bind, Traced.trace_note, Traced.trace_pure, value_readTraced,
    positions_append, hreplace]
  rfl

/-- The record of a segment has the positions that the segment chooses. -/
theorem positions_segmentTraced (f : Plan) (m : Memory) (p : Position) :
    positions (f.segmentTraced m p).trace = f.references m p (f.begin p) (f.indices p) := by
  have hloop (s : Progress) (l : List UInt32) :
      positions (l.foldlM (f.writeTraced m p) s).trace = f.references m p s l := by
    induction l generalizing s with
    | nil => rfl
    | cons index l ih =>
      rw [List.foldlM_cons, Traced.trace_bind, positions_append, positions_writeTraced, ih,
        value_writeTraced]
      rfl
  unfold segmentTraced
  rw [Traced.trace_bind, Traced.trace_pure, List.append_nil, hloop]

/-! ## Two runs over different memories -/

variable {f : Plan} {p : Position}

/-- A read goes to the same location, if there are equally many new blocks. -/
theorem agree_readTraced (m m' : Memory) {written written' : Array Block}
    (h : written.size = written'.size) (lane column : UInt32) :
    Traced.Agree (fun _ _ => True) (f.readTraced m p written lane column)
      (f.readTraced m' p written' lane column) := by
  unfold readTraced
  rw [h]
  exact ⟨rfl, trivial⟩

/-- The block that is replaced is read at the same place, if it is read. -/
theorem agree_replaceTraced (m m' : Memory) (written written' : Array Block) (column : UInt32)
    (mixed mixed' : Block) :
    Traced.Agree (fun _ _ => True) (f.replaceTraced m p written column mixed)
      (f.replaceTraced m' p written' column mixed') := by
  unfold replaceTraced
  split
  · exact .pure trivial
  · exact ⟨rfl, trivial⟩

/-- A write leaves the same accesses, and segments that are alike stay alike. -/
theorem agree_writeTraced (m m' : Memory) {s t : Progress} (h : s.Alike t) (index : UInt32) :
    Traced.Agree Progress.Alike (f.writeTraced m p s index) (f.writeTraced m' p t index) := by
  unfold writeTraced
  dsimp only
  refine (agree_readTraced m m' h.size_eq _ _).bind fun previous previous' _ => ?_
  -- The word does not depend on the block before.
  obtain ⟨hword, hsome⟩ := h.word previous previous' index
  rw [hword, h.size_eq]
  refine (Traced.Agree.note _).bind fun _ _ _ => ?_
  refine (agree_readTraced m m' h.size_eq _ _).bind fun reference reference' _ => ?_
  refine (agree_replaceTraced m m' _ _ _ _ _).bind fun block block' _ => ?_
  refine (Traced.Agree.note _).bind fun _ _ _ => .pure ⟨rfl, hsome, ?_⟩
  rw [Array.size_push, Array.size_push, h.size_eq]

/-- A segment whose choices depend on the position alone leaves the same accesses. -/
theorem agree_segmentTraced (m m' : Memory) (h : f.variant.independent p) :
    Traced.Agree (fun blocks blocks' => blocks.size = blocks'.size) (f.segmentTraced m p)
      (f.segmentTraced m' p) := by
  have hbegin : (f.begin p).Alike (f.begin p) := by
    refine ⟨rfl, ?_, rfl⟩
    unfold begin
    rw [if_pos h]
    rfl
  have hloop : Traced.Agree Progress.Alike ((f.indices p).foldlM (f.writeTraced m p) (f.begin p))
      ((f.indices p).foldlM (f.writeTraced m' p) (f.begin p)) :=
    .foldlM (fun _ _ index hst => agree_writeTraced m m' hst index) hbegin
  exact hloop.bind fun _ _ hst => .pure hst.size_eq

/-- Equally many blocks are stored at the same places. -/
theorem agree_storeTraced (m m' : Memory) {blocks blocks' : Array Block}
    (h : blocks.size = blocks'.size) :
    Traced.Agree (fun _ _ => True) (f.storeTraced m p blocks) (f.storeTraced m' p blocks') := by
  have hplaces : List.Forall₂ (fun x y : UInt32 × Block => x.1 = y.1)
      ((f.indices p).zip blocks.toList) ((f.indices p).zip blocks'.toList) := by
    refine List.forall₂_iff_get.mpr ⟨?_, fun i hi hi' => ?_⟩
    · simp [h]
    · simp
  refine .foldlM₂ (fun m m' x y _ hxy => ?_) hplaces trivial
  obtain ⟨index, block⟩ := x
  obtain ⟨index', block'⟩ := y
  obtain rfl : index = index' := hxy
  exact ⟨rfl, trivial⟩

/-- A slice whose choices depend on the positions alone leaves the same accesses. -/
theorem agree_fillSliceTraced (m m' : Memory) {pass slice : UInt32}
    (h : ∀ lane, f.variant.independent ⟨pass, lane, slice⟩) :
    Traced.Agree (fun _ _ => True) (f.fillSliceTraced m pass slice)
      (f.fillSliceTraced m' pass slice) := by
  unfold fillSliceTraced
  refine (Traced.Agree.mapM (R := fun x y => x.1 = y.1 ∧ x.2.size = y.2.size) fun lane =>
    (agree_segmentTraced m m' (h lane)).bind fun _ _ hsize => .pure ⟨rfl, hsize⟩).bind
      fun segments segments' hsegments => ?_
  refine .foldlM₂ (fun m m' x y _ hxy => ?_) hsegments trivial
  obtain ⟨p, blocks⟩ := x
  obtain ⟨p', blocks'⟩ := y
  obtain ⟨rfl, hsize⟩ : p = p' ∧ blocks.size = blocks'.size := hxy
  exact agree_storeTraced m m' hsize

/-- A pass whose choices depend on the positions alone leaves the same accesses. -/
theorem agree_fillPassTraced (m m' : Memory) {pass : UInt32}
    (h : ∀ lane slice, f.variant.independent ⟨pass, lane, slice⟩) :
    Traced.Agree (fun _ _ => True) (f.fillPassTraced m pass) (f.fillPassTraced m' pass) := by
  have hstep (m m' : Memory) (slice : UInt32) (_ : True) :
      Traced.Agree (fun _ _ => True) (f.fillSliceTraced m pass slice)
        (f.fillSliceTraced m' pass slice) :=
    agree_fillSliceTraced m m' fun lane => h lane slice
  exact .foldlM hstep trivial

/-- A fill whose choices depend on the positions alone leaves the same accesses. -/
theorem agree_fillTraced (m m' : Memory) (h : ∀ p, f.variant.independent p) :
    Traced.Agree (fun _ _ => True) (f.fillTraced m) (f.fillTraced m') := by
  have hstep (m m' : Memory) (pass : ℕ) (_ : True) :
      Traced.Agree (fun _ _ => True) (f.fillPassTraced m (UInt32.ofNat pass))
        (f.fillPassTraced m' (UInt32.ofNat pass)) :=
    agree_fillPassTraced m m' fun _ _ => h _
  exact .foldlM hstep trivial

end Plan

/-- The record is one of the segments and of the fill as they are: without it, they are the same.
Where the choices come from address blocks, they do not depend on the memory. For any two memories, a
segment of Argon2i, or one of the first two slices in the first pass of Argon2id, chooses the same
reference positions, and leaves the same accesses. So the accesses of a whole fill of Argon2i are a
function of the memory, the lanes and the passes that the parameters ask for. -/
theorem accesses_independent :
    ((∀ (f : Plan) (p : Position) (m : Memory), (f.segmentTraced m p).value = f.segment m p) ∧
      ∀ (f : Plan) (m : Memory), (f.fillTraced m).value = f.fill m) ∧
    (∀ (f : Plan) (p : Position) (m m' : Memory),
      f.variant = .argon2i ∨ f.variant = .argon2id ∧ p.pass = 0 ∧ (p.slice = 0 ∨ p.slice = 1) →
        f.references m p (f.begin p) (f.indices p) = f.references m' p (f.begin p) (f.indices p) ∧
        (f.segmentTraced m p).trace = (f.segmentTraced m' p).trace) ∧
    (∀ (f : Plan) (m m' : Memory), f.variant = .argon2i →
      (f.fillTraced m).trace = (f.fillTraced m').trace) ∧
    ∃ accesses : UInt32 → UInt32 → UInt32 → List Access,
      ∀ (a : Hasher) (digest : Vector UInt8 64), a.params.variant = .argon2i →
        (a.plan.fillTraced (initialMemory a.plan digest)).trace =
          accesses a.params.memory a.params.lanes a.params.passes := by
  have hfill (f : Plan) (m m' : Memory) (hf : f.variant = .argon2i) :
      (f.fillTraced m).trace = (f.fillTraced m').trace :=
    (Plan.agree_fillTraced m m' fun p => by rw [hf]; rfl).trace_eq
  refine ⟨⟨fun f p m => f.value_segmentTraced m p, Plan.value_fillTraced⟩,
    fun f p m m' hwhere => ?_, hfill, ?_⟩
  · have hindependent : f.variant.independent p := by
      rcases hwhere with hf | ⟨hf, hpass, hslice⟩
      · rw [hf]
        rfl
      · rw [hf]
        rcases hslice with hslice | hslice <;> simp [Variant.independent, hpass, hslice]
    have htrace := (Plan.agree_segmentTraced m m' hindependent).trace_eq
    rw [← Plan.positions_segmentTraced, ← Plan.positions_segmentTraced, htrace]
    exact ⟨rfl, rfl⟩
  · refine ⟨fun memory lanes passes =>
      (Plan.fillTraced ⟨Layout.ofMemory memory lanes, passes, .argon2i⟩ #[]).trace,
      fun a digest ha => ?_⟩
    have hplan : a.plan =
        ⟨Layout.ofMemory a.params.memory a.params.lanes, a.params.passes, .argon2i⟩ := by
      rw [← ha]
      rfl
    rw [hplan]
    exact hfill _ _ _ rfl

/-- An instance in the second slice of the first pass of Argon2id, over memories of zeros and of
ones. -/
theorem accesses_independent_second_slice :
    let f : Plan := ⟨Layout.ofMemory 2048 2, 3, .argon2id⟩
    let p : Position := ⟨0, 1, 1⟩
    f.references #[] p (f.begin p) (f.indices p) =
      f.references (Array.replicate 2048 (Vector.replicate 128 1)) p (f.begin p) (f.indices p) := by
  intro f p
  exact (accesses_independent.2.1 f p #[] (Array.replicate 2048 (Vector.replicate 128 1))
    (.inr ⟨rfl, rfl, .inr rfl⟩)).1

end SymmetricCrypto.Argon2
