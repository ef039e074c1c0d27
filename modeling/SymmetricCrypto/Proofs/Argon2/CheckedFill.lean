import Mathlib
import SymmetricCrypto.Proofs.Argon2.CheckedChoice
import SymmetricCrypto.Proofs.Argon2.Filling

/-!
# Filling the memory meets no fault

The filling with its operations checked. Here a segment is a buffer of its full length, which begins
with zeros and is written at the index of each block; its blocks are then counted from zero, and
those after the given ones are stored. So the indices into the buffer are checked too, beside those
into the memory, and the counts of the blocks and of the lanes.

The invariant of a segment is `Holds`: the buffer has the new blocks after the given ones, and the
source of choices is the same. `writeChecked_eq` is its step. The block before, the reference block
and the block that is replaced are inside, since they are blocks of the matrix (`toNat_choose_lt`).
The memory keeps its size from slice to slice, which is all that the passes need.
-/

namespace SymmetricCrypto.Argon2

open Checked

/-- A segment in progress, in a buffer of its full length. -/
structure Buffered where
  /-- The blocks of the segment, with zero blocks for those that are not made yet. -/
  buffer : Array Block
  /-- The source of choices, unless the memory makes them. -/
  addresses : Option AddressStream

/-- The column before a column, around the lane, with its operations checked. -/
def Layout.beforeChecked (l : Layout) (column : UInt32) : Checked UInt32 :=
  if column = 0 then sub l.laneLength 1 else sub column 1

/-- `Progress.word` with its operations checked. -/
def Buffered.wordChecked (s : Buffered) (previous : Block) (index : UInt32) :
    Checked (UInt64 × Option AddressStream) :=
  match s.addresses with
  | some stream => do
    let next ← stream.nextChecked index
    return (next.1, some next.2)
  | none => do
    let word ← lookup previous.toArray 0
    return (word, none)

namespace Plan

/-- `read` with its operations checked. The buffer is filled up to an index. -/
def readChecked (f : Plan) (m : Memory) (p : Position) (buffer : Array Block)
    (filled lane column : UInt32) : Checked Block := do
  let base ← mul p.slice f.layout.segmentLength
  let start ← add base p.first
  let stop ← add base filled
  if lane = p.lane ∧ start ≤ column ∧ column < stop then do
    let offset ← sub column base
    lookup buffer offset.toNat
  else do
    let place ← f.layout.indexChecked lane column
    lookup m place

/-- A mix for the block in a column of the segment, summed with the block that it replaces from the
second pass on, with the operations checked. -/
def replaceChecked (f : Plan) (m : Memory) (p : Position) (column : UInt32) (mixed : Block) :
    Checked Block :=
  if p.pass = 0 then pure mixed
  else do
    let place ← f.layout.indexChecked p.lane column
    let old ← lookup m place
    return mixed.xor old

/-- `write` with its operations checked. -/
def writeChecked (f : Plan) (m : Memory) (p : Position) (s : Buffered) (index : UInt32) :
    Checked Buffered := do
  let base ← mul p.slice f.layout.segmentLength
  let column ← add base index
  let before ← f.layout.beforeChecked column
  let previous ← f.readChecked m p s.buffer index p.lane before
  let word ← s.wordChecked previous index
  let chosen ← chooseChecked f.layout p index word.1
  let reference ← f.readChecked m p s.buffer index chosen.1 chosen.2
  let block ← f.replaceChecked m p column (previous.mix reference)
  let buffer ← replace s.buffer index.toNat block
  return ⟨buffer, word.2⟩

/-- The buffer of a segment, with the operations checked. -/
def segmentChecked (f : Plan) (m : Memory) (p : Position) : Checked (Array Block) := do
  let s ← (f.indices p).foldlM (f.writeChecked m p)
    ⟨Array.replicate f.layout.segmentLength.toNat Block.zero, (f.begin p).addresses⟩
  return s.buffer

/-- A block is stored at an offset of a segment, with the operations checked. -/
def storeBlockChecked (f : Plan) (p : Position) (m : Memory) (entry : UInt32 × Block) :
    Checked Memory := do
  let base ← mul p.slice f.layout.segmentLength
  let column ← add base entry.1
  let place ← f.layout.indexChecked p.lane column
  replace m place entry.2

/-- `store` with its operations checked. The blocks of the buffer are counted, the given ones too. -/
def storeChecked (f : Plan) (m : Memory) (p : Position) (buffer : Array Block) :
    Checked Memory := do
  let numbered ← number 0 buffer.toList
  (numbered.drop p.first.toNat).foldlM (f.storeBlockChecked p) m

/-- `fillSlice` with its operations checked. The lanes are counted again when they are stored. -/
def fillSliceChecked (f : Plan) (m : Memory) (pass slice : UInt32) : Checked Memory := do
  let segments ← f.laneList.mapM fun lane => f.segmentChecked m ⟨pass, lane, slice⟩
  let numbered ← number 0 segments
  numbered.foldlM (fun m entry => f.storeChecked m ⟨pass, entry.1, slice⟩ entry.2) m

/-- `fillPass` with its operations checked. -/
def fillPassChecked (f : Plan) (m : Memory) (pass : UInt32) : Checked Memory :=
  [0, 1, 2, 3].foldlM (fun m slice => f.fillSliceChecked m pass slice) m

/-- `fill` with its operations checked. -/
def fillChecked (f : Plan) (m : Memory) : Checked Memory :=
  (List.range f.passes.toNat).foldlM (fun m pass => f.fillPassChecked m (UInt32.ofNat pass)) m

end Plan

/-! ## The new blocks in the buffer -/

namespace Plan

/-- A buffer has the new blocks of a segment, after the given ones. -/
structure Held (f : Plan) (p : Position) (written buffer : Array Block) : Prop where
  /-- The buffer has the length of a segment. -/
  size_eq : buffer.size = f.layout.segmentLength.toNat
  /-- The new blocks are in it, from the first one on that is not given. -/
  getElem?_eq : ∀ i < written.size, buffer[p.first.toNat + i]? = written[i]?

/-- The buffer is that of a segment in progress. -/
structure Holds (f : Plan) (p : Position) (s : Progress) (b : Buffered) : Prop where
  /-- The buffer has the new blocks. -/
  held : f.Held p s.written b.buffer
  /-- The sources of choices are the same. -/
  addresses_eq : b.addresses = s.addresses

variable {f : Plan} {p : Position} {written buffer : Array Block}

/-- A new block is read from the buffer. -/
theorem Held.lookup_eq (h : f.Held p written buffer) {i : ℕ} (hi : i < written.size) :
    lookup buffer (p.first.toNat + i) = pure (written.getD i Block.zero) := by
  refine lookup_eq_of_getElem? ?_
  rw [h.getElem?_eq i hi, Array.getElem?_eq_getElem hi, Array.getD_eq_getD_getElem?,
    Array.getElem?_eq_getElem hi, Option.getD_some]

/-- One more block is written after the others. -/
theorem Held.push (h : f.Held p written buffer)
    (hspace : p.first.toNat + written.size < f.layout.segmentLength.toNat) (block : Block) :
    f.Held p (written.push block)
      (buffer.setIfInBounds (p.first.toNat + written.size) block) where
  size_eq := by rw [Array.size_setIfInBounds, h.size_eq]
  getElem?_eq i hi := by
    rw [Array.size_push] at hi
    rw [Array.getElem?_setIfInBounds, Array.getElem?_push]
    by_cases hlast : i = written.size
    · rw [if_pos (by rw [hlast]), if_pos (by rw [h.size_eq]; exact hspace), if_pos hlast]
    · rw [if_neg (by omega), if_neg hlast]
      exact h.getElem?_eq i (by omega)

/-- When all blocks are written, they are the rest of the buffer. -/
theorem Held.drop_toList (h : f.Held p written buffer)
    (hall : p.first.toNat + written.size = f.layout.segmentLength.toNat) :
    buffer.toList.drop p.first.toNat = written.toList := by
  refine List.ext_getElem? fun i => ?_
  rw [List.getElem?_drop, Array.getElem?_toList, Array.getElem?_toList]
  by_cases hi : i < written.size
  · exact h.getElem?_eq i hi
  · have hsize := h.size_eq
    rw [Array.getElem?_eq_none (by omega), Array.getElem?_eq_none (by omega)]

end Plan

/-- There is a column before each column of a lane. -/
theorem Layout.beforeChecked_eq {l : Layout} {column : UInt32}
    (hcolumn : column.toNat < l.laneLength.toNat) :
    l.beforeChecked column = pure (if column = 0 then l.laneLength - 1 else column - 1) ∧
      (if column = 0 then l.laneLength - 1 else column - 1).toNat < l.laneLength.toNat := by
  have hone {x : UInt32} (hx : 0 < x.toNat) : sub x 1 = pure (x - 1) :=
    sub_eq hx (toNat_sub_one hx)
  have hlength : 0 < l.laneLength.toNat := by omega
  unfold beforeChecked
  by_cases hzero : column = 0
  · rw [if_pos hzero, if_pos hzero, hone hlength, toNat_sub_one hlength]
    exact ⟨rfl, by omega⟩
  · have hpos : 0 < column.toNat :=
      Nat.pos_of_ne_zero fun h => hzero ((eq_zero_iff_toNat _).mpr h)
    rw [if_neg hzero, if_neg hzero, hone hpos, toNat_sub_one hpos]
    exact ⟨rfl, by omega⟩

/-- The next word of a segment meets no fault. -/
theorem Buffered.wordChecked_eq {f : Plan} {p : Position} {index : UInt32} {s : Progress}
    {b : Buffered} (hb : b.addresses = s.addresses)
    (haddresses : s.addresses = f.addressesAt p index.toNat) (previous : Block) :
    b.wordChecked previous index = pure (s.word previous index) := by
  have hindex := index.toNat_lt
  unfold wordChecked Progress.word
  rw [hb, haddresses, Plan.addressesAt]
  by_cases haddressed : f.variant.independent p
  · have hcounter := AddressStream.toNat_counter_reached_le
      (AddressStream.start f.layout p f.passes f.variant).origin p.first.toNat index.toNat
    rw [if_pos haddressed]
    dsimp only
    rw [AddressStream.nextChecked_eq (by omega), pure_bind]
  · have hsize : 0 < previous.toArray.size := by
      rw [Vector.size_toArray]
      decide
    rw [if_neg haddressed]
    dsimp only
    rw [lookup_eq hsize 0, pure_bind]
    rfl

namespace Plan

variable {f : Plan} (hf : f.layout.Regular) {m : Memory} (hm : m.size = f.layout.total.toNat)
  {p : Position}

section Segment

include hf

/-- The start of a segment fits. -/
theorem mul_slice_eq (hslice : p.slice.toNat < 4) :
    mul p.slice f.layout.segmentLength = pure (p.base f.layout) :=
  mul_eq (toNat_slice_mul hf _ hslice.le)

/-- The columns of a segment and the one after it fit. -/
theorem add_base_eq (hslice : p.slice.toNat < 4) {index : UInt32}
    (hindex : index.toNat ≤ f.setting.segment) :
    add (p.base f.layout) index = pure (p.base f.layout + index) := by
  have hsum : (p.base f.layout + index).toNat = (p.base f.layout).toNat + index.toNat := by
    rw [toNat_base_add hf hslice index hindex, toNat_base hf hslice]
  exact add_eq hsum

include hm

/-- A block of the matrix is read from the memory. -/
theorem lookup_index_eq {lane column : UInt32} (hlane : lane.toNat < f.setting.lanes)
    (hcolumn : column.toNat < f.layout.laneLength.toNat) :
    lookup m (f.layout.index lane column) =
      pure (m.getD (f.layout.index lane column) Block.zero) :=
  lookup_eq (hm.symm ▸ Layout.index_lt hf hlane hcolumn) _

/-- A block of the matrix is read without a fault, if the buffer has all new blocks before an index.
-/
theorem readChecked_eq (hslice : p.slice.toNat < 4) {written buffer : Array Block}
    (hheld : f.Held p written buffer) {filled : UInt32}
    (hfilled : filled.toNat = p.first.toNat + written.size)
    (hsegment : filled.toNat ≤ f.setting.segment) {lane column : UInt32}
    (hlane : lane.toNat < f.setting.lanes)
    (hcolumn : column.toNat < f.layout.laneLength.toNat) :
    f.readChecked m p buffer filled lane column = pure (f.read m p written lane column) := by
  -- No bound of the range wraps.
  have hfirst_le : p.first.toNat ≤ f.setting.segment := by omega
  have hstart := toNat_base_add hf hslice p.first hfirst_le
  have hstop := toNat_base_add hf hslice filled hsegment
  have hbase := toNat_base hf hslice
  unfold readChecked read
  rw [mul_slice_eq hf hslice, pure_bind, add_base_eq hf hslice hfirst_le, pure_bind,
    add_base_eq hf hslice hsegment, pure_bind]
  dsimp only
  by_cases hle : p.base f.layout + p.first ≤ column
  · -- Past the first new block, the two conditions on the column are the same.
    have hdifference := UInt32.toNat_sub_of_le _ _ hle
    have hle' := UInt32.le_iff_toNat_le.mp hle
    have hlt : column < p.base f.layout + filled ↔
        (column - (p.base f.layout + p.first)).toNat < written.size := by
      rw [UInt32.lt_iff_toNat_lt, hdifference]
      omega
    have hcondition : lane = p.lane ∧ p.base f.layout + p.first ≤ column ∧
          column < p.base f.layout + filled ↔
        lane = p.lane ∧ p.base f.layout + p.first ≤ column ∧
          (column - (p.base f.layout + p.first)).toNat < written.size :=
      and_congr_right' (and_congr_right' hlt)
    by_cases hnew : lane = p.lane ∧ p.base f.layout + p.first ≤ column ∧
        (column - (p.base f.layout + p.first)).toNat < written.size
    · -- The offset in the buffer counts the given blocks too.
      have hbefore : (p.base f.layout).toNat ≤ column.toNat := by omega
      have hoffset := UInt32.toNat_sub_of_le _ _ (UInt32.le_iff_toNat_le.mpr hbefore)
      have hplace : (column - p.base f.layout).toNat =
          p.first.toNat + (column - (p.base f.layout + p.first)).toNat := by omega
      rw [if_pos (hcondition.mpr hnew), if_pos hnew, sub_eq hbefore hoffset, pure_bind, hplace,
        hheld.lookup_eq hnew.2.2]
    · rw [if_neg fun h => hnew (hcondition.mp h), if_neg hnew, Layout.indexChecked_eq, pure_bind,
        lookup_index_eq hf hm hlane hcolumn]
  · rw [if_neg fun h => hle h.2.1, if_neg fun h => hle h.2.1, Layout.indexChecked_eq, pure_bind,
      lookup_index_eq hf hm hlane hcolumn]

/-- The block that is replaced is in the memory. -/
theorem replaceChecked_eq (hlane : p.lane.toNat < f.setting.lanes) {column : UInt32}
    (hcolumn : column.toNat < f.layout.laneLength.toNat) (mixed : Block) :
    f.replaceChecked m p column mixed =
      pure (if p.pass = 0 then mixed
        else mixed.xor (m.getD (f.layout.index p.lane column) Block.zero)) := by
  unfold replaceChecked
  by_cases hzero : p.pass = 0
  · rw [if_pos hzero, if_pos hzero]
  · rw [if_neg hzero, if_neg hzero, Layout.indexChecked_eq, pure_bind,
      lookup_index_eq hf hm hlane hcolumn, pure_bind]

/-- A block of a segment is written without a fault, and the buffer goes on holding the blocks. -/
theorem writeChecked_eq {index : UInt32} (h : f.setting.Valid (p.place index)) {s : Progress}
    {b : Buffered} (hb : f.Holds p s b) (haddresses : s.addresses = f.addressesAt p index.toNat)
    (hwritten : index.toNat = p.first.toNat + s.written.size) :
    ∃ b', f.writeChecked m p b index = pure b' ∧ f.Holds p (f.write m p s index) b' := by
  have hslice : p.slice.toNat < 4 := h.slice_lt
  have hlane : p.lane.toNat < f.setting.lanes := h.lane_lt
  have hindex : index.toNat < f.setting.segment := h.index_lt
  have hcolumn := toNat_base_add_lt hf hslice hindex
  obtain ⟨hbefore, hbefore_lt⟩ := Layout.beforeChecked_eq hcolumn
  have hprevious : f.readChecked m p b.buffer index p.lane _ = pure (f.previous m p s index) :=
    readChecked_eq hf hm hslice hb.held hwritten hindex.le hlane hbefore_lt
  have hword := Buffered.wordChecked_eq hb.addresses_eq haddresses (f.previous m p s index)
  obtain ⟨hlane', hcolumn'⟩ := toNat_choose_lt hf h (s.word (f.previous m p s index) index).1
  have hreference := readChecked_eq hf hm hslice hb.held hwritten hindex.le hlane' hcolumn'
  have hreplace := replaceChecked_eq hf hm hlane hcolumn
  -- The next entry of the buffer is written.
  have hspace : p.first.toNat + s.written.size < f.layout.segmentLength.toNat := by
    rw [← hwritten, ← segment_setting hf]
    exact hindex
  have hpush (block : Block) := hb.held.push hspace block
  rw [← hwritten] at hspace hpush
  rw [← hb.held.size_eq] at hspace
  rw [write_eq_word]
  refine ⟨⟨b.buffer.setIfInBounds index.toNat _, _⟩, ?_, hpush _, rfl⟩
  rw [writeChecked, mul_slice_eq hf hslice, pure_bind, add_base_eq hf hslice hindex.le, pure_bind,
    hbefore, pure_bind, hprevious, pure_bind, hword, pure_bind, chooseChecked_eq hf h, pure_bind,
    hreference, pure_bind, hreplace, pure_bind, replace_eq hspace, pure_bind]

/-- After some blocks, the buffer holds those of the segment in progress. -/
theorem foldlM_writeChecked (hslice : p.slice.toNat < 4) (hlane : p.lane.toNat < f.setting.lanes)
    {b : Buffered} (hb : f.Holds p (f.begin p) b) {n : ℕ} (hn : n ≤ f.blocks p) :
    ∃ b', ((f.indices p).take n).foldlM (f.writeChecked m p) b = pure b' ∧
      f.Holds p (f.progress m p n) b' := by
  induction n with
  | zero => exact ⟨b, rfl, hb⟩
  | succ n ih =>
    have hlt : n < f.blocks p := hn
    obtain ⟨b', hpure, hb'⟩ := ih hlt.le
    obtain ⟨hsize, haddresses⟩ := progress_spec (m := m) hf hslice hlane n hlt.le
    -- The place of the next block is in range, and the buffer is filled up to it.
    have hindex := toNat_index_nextPlace hf hlt
    have hplace := place_index_nextPlace hf hlt
    have hvalid := valid_nextPlace hslice hlane hlt
    rw [← hplace] at hvalid
    rw [← hindex] at haddresses
    have hnext : (UInt32.ofNat (nextPlace p n).index).toNat =
        p.first.toNat + (f.progress m p n).written.size := by
      rw [hindex, hsize, toNat_first]
      rfl
    obtain ⟨b'', hpure', hb''⟩ := writeChecked_eq hf hm hvalid hb' haddresses hnext
    refine ⟨b'', ?_, ?_⟩
    · rw [take_succ_indices hf hlt, List.foldlM_append, hpure, pure_bind, List.foldlM_cons, hpure',
        pure_bind, List.foldlM_nil]
    · rw [progress_succ hf hlt]
      exact hb''

/-- A segment is filled without a fault, into a buffer that holds its new blocks. -/
theorem segmentChecked_eq (hslice : p.slice.toNat < 4) (hlane : p.lane.toNat < f.setting.lanes) :
    ∃ buffer, f.segmentChecked m p = pure buffer ∧ f.Held p (f.segment m p) buffer := by
  have hbegin : f.Holds p (f.begin p)
      ⟨Array.replicate f.layout.segmentLength.toNat Block.zero, (f.begin p).addresses⟩ :=
    ⟨⟨Array.size_replicate, fun i hi => absurd hi (Nat.not_lt_zero i)⟩, rfl⟩
  obtain ⟨b, hpure, hb⟩ := foldlM_writeChecked hf hm hslice hlane hbegin le_rfl
  rw [← length_indices hf, List.take_length] at hpure
  refine ⟨b.buffer, ?_, ?_⟩
  · rw [segmentChecked, hpure, pure_bind]
  · rw [segment_eq_progress hf]
    exact hb.held

end Segment

section Store

include hf

/-- The blocks of a buffer can be counted, and those after the given ones have the indices of the
segment. -/
theorem number_buffer_eq {written buffer : Array Block} (hheld : f.Held p written buffer)
    (hwritten : written.size = f.blocks p) :
    ∃ numbered, number 0 buffer.toList = pure numbered ∧
      numbered.drop p.first.toNat = (f.indices p).zip written.toList := by
  have hcount : (0 : UInt32).toNat + buffer.toList.length + 1 < 2^32 := by
    have hlane := f.layout.laneLength.toNat_lt
    have htwo := hf.two_le_segment
    rw [hf.laneLength_eq] at hlane
    rw [Array.length_toList, hheld.size_eq, UInt32.toNat_zero]
    omega
  have hindices : ((List.range' (0 : UInt32).toNat buffer.toList.length).map UInt32.ofNat).drop
      p.first.toNat = f.indices p := by
    rw [← List.map_drop, List.drop_range', Array.length_toList, hheld.size_eq, UInt32.toNat_zero,
      Nat.zero_add, Nat.mul_one]
    rfl
  have hall := first_add_blocks hf (p := p)
  rw [← hwritten] at hall
  refine ⟨_, number_eq hcount, ?_⟩
  rw [List.zip_eq_zipWith, List.drop_zipWith, hindices, hheld.drop_toList hall,
    List.zip_eq_zipWith]

/-- The buffers of all lanes can be counted, by the lanes. -/
theorem number_lanes_eq {buffers : List (Array Block)}
    (hlength : buffers.length = f.layout.lanes.toNat) :
    number 0 buffers = pure (f.laneList.zip buffers) := by
  have hcount : (0 : UInt32).toNat + buffers.length + 1 < 2^32 := by
    have htotal := f.layout.total.toNat_lt
    have hle : f.layout.lanes.toNat * 2 ≤ f.layout.lanes.toNat * f.layout.laneLength.toNat := by
      have htwo := hf.two_le_segment
      have hlane := hf.laneLength_eq
      exact Nat.mul_le_mul_left _ (by omega)
    rw [hf.total_eq] at htotal
    rw [hlength, UInt32.toNat_zero]
    omega
  rw [number_eq hcount, hlength, UInt32.toNat_zero, ← List.range_eq_range', laneList]

/-- A block of a segment is stored without a fault. -/
theorem storeBlockChecked_eq (hm : m.size = f.layout.total.toNat) (hslice : p.slice.toNat < 4)
    (hlane : p.lane.toNat < f.setting.lanes) {entry : UInt32 × Block}
    (hentry : entry.1 ∈ f.indices p) :
    f.storeBlockChecked p m entry =
      pure (m.setIfInBounds (f.layout.index p.lane (p.base f.layout + entry.1)) entry.2) := by
  have hindex : entry.1.toNat < f.setting.segment := by
    have hmem := List.mem_map_of_mem (f := UInt32.toNat) hentry
    have hall := first_add_blocks hf (p := p)
    rw [map_toNat_indices hf, List.mem_range'_1, ← toNat_first] at hmem
    rw [segment_setting hf]
    omega
  have hplace := Layout.index_lt hf hlane (toNat_base_add_lt hf hslice hindex)
  rw [← hm] at hplace
  rw [storeBlockChecked, mul_slice_eq hf hslice, pure_bind, add_base_eq hf hslice hindex.le,
    pure_bind, Layout.indexChecked_eq, pure_bind, replace_eq hplace]

/-- A buffer is stored as the new blocks that it holds. -/
theorem storeChecked_eq (hm : m.size = f.layout.total.toNat) (hslice : p.slice.toNat < 4)
    (hlane : p.lane.toNat < f.setting.lanes) {written buffer : Array Block}
    (hheld : f.Held p written buffer) (hwritten : written.size = f.blocks p) :
    f.storeChecked m p buffer = pure (f.store m p written) := by
  obtain ⟨numbered, hnumber, hdrop⟩ := number_buffer_eq hf hheld hwritten
  have hstep : ∀ m : Memory, m.size = f.layout.total.toNat →
      ∀ entry ∈ (f.indices p).zip written.toList,
        f.storeBlockChecked p m entry =
          pure (m.setIfInBounds (f.layout.index p.lane (p.base f.layout + entry.1)) entry.2) ∧
        (m.setIfInBounds (f.layout.index p.lane (p.base f.layout + entry.1)) entry.2).size =
          f.layout.total.toNat := fun m hm entry hentry =>
    ⟨storeBlockChecked_eq hf hm hslice hlane (List.of_mem_zip hentry).1, by
      rw [Array.size_setIfInBounds, hm]⟩
  rw [storeChecked, hnumber, pure_bind, hdrop, (foldlM_eq_pure _ hstep hm).1]
  rfl

/-- A slice is filled without a fault, and keeps the size of the memory. -/
theorem fillSliceChecked_eq (hm : m.size = f.layout.total.toNat) (pass : UInt32) {slice : UInt32}
    (hslice : slice.toNat < 4) :
    f.fillSliceChecked m pass slice = pure (f.fillSlice m pass slice) ∧
      (f.fillSlice m pass slice).size = f.layout.total.toNat := by
  refine ⟨?_, (matrix_fillSlice hf hm pass hslice).1.trans hm⟩
  -- All segments are filled from the memory as it was.
  have hsegment : ∀ lane ∈ f.laneList, ∃ buffer,
      f.segmentChecked m ⟨pass, lane, slice⟩ = pure buffer ∧
        f.Held ⟨pass, lane, slice⟩ (f.segment m ⟨pass, lane, slice⟩) buffer := fun lane hlane =>
    segmentChecked_eq hf hm (p := ⟨pass, lane, slice⟩) hslice (mem_laneList.mp hlane)
  obtain ⟨buffers, hpure, hbuffers⟩ := exists_mapM_eq_pure hsegment
  have hlanes : f.laneList.length = f.layout.lanes.toNat := by
    rw [laneList, List.length_map, List.length_range]
  have hlength := hbuffers.length_eq
  -- Then they are stored, lane after lane.
  have hstep : ∀ m' : Memory, m'.size = f.layout.total.toNat →
      ∀ entry ∈ f.laneList.zip buffers,
        f.storeChecked m' ⟨pass, entry.1, slice⟩ entry.2 =
          pure (f.store m' ⟨pass, entry.1, slice⟩ (f.segment m ⟨pass, entry.1, slice⟩)) ∧
        (f.store m' ⟨pass, entry.1, slice⟩ (f.segment m ⟨pass, entry.1, slice⟩)).size =
          f.layout.total.toNat := by
    intro m' hm' entry hentry
    have hlane := mem_laneList.mp (List.of_mem_zip hentry).1
    exact ⟨storeChecked_eq hf hm' hslice hlane (List.forall₂_zip hbuffers hentry)
      (size_segment hf (p := ⟨pass, entry.1, slice⟩) hslice hlane), by rw [size_store, hm']⟩
  have hfirsts := List.map_fst_zip hlength.le
  rw [fillSliceChecked, hpure, pure_bind, number_lanes_eq hf (hlength.symm.trans hlanes), pure_bind,
    (foldlM_eq_pure _ hstep hm).1, fillSlice, List.foldl_map]
  conv_rhs => rw [← hfirsts, List.foldl_map]

/-- A pass meets no fault. -/
theorem fillPassChecked_eq (hm : m.size = f.layout.total.toNat) (pass : UInt32) :
    f.fillPassChecked m pass = pure (f.fillPass m pass) ∧
      (f.fillPass m pass).size = f.layout.total.toNat := by
  have hslices : ∀ slice ∈ ([0, 1, 2, 3] : List UInt32), slice.toNat < 4 := by
    intro slice hslice
    fin_cases hslice <;> decide
  exact foldlM_eq_pure (fun m : Memory => m.size = f.layout.total.toNat)
    (fun _ hm slice hslice => fillSliceChecked_eq hf hm pass (hslices slice hslice)) hm

/-- The passes meet no fault. -/
theorem fillChecked_eq (hm : m.size = f.layout.total.toNat) :
    f.fillChecked m = pure (f.fill m) ∧ (f.fill m).size = f.layout.total.toNat :=
  foldlM_eq_pure (fun m : Memory => m.size = f.layout.total.toNat)
    (fun _ hm pass _ => fillPassChecked_eq hf hm (UInt32.ofNat pass)) hm

end Store

end Plan

end SymmetricCrypto.Argon2
