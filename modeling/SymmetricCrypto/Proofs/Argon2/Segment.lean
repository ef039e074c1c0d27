import Mathlib
import SymmetricCrypto.Proofs.Argon2.Addresses

/-!
# A segment is filled as the standard fills its blocks

A segment is filled into a buffer of its own, from the memory as it was when the slice began. What a
lane reads is the buffer laid over that memory (`Plan.overlay`), and the block that it writes is the
standard's new block in the matrix that the overlay is (`write_eq_standard`).

The standard fills one matrix for all lanes, so its blocks see what other lanes have written. But a
new block depends on its own lane and on columns outside of the slice only (`newBlock_congr`): the
block before it and the block it replaces are in its lane, and so is the reference block, unless it
is outside of the slice. So it does not matter to a lane how far the others are. -/

namespace SymmetricCrypto.Argon2

open Standard

namespace Standard

/-- Equal within the matrix. -/
def Setting.Same (s : Setting) (A B : Matrix) : Prop :=
  ∀ lane < s.lanes, ∀ column < s.columns, A lane column = B lane column

/-- Equal as far as a lane can see in a slice: in the lane, and in all columns outside of the slice.
-/
structure Setting.Alike (s : Setting) (slice lane : Nat) (A B : Matrix) : Prop where
  /-- Equal in the lane. -/
  own : ∀ column < s.columns, A lane column = B lane column
  /-- Equal in the other slices of all lanes. -/
  other : ∀ l < s.lanes, ∀ column < s.columns,
    column < slice * s.segment ∨ (slice + 1) * s.segment ≤ column → A l column = B l column

/-- The matrix is four slices. -/
def Setting.Even (s : Setting) : Prop := 0 < s.lanes ∧ 2 ≤ s.segment ∧ s.columns = 4 * s.segment

/-- The column of a block is in its slice. -/
theorem column_lt {s : Setting} {a : Place} (hs : s.Even) (h : s.Valid a) :
    s.column a < s.columns := by
  obtain ⟨-, -, hcolumns⟩ := hs
  obtain ⟨hslice, -, -, hindex⟩ := h
  have hend : (a.slice + 1) * s.segment ≤ 4 * s.segment := Nat.mul_le_mul_right _ hslice
  have hsucc : (a.slice + 1) * s.segment = a.slice * s.segment + s.segment := by ring
  unfold Setting.column
  omega

/-- The new block of a lane depends on what the lane can see. -/
theorem newBlock_congr {s : Setting} {a : Place} {A B : Matrix} (hs : s.Even) (h : s.Valid a)
    (hAB : s.Alike a.slice a.lane A B) : s.newBlock A a = s.newBlock B a := by
  obtain ⟨hlanes, hsegment, hcolumns⟩ := id hs
  have hcolumn := column_lt hs h
  have hprevious : s.previous A a = s.previous B a := by
    unfold Setting.previous
    refine hAB.own _ ?_
    split_ifs <;> omega
  have hword : s.word A a = s.word B a := by
    unfold Setting.word
    rw [hprevious]
  have hold : A a.lane (s.column a) = B a.lane (s.column a) := hAB.own _ hcolumn
  -- The reference block is in the lane or outside of the slice.
  obtain ⟨hlane, hreference, hwhere⟩ := reference_mem h hlanes hsegment (s.word B a)
  have hmixed : A (s.reference a (s.word B a)).1 (s.reference a (s.word B a)).2 =
      B (s.reference a (s.word B a)).1 (s.reference a (s.word B a)).2 := by
    rw [← hcolumns] at hreference
    rcases hwhere with hown | hother
    · rw [hown]
      exact hAB.own _ hreference
    · exact hAB.other _ hlane _ hreference hother
  unfold Setting.newBlock
  dsimp only
  rw [hword, hprevious, hold, hmixed]

end Standard

/-- The sum of two blocks does not depend on their order. -/
theorem Block.xor_comm (x y : Block) : x.xor y = y.xor x := by
  unfold Block.xor
  exact Vector.zipWith_comm_of_comm fun a b => UInt64.xor_comm a b

/-- The word for the block at `index` of a segment, after a given block, and the source after it. -/
def Progress.word (s : Progress) (previous : Block) (index : UInt32) :
    UInt64 × Option AddressStream :=
  match s.addresses with
  | some stream =>
    let (word, stream) := stream.next index
    (word, some stream)
  | none => (previous.getD 0 0, none)

namespace Plan

/-- The word of a segment in progress chooses the reference position of the fill. -/
theorem reference_eq_word (f : Plan) (m : Memory) (p : Position) (s : Progress) (index : UInt32) :
    f.reference m p s index =
      (choose f.layout p index (s.word (f.previous m p s index) index).1,
        (s.word (f.previous m p s index) index).2) := by
  unfold reference Progress.word
  cases s.addresses <;> rfl

/-- A write in terms of the word. -/
theorem write_eq_word (f : Plan) (m : Memory) (p : Position) (s : Progress) (index : UInt32) :
    f.write m p s index =
      let word := s.word (f.previous m p s index) index
      let chosen := choose f.layout p index word.1
      let mixed := (f.previous m p s index).mix (f.read m p s.written chosen.1 chosen.2)
      let old := m.getD (f.layout.index p.lane (p.base f.layout + index)) Block.zero
      ⟨s.written.push (if p.pass = 0 then mixed else mixed.xor old), word.2⟩ := by
  unfold write
  rw [reference_eq_word]

variable {f : Plan}

/-- The setting of a regular layout is even. -/
theorem even_setting (hf : f.layout.Regular) : f.setting.Even := by
  refine ⟨hf.lanes_pos, ?_, ?_⟩
  · rw [segment_setting hf]
    exact hf.two_le_segment
  · rw [segment_setting hf, columns_setting hf]
    exact hf.laneLength_eq

/-- The matrix that a memory holds. -/
def matrix (f : Plan) (m : Memory) : Matrix where
  block lane column := m.getD (lane * f.layout.laneLength.toNat + column) Block.zero

/-- The first column of a segment that is filled. -/
def start (f : Plan) (p : Position) : Nat :=
  p.slice.toNat * f.setting.segment + Setting.first p.pass.toNat p.slice.toNat

/-- The matrix that a lane sees: the new blocks of its segment, and the memory for the rest. -/
def overlay (f : Plan) (m : Memory) (p : Position) (written : Array Block) : Matrix where
  block lane column :=
    if lane = p.lane.toNat ∧ f.start p ≤ column ∧ column < f.start p + written.size then
      written.getD (column - f.start p) Block.zero
    else f.matrix m lane column

/-- Another lane's blocks are those of the memory. -/
theorem overlay_of_ne {p : Position} {lane : Nat} (h : lane ≠ p.lane.toNat) (m : Memory)
    (written : Array Block) (column : Nat) :
    f.overlay m p written lane column = f.matrix m lane column := if_neg fun h' => h h'.1

/-- The blocks outside of a slice are those of the memory. -/
theorem overlay_of_outside {p : Position} {column : Nat} {written : Array Block}
    (hwritten : Setting.first p.pass.toNat p.slice.toNat + written.size ≤ f.setting.segment)
    (h : column < p.slice.toNat * f.setting.segment ∨
      (p.slice.toNat + 1) * f.setting.segment ≤ column)
    (m : Memory) (lane : Nat) : f.overlay m p written lane column = f.matrix m lane column := by
  refine if_neg fun h' => ?_
  have hsucc : (p.slice.toNat + 1) * f.setting.segment =
    p.slice.toNat * f.setting.segment + f.setting.segment := by ring
  unfold start at h'
  omega

/-- One more block in the buffer is one more block in the overlay. -/
theorem overlay_push (m : Memory) (p : Position) (written : Array Block) (block : Block)
    (column : Nat) :
    f.overlay m p (written.push block) p.lane.toNat column =
      if column = f.start p + written.size then block
      else f.overlay m p written p.lane.toNat column := by
  unfold overlay
  dsimp only
  rw [Array.size_push]
  by_cases hnew : column = f.start p + written.size
  · -- The new block is the last one of the buffer.
    rw [if_pos hnew, if_pos ⟨rfl, by omega, by omega⟩, hnew, Nat.add_sub_cancel_left]
    simp
  · rw [if_neg hnew]
    by_cases hold : f.start p ≤ column ∧ column < f.start p + written.size
    · have hne : column - f.start p ≠ written.size := by omega
      rw [if_pos ⟨rfl, by omega, by omega⟩, if_pos ⟨rfl, hold⟩]
      simp only [Array.getD_eq_getD_getElem?]
      rw [Array.getElem?_push, if_neg hne]
    · rw [if_neg (by omega), if_neg fun h => hold h.2]

/-- The source of choices before the block at `index` of a segment. -/
def addressesAt (f : Plan) (p : Position) (index : Nat) : Option AddressStream :=
  if f.variant.independent p then
    some (.reached (AddressStream.start f.layout p f.passes f.variant).origin p.first.toNat index)
  else none

/-- The number of given blocks of a segment is the standard's. -/
theorem toNat_first (p : Position) : p.first.toNat = Setting.first p.pass.toNat p.slice.toNat := by
  unfold Position.first Setting.first
  by_cases h : p.pass.toNat = 0 ∧ p.slice.toNat = 0
  · rw [if_pos h, if_pos ((given_iff_toNat p).mpr h)]
    rfl
  · rw [if_neg h, if_neg fun h' => h ((given_iff_toNat p).mp h')]
    rfl

/-- At most the two given blocks of a segment are not filled. -/
theorem first_le_two (pass slice : Nat) : Setting.first pass slice ≤ 2 := by
  unfold Setting.first
  split_ifs <;> omega

/-- The address blocks are used in the same segments. -/
theorem independent_eq_addressed (f : Plan) (p : Position) :
    f.variant.independent p = f.setting.addressed p.pass.toNat p.slice.toNat := by
  unfold Setting.addressed
  have hvariant : f.setting.variant = f.variant := rfl
  rw [hvariant]
  cases f.variant with
  | argon2d => rfl
  | argon2i => rfl
  | argon2id =>
    have htwo : (2 : UInt32).toNat = 2 := rfl
    refine decide_eq_decide.mpr (and_congr (eq_zero_iff_toNat _) ?_)
    rw [UInt32.lt_iff_toNat_lt, htwo]

section Segment

variable (hf : f.layout.Regular) {m : Memory} {p : Position}
include hf

/-- The start of a segment does not wrap. -/
theorem toNat_base (hslice : p.slice.toNat < 4) :
    (p.base f.layout).toNat = p.slice.toNat * f.setting.segment := by
  rw [segment_setting hf]
  exact toNat_slice_mul hf _ hslice.le

/-- The column of a block of a segment does not wrap. -/
theorem toNat_base_add (hslice : p.slice.toNat < 4) (index : UInt32)
    (hindex : index.toNat ≤ f.setting.segment) :
    (p.base f.layout + index).toNat = p.slice.toNat * f.setting.segment + index.toNat := by
  have hlane := f.layout.laneLength.toNat_lt
  rw [hf.laneLength_eq, ← segment_setting hf] at hlane
  have hle : p.slice.toNat * f.setting.segment ≤ 3 * f.setting.segment :=
    Nat.mul_le_mul_right _ (by omega)
  rw [UInt32.toNat_add, toNat_base hf hslice, Nat.mod_eq_of_lt (by omega)]

/-- The column of a block of a segment is one of the lane. -/
theorem toNat_base_add_lt (hslice : p.slice.toNat < 4) {index : UInt32}
    (hindex : index.toNat < f.setting.segment) :
    (p.base f.layout + index).toNat < f.layout.laneLength.toNat := by
  have hle : p.slice.toNat * f.setting.segment ≤ 3 * f.setting.segment :=
    Nat.mul_le_mul_right _ (by omega)
  rw [toNat_base_add hf hslice _ hindex.le, hf.laneLength_eq, ← segment_setting hf]
  omega

/-- The reference position is one of the matrix. -/
theorem toNat_choose_lt {index : UInt32} (h : f.setting.Valid (p.place index)) (word : UInt64) :
    (choose f.layout p index word).1.toNat < f.setting.lanes ∧
      (choose f.layout p index word).2.toNat < f.layout.laneLength.toNat := by
  obtain ⟨hlanes, htwo, hcolumns⟩ := even_setting hf
  obtain ⟨hlane, hcolumn, -⟩ := reference_mem h hlanes htwo word
  rw [← hcolumns, columns_setting hf] at hcolumn
  rw [← choose_eq_reference hf h] at hlane hcolumn
  exact ⟨hlane, hcolumn⟩

/-- A lane reads from the overlay. -/
theorem read_eq_overlay (hslice : p.slice.toNat < 4) (written : Array Block)
    (lane column : UInt32) :
    f.read m p written lane column = f.overlay m p written lane.toNat column.toNat := by
  have hsegment := segment_setting hf
  -- Both count from the first new column.
  have hstart : (p.base f.layout + p.first).toNat = f.start p := by
    have hle := first_le_two p.pass.toNat p.slice.toNat
    have htwo := hf.two_le_segment
    rw [toNat_base_add hf hslice _ (by rw [toNat_first]; omega), toNat_first]
    rfl
  unfold read overlay
  dsimp only
  generalize p.base f.layout + p.first = start at hstart ⊢
  rw [← hstart]
  by_cases hle : start.toNat ≤ column.toNat
  · -- The difference does not wrap, so both ask the same of the column.
    have hdifference : (column - start).toNat = column.toNat - start.toNat :=
      UInt32.toNat_sub_of_le _ _ (UInt32.le_iff_toNat_le.mpr hle)
    have hcondition : lane = p.lane ∧ start ≤ column ∧ (column - start).toNat < written.size ↔
        lane.toNat = p.lane.toNat ∧ start.toNat ≤ column.toNat ∧
          column.toNat < start.toNat + written.size := by
      rw [hdifference]
      refine and_congr UInt32.toNat_inj.symm (and_congr UInt32.le_iff_toNat_le ?_)
      constructor <;> intro hlt <;> omega
    rw [hdifference] at hcondition ⊢
    by_cases hnew : lane.toNat = p.lane.toNat ∧ start.toNat ≤ column.toNat ∧
        column.toNat < start.toNat + written.size
    · rw [if_pos hnew, if_pos (hcondition.mpr hnew)]
    · rw [if_neg hnew, if_neg fun h => hnew (hcondition.mp h)]
      rfl
  · -- A column before the first new one is not in the buffer.
    rw [if_neg fun h => hle (UInt32.le_iff_toNat_le.mp h.2.1), if_neg fun h => hle h.2.1]
    rfl

/-- The block before a block is the standard's in the overlay. -/
theorem previous_eq_standard {index : UInt32} (h : f.setting.Valid (p.place index)) (s : Progress) :
    f.previous m p s index = f.setting.previous (f.overlay m p s.written) (p.place index) := by
  have hslice : p.slice.toNat < 4 := h.slice_lt
  have hindex : index.toNat < f.setting.segment := h.index_lt
  -- The column does not wrap.
  have hcolumn := toNat_base_add hf hslice index hindex.le
  have hcolumns := columns_setting hf
  have hlength := hf.laneLength_eq
  have htwo := hf.two_le_segment
  have hplace : f.setting.column (p.place index) =
      p.slice.toNat * f.setting.segment + index.toNat := rfl
  unfold previous Setting.previous
  dsimp only
  rw [read_eq_overlay hf hslice, hplace, ← hcolumn, hcolumns]
  by_cases hzero : (p.base f.layout + index).toNat = 0
  · -- Before the first block of a lane is the last one.
    rw [if_pos hzero, if_pos ((eq_zero_iff_toNat _).mpr hzero), toNat_sub_one (by omega)]
    rfl
  · rw [if_neg hzero, if_neg fun h => hzero ((eq_zero_iff_toNat _).mp h), toNat_sub_one (by omega)]
    rfl

/-- The choice for a block is made by the standard's word in the overlay, and the source goes on. -/
theorem reference_eq_standard {index : UInt32} (h : f.setting.Valid (p.place index)) {s : Progress}
    (haddresses : s.addresses = f.addressesAt p index.toNat) :
    f.reference m p s index =
      (choose f.layout p index (f.setting.word (f.overlay m p s.written) (p.place index)),
        f.addressesAt p (index.toNat + 1)) := by
  have hindependent := independent_eq_addressed f p
  unfold reference Setting.word
  rw [haddresses]
  unfold addressesAt
  by_cases haddressed : f.variant.independent p
  · -- The next word of the stream.
    have hfirst : p.first.toNat < 128 := by
      rw [toNat_first]
      have := first_le_two p.pass.toNat p.slice.toNat
      omega
    have hle : p.first.toNat ≤ index.toNat := by
      rw [toNat_first]
      exact h.first_le
    have hword : f.setting.addressed (p.place index).pass (p.place index).slice = true := by
      rw [← haddressed, hindependent]
      rfl
    rw [if_pos haddressed, if_pos haddressed, if_pos hword]
    dsimp only
    rw [AddressStream.next_reached _ _ _ hfirst hle, AddressStream.wordAt_eq_standard]
  · -- The first word of the block before.
    have hword : ¬f.setting.addressed (p.place index).pass (p.place index).slice = true := by
      intro hword
      exact haddressed (hindependent.trans hword)
    rw [if_neg haddressed, if_neg haddressed, if_neg hword]
    dsimp only
    rw [previous_eq_standard hf h, getD_eq_getElem _ (by decide)]

/-- A lane writes the standard's new block in the overlay, if it has not written this place yet. -/
theorem write_eq_standard {index : UInt32} (h : f.setting.Valid (p.place index)) {s : Progress}
    (haddresses : s.addresses = f.addressesAt p index.toNat)
    (hwritten : Setting.first p.pass.toNat p.slice.toNat + s.written.size ≤ index.toNat) :
    f.write m p s index =
      ⟨s.written.push (f.setting.newBlock (f.overlay m p s.written) (p.place index)),
        f.addressesAt p (index.toNat + 1)⟩ := by
  have hslice : p.slice.toNat < 4 := h.slice_lt
  have hindex : index.toNat < f.setting.segment := h.index_lt
  have hcolumn := toNat_base_add hf hslice index hindex.le
  have hreference := reference_eq_standard (m := m) hf h haddresses
  have hchoice :=
    choose_eq_reference hf h (f.setting.word (f.overlay m p s.written) (p.place index))
  -- The block that is replaced is not written yet, so it is the memory's.
  have hold : m.getD (f.layout.index p.lane (p.base f.layout + index)) Block.zero =
      f.overlay m p s.written (p.place index).lane (f.setting.column (p.place index)) := by
    have hplace : f.setting.column (p.place index) =
        p.slice.toNat * f.setting.segment + index.toNat := rfl
    unfold overlay start
    rw [hplace]
    dsimp only
    rw [if_neg (by omega), ← hcolumn]
    rfl
  unfold write Setting.newBlock
  rw [hreference]
  dsimp only
  rw [read_eq_overlay hf hslice, previous_eq_standard hf h, hold, mix_eq_compress, Block.xor_comm,
    sum_eq_xor (f.overlay m p s.written _ _)]
  -- Both mix the block before with the one that both choose.
  rw [Prod.ext_iff] at hchoice
  obtain ⟨hlane, hcolumn⟩ := hchoice
  dsimp only at hlane hcolumn
  rw [hlane, hcolumn]
  -- Both add the old block from the second pass on.
  by_cases hzero : (p.place index).pass = 0
  · rw [if_pos hzero, if_pos ((eq_zero_iff_toNat p.pass).mpr hzero)]
  · rw [if_neg hzero, if_neg fun h => hzero ((eq_zero_iff_toNat p.pass).mp h)]

end Segment

/-! ## A segment block by block -/

/-- The segment after its first `n` new blocks. -/
def progress (f : Plan) (m : Memory) (p : Position) (n : Nat) : Progress :=
  ((f.indices p).take n).foldl (f.write m p) (f.begin p)

/-- The number of new blocks of a segment. -/
def blocks (f : Plan) (p : Position) : Nat :=
  f.setting.segment - Setting.first p.pass.toNat p.slice.toNat

/-- The place of the new block after the first `n` ones. -/
def nextPlace (p : Position) (n : Nat) : Place where
  pass := p.pass.toNat
  slice := p.slice.toNat
  lane := p.lane.toNat
  index := Setting.first p.pass.toNat p.slice.toNat + n

/-- The next new block is one that is filled. -/
theorem valid_nextPlace {p : Position} (hslice : p.slice.toNat < 4)
    (hlane : p.lane.toNat < f.setting.lanes) {n : Nat} (hn : n < f.blocks p) :
    f.setting.Valid (nextPlace p n) := by
  unfold blocks at hn
  refine ⟨hslice, hlane, Nat.le_add_right _ _, ?_⟩
  show Setting.first p.pass.toNat p.slice.toNat + n < f.setting.segment
  omega

section Progress

variable (hf : f.layout.Regular) {m : Memory} {p : Position}
include hf

/-- There is an index for each new block. -/
theorem length_indices : (f.indices p).length = f.blocks p := by
  unfold indices blocks
  rw [List.length_map, List.length_range', segment_setting hf, toNat_first]

/-- The given blocks and the new ones are all blocks of a segment. -/
theorem first_add_blocks : p.first.toNat + f.blocks p = f.layout.segmentLength.toNat := by
  have hfirst := first_le_two p.pass.toNat p.slice.toNat
  have htwo := hf.two_le_segment
  unfold blocks
  rw [toNat_first, segment_setting hf]
  omega

/-- The indices of a segment, by natural numbers. -/
theorem map_toNat_indices (p : Position) :
    (f.indices p).map UInt32.toNat =
      List.range' (Setting.first p.pass.toNat p.slice.toNat) (f.blocks p) := by
  have hsegment := segment_setting hf
  have hword := f.layout.segmentLength.toNat_lt
  unfold indices blocks
  rw [List.map_map, toNat_first, ← hsegment]
  rw [← hsegment] at hword
  refine (List.map_congr_left fun n hn => ?_).trans (List.map_id _)
  rw [List.mem_range'_1] at hn
  show (UInt32.ofNat n).toNat = n
  rw [UInt32.toNat_ofNat', Nat.mod_eq_of_lt (by omega)]

/-- A segment is what its blocks make of it. -/
theorem segment_eq_progress : f.segment m p = (f.progress m p (f.blocks p)).written := by
  unfold segment progress
  rw [← length_indices hf, List.take_length]

/-- The indices are those of the places, in order. -/
theorem take_succ_indices {n : Nat} (hn : n < f.blocks p) :
    (f.indices p).take (n + 1) =
      (f.indices p).take n ++ [UInt32.ofNat (nextPlace p n).index] := by
  have hbound : n < (f.indices p).length := by
    rw [length_indices hf]
    exact hn
  have hget : (f.indices p)[n] = UInt32.ofNat (nextPlace p n).index := by
    simp [indices, nextPlace, toNat_first]
  rw [List.take_succ_eq_append_getElem hbound, hget]

/-- A new block is written at the index after those of the blocks before it. -/
theorem progress_succ {n : Nat} (hn : n < f.blocks p) :
    f.progress m p (n + 1) =
      f.write m p (f.progress m p n) (UInt32.ofNat (nextPlace p n).index) := by
  unfold progress
  rw [take_succ_indices hf hn, List.foldl_append, List.foldl_cons, List.foldl_nil]

/-- The index of the next new block does not wrap. -/
theorem toNat_index_nextPlace {n : Nat} (hn : n < f.blocks p) :
    (UInt32.ofNat (nextPlace p n).index).toNat = (nextPlace p n).index := by
  have hsegment := f.layout.segmentLength.toNat_lt
  rw [← segment_setting hf] at hsegment
  unfold blocks at hn
  rw [UInt32.toNat_ofNat']
  refine Nat.mod_eq_of_lt ?_
  show Setting.first p.pass.toNat p.slice.toNat + n < 2^32
  omega

/-- The index of the next place fits a word, so the place is that of its index. -/
theorem place_index_nextPlace {n : Nat} (hn : n < f.blocks p) :
    p.place (UInt32.ofNat (nextPlace p n).index) = nextPlace p n := by
  unfold Position.place
  rw [toNat_index_nextPlace hf hn]
  rfl

variable (hslice : p.slice.toNat < 4) (hlane : p.lane.toNat < f.setting.lanes)
include hslice hlane

/-- If the buffer has some blocks and the source of choices is at the next one, then this one is the
standard's in the overlay, and the source goes on. -/
theorem progress_step {n : Nat} (hn : n < f.blocks p) (hsize : (f.progress m p n).written.size = n)
    (haddresses : (f.progress m p n).addresses = f.addressesAt p (nextPlace p n).index) :
    f.progress m p (n + 1) =
      ⟨(f.progress m p n).written.push
        (f.setting.newBlock (f.overlay m p (f.progress m p n).written) (nextPlace p n)),
        f.addressesAt p (nextPlace p (n + 1)).index⟩ := by
  have hindex := toNat_index_nextPlace hf hn
  have hplace := place_index_nextPlace hf hn
  have hvalid : f.setting.Valid (p.place (UInt32.ofNat (nextPlace p n).index)) := by
    rw [hplace]
    exact valid_nextPlace hslice hlane hn
  rw [← hindex] at haddresses
  rw [progress_succ hf hn,
    write_eq_standard hf hvalid haddresses (by rw [hsize, hindex]; exact Nat.le_refl _),
    hplace, hindex]
  rfl

/-- After some blocks the buffer has them, and the source of choices is at the next one. -/
theorem progress_spec (n : Nat) (hn : n ≤ f.blocks p) :
    (f.progress m p n).written.size = n ∧
      (f.progress m p n).addresses = f.addressesAt p (nextPlace p n).index := by
  induction n with
  | zero =>
    have hfirst : (nextPlace p 0).index = p.first.toNat := (toNat_first p).symm
    refine ⟨rfl, ?_⟩
    rw [hfirst]
    unfold addressesAt
    rw [← AddressStream.start_eq_reached]
    rfl
  | succ n ih =>
    obtain ⟨hsize, haddresses⟩ := ih (by omega)
    rw [progress_step hf hslice hlane hn hsize haddresses]
    refine ⟨?_, rfl⟩
    rw [Array.size_push, hsize]

/-- A segment has all its new blocks. -/
theorem size_segment : (f.segment m p).size = f.blocks p := by
  rw [segment_eq_progress hf]
  exact (progress_spec hf hslice hlane _ le_rfl).1

/-- The next block of the buffer is the standard's in the overlay. -/
theorem written_progress_succ {n : Nat} (hn : n < f.blocks p) :
    (f.progress m p (n + 1)).written = (f.progress m p n).written.push
      (f.setting.newBlock (f.overlay m p (f.progress m p n).written) (nextPlace p n)) := by
  obtain ⟨hsize, haddresses⟩ := progress_spec (m := m) hf hslice hlane n hn.le
  rw [progress_step hf hslice hlane hn hsize haddresses]

/-- Outside of the slice a lane sees the memory. -/
theorem overlay_progress_of_outside {n : Nat} (hn : n ≤ f.blocks p) {column : Nat}
    (h : column < p.slice.toNat * f.setting.segment ∨
      (p.slice.toNat + 1) * f.setting.segment ≤ column)
    (lane : Nat) :
    f.overlay m p (f.progress m p n).written lane column = f.matrix m lane column := by
  have hfirst := first_le_two p.pass.toNat p.slice.toNat
  have htwo := (even_setting hf).2.1
  refine overlay_of_outside ?_ h m lane
  rw [(progress_spec hf hslice hlane n hn).1]
  unfold blocks at hn
  omega

end Progress

end Plan

end SymmetricCrypto.Argon2
