import Mathlib
import SymmetricCrypto.Proofs.Argon2.AccessPattern
import SymmetricCrypto.Proofs.Argon2.CheckedChoice
import SymmetricCrypto.Proofs.Argon2.Filling

/-!
# A pass writes every block once

The lanes and columns of a regular layout and the places of the memory are one to one
(`Layout.Regular.bijOn_index`). So a place is written as often as the block of its lane and column.

The writes are read off the record of a fill. Filling a segment writes into its own buffer only, and
storing it writes its blocks at their places, so the places that a slice writes are those of the
standard's blocks, in the standard's order (`writtenPlaces_fillSliceTraced`). The runs of the lanes
of a slice do not meet (`count_slicePlaces`), and the slices of a pass lie side by side
(`count_passPlaces`): each block is written once, but for the two given blocks of each lane in the
first pass. What is not recorded as written stays (`Keeps`), so nothing else has changed.
-/

namespace SymmetricCrypto.Argon2

open Standard

/-! ## The places of the blocks -/

namespace Layout

/-- The blocks of the matrix and the places of the memory are one to one. -/
theorem Regular.bijOn_index {l : Layout} (hl : l.Regular) :
    Set.BijOn (fun cell : UInt32 × UInt32 => l.index cell.1 cell.2)
      {cell | cell.1 < l.lanes ∧ cell.2 < l.laneLength} (Set.Iio l.total.toNat) := by
  refine ⟨?_, ?_, ?_⟩
  · rintro ⟨lane, column⟩ ⟨hlane, hcolumn⟩
    exact index_lt hl (UInt32.lt_iff_toNat_lt.mp hlane) (UInt32.lt_iff_toNat_lt.mp hcolumn)
  · rintro ⟨lane, column⟩ ⟨-, hcolumn⟩ ⟨lane', column'⟩ ⟨-, hcolumn'⟩ hplace
    obtain ⟨hlanes, hcolumns⟩ := place_inj (UInt32.lt_iff_toNat_lt.mp hcolumn)
      (UInt32.lt_iff_toNat_lt.mp hcolumn') hplace
    exact Prod.ext (UInt32.toNat_inj.mp hlanes) (UInt32.toNat_inj.mp hcolumns)
  · rintro place hplace
    obtain ⟨lane, hlane, column, hcolumn, rfl⟩ := hl.exists_place_eq hplace
    -- Both numbers are below a word.
    have hlane' : (UInt32.ofNat lane).toNat = lane :=
      UInt32.toNat_ofNat_of_lt' (hlane.trans l.lanes.toNat_lt)
    have hcolumn' : (UInt32.ofNat column).toNat = column :=
      UInt32.toNat_ofNat_of_lt' (hcolumn.trans l.laneLength.toNat_lt)
    refine ⟨(UInt32.ofNat lane, UInt32.ofNat column), ⟨?_, ?_⟩, ?_⟩
    · rw [UInt32.lt_iff_toNat_lt, hlane']
      exact hlane
    · rw [UInt32.lt_iff_toNat_lt, hcolumn']
      exact hcolumn
    · show (UInt32.ofNat lane).toNat * _ + (UInt32.ofNat column).toNat = _
      rw [hlane', hcolumn']

end Layout

/-! ## The record of the writes -/

/-- The place of the memory that an access has written. -/
def Access.writtenPlace? : Access → Option ℕ
  | wrote (.memory place) => some place
  | wrote (.new _) | read _ | chose _ _ => none

/-- The places of the memory that were written, in order. -/
def writtenPlaces (accesses : List Access) : List ℕ :=
  accesses.filterMap Access.writtenPlace?

/-- The places of two records, one after the other. -/
theorem writtenPlaces_append (a b : List Access) :
    writtenPlaces (a ++ b) = writtenPlaces a ++ writtenPlaces b :=
  List.filterMap_append

/-- A loop writes what its steps write, if that does not depend on the state. -/
theorem writtenPlaces_foldlM {α β : Type} {step : β → α → Traced Access β} (places : α → List ℕ)
    {l : List α} (h : ∀ b, ∀ a ∈ l, writtenPlaces (step b a).trace = places a) (b : β) :
    writtenPlaces (l.foldlM step b).trace = l.flatMap places := by
  induction l generalizing b with
  | nil => rfl
  | cons a l ih =>
    rw [List.foldlM_cons, Traced.trace_bind, writtenPlaces_append, h b a List.mem_cons_self,
      ih fun b a ha => h b a (List.mem_cons_of_mem _ ha), List.flatMap_cons]

/-- Steps without a write make a loop without a write. -/
theorem writtenPlaces_mapM {α β : Type} {step : α → Traced Access β}
    (h : ∀ a, writtenPlaces (step a).trace = []) (l : List α) :
    writtenPlaces (l.mapM step).trace = [] := by
  induction l with
  | nil => rfl
  | cons a l ih =>
    rw [List.mapM_cons, Traced.trace_bind, Traced.trace_bind, Traced.trace_pure, List.append_nil,
      writtenPlaces_append, h, ih, List.append_nil]

namespace Plan

/-- A block of a segment goes into the buffer, and no place of the memory is written. -/
theorem writtenPlaces_writeTraced (f : Plan) (m : Memory) (p : Position) (s : Progress)
    (index : UInt32) : writtenPlaces (f.writeTraced m p s index).trace = [] := by
  have hreplace (column : UInt32) (mixed : Block) :
      writtenPlaces (f.replaceTraced m p s.written column mixed).trace = [] := by
    unfold replaceTraced
    split <;> rfl
  unfold writeTraced
  simp only [Traced.trace_bind, Traced.trace_note, Traced.trace_pure, writtenPlaces_append,
    hreplace]
  rfl

/-- Filling a segment writes no place of the memory. -/
theorem writtenPlaces_segmentTraced (f : Plan) (m : Memory) (p : Position) :
    writtenPlaces (f.segmentTraced m p).trace = [] := by
  have hloop := writtenPlaces_foldlM (l := f.indices p) (fun _ => [])
    (fun s index _ => f.writtenPlaces_writeTraced m p s index) (f.begin p)
  unfold segmentTraced
  rw [Traced.trace_bind, Traced.trace_pure, List.append_nil, hloop, List.flatMap_eq_nil_iff]
  exact fun _ _ => rfl

/-- Storing a segment writes the places of its blocks. -/
theorem writtenPlaces_storeTraced (f : Plan) (m : Memory) (p : Position) {blocks : Array Block}
    (h : (f.indices p).length = blocks.size) :
    writtenPlaces (f.storeTraced m p blocks).trace =
      (f.indices p).map fun index => f.layout.index p.lane (p.base f.layout + index) := by
  have hindices : ((f.indices p).zip blocks.toList).map Prod.fst = f.indices p :=
    List.map_fst_zip h.le
  unfold storeTraced
  rw [writtenPlaces_foldlM (fun entry => [f.layout.index p.lane (p.base f.layout + entry.1)])
    fun m entry _ => rfl]
  rw [← List.map_eq_flatMap]
  conv_rhs => rw [← hindices, List.map_map]
  rfl

/-! ## The places of a slice, a pass and a fill -/

/-- The place of a block of the standard. -/
def placeOf (f : Plan) (a : Place) : ℕ :=
  a.lane * f.layout.laneLength.toNat + f.setting.column a

/-- The places of the blocks of a slice. -/
def slicePlaces (f : Plan) (pass slice : ℕ) : List ℕ :=
  (f.setting.slicePlaces pass slice).map f.placeOf

/-- The places of the blocks of a pass. -/
def passPlaces (f : Plan) (pass : ℕ) : List ℕ := (List.range 4).flatMap (f.slicePlaces pass)

/-- The places of the blocks of all passes. -/
def fillPlaces (f : Plan) : List ℕ := (List.range f.passes.toNat).flatMap f.passPlaces

/-- The places of a segment are consecutive. -/
theorem map_placeOf (f : Plan) (pass slice lane first size : ℕ) :
    ((List.range' first size).map fun index => (⟨pass, slice, lane, index⟩ : Place)).map f.placeOf =
      List.range' (lane * f.layout.laneLength.toNat + (slice * f.setting.segment + first))
        size := by
  rw [List.map_map, ← Nat.add_assoc, ← List.map_add_range']
  refine List.map_congr_left fun index _ => ?_
  exact (Nat.add_assoc _ _ _).symm

section Regular

variable {f : Plan} (hf : f.layout.Regular)
include hf

/-- The words of a segment's places do not wrap. -/
theorem map_index_indices {p : Position} (hslice : p.slice.toNat < 4) :
    ((f.indices p).map fun index => f.layout.index p.lane (p.base f.layout + index)) =
      List.range' (p.lane.toNat * f.layout.laneLength.toNat +
        (p.slice.toNat * f.setting.segment + Setting.first p.pass.toNat p.slice.toNat))
        (f.blocks p) := by
  rw [← Nat.add_assoc, ← List.map_add_range', ← map_toNat_indices hf p, List.map_map]
  refine List.map_congr_left fun index hindex => ?_
  have hmem := List.mem_map_of_mem (f := UInt32.toNat) hindex
  rw [map_toNat_indices hf, List.mem_range'_1] at hmem
  have hall := first_add_blocks hf (p := p)
  rw [toNat_first, ← segment_setting hf] at hall
  have hcolumn := toNat_base_add hf hslice index (by omega)
  show p.lane.toNat * f.layout.laneLength.toNat + (p.base f.layout + index).toNat = _
  rw [hcolumn, ← Nat.add_assoc]
  rfl

/-- A slice writes the places of the standard's blocks, in the standard's order. -/
theorem writtenPlaces_fillSliceTraced (m : Memory) (pass : UInt32) {slice : UInt32}
    (hslice : slice.toNat < 4) :
    writtenPlaces (f.fillSliceTraced m pass slice).trace =
      f.slicePlaces pass.toNat slice.toNat := by
  -- Segments are filled into buffers, and only then stored.
  have hsegment (lane : UInt32) : writtenPlaces (do
      let blocks ← f.segmentTraced m ⟨pass, lane, slice⟩
      return (⟨pass, lane, slice⟩, blocks) :
        Traced Access (Position × Array Block)).trace = [] := by
    rw [Traced.trace_bind, Traced.trace_pure, List.append_nil, writtenPlaces_segmentTraced]
  unfold fillSliceTraced
  rw [Traced.trace_bind, writtenPlaces_append, writtenPlaces_mapM hsegment, List.nil_append,
    Traced.value_mapM fun lane => f.value_position_segmentTraced m ⟨pass, lane, slice⟩,
    writtenPlaces_foldlM fun s =>
      (f.indices s.1).map fun index => f.layout.index s.1.lane (s.1.base f.layout + index)]
  · -- Lane after lane, the places of a segment are those of its blocks.
    rw [List.flatMap_map, laneList, List.flatMap_map, slicePlaces, Setting.slicePlaces,
      List.map_flatMap]
    refine List.flatMap_congr fun lane hlane => ?_
    rw [map_index_indices hf hslice, map_placeOf]
    have hword := toNat_lane_position (f := f) pass slice (List.mem_range.mp hlane)
    unfold position at hword
    dsimp only
    rw [hword]
    rfl
  · intro m' s hs
    obtain ⟨lane, hlane, rfl⟩ := List.mem_map.mp hs
    have hsize := size_segment (m := m) hf (p := ⟨pass, lane, slice⟩) hslice
      (mem_laneList.mp hlane)
    exact writtenPlaces_storeTraced f m' _ ((length_indices hf).trans hsize.symm)

/-- A pass writes the places of its slices. -/
theorem writtenPlaces_fillPassTraced (m : Memory) (pass : UInt32) :
    writtenPlaces (f.fillPassTraced m pass).trace = f.passPlaces pass.toNat := by
  have hslice : ∀ m : Memory, ∀ slice ∈ ([0, 1, 2, 3] : List UInt32),
      writtenPlaces (f.fillSliceTraced m pass slice).trace =
        f.slicePlaces pass.toNat slice.toNat := by
    intro m slice hslice
    refine writtenPlaces_fillSliceTraced hf m pass ?_
    fin_cases hslice <;> decide
  exact writtenPlaces_foldlM _ hslice m

/-- A fill writes the places of its passes. -/
theorem writtenPlaces_fillTraced (m : Memory) :
    writtenPlaces (f.fillTraced m).trace = f.fillPlaces := by
  refine writtenPlaces_foldlM _ (fun m pass hpass => ?_) m
  have hword := (List.mem_range.mp hpass).trans f.passes.toNat_lt
  rw [writtenPlaces_fillPassTraced hf, UInt32.toNat_ofNat_of_lt' hword]

/-! ## How often a place is written -/

variable {lane column : ℕ} (hcolumn : column < f.layout.laneLength.toNat)
include hcolumn

omit hf in
/-- The runs of the first lanes do not meet, so a place is in one of them at most. -/
theorem count_runs {start size : ℕ} (hend : start + size ≤ f.layout.laneLength.toNat) (n : ℕ) :
    ((List.range n).flatMap fun lane' =>
      List.range' (lane' * f.layout.laneLength.toNat + start) size).count
        (lane * f.layout.laneLength.toNat + column) =
      if lane < n ∧ start ≤ column ∧ column < start + size then 1 else 0 := by
  induction n with
  | zero => simp
  | succ n ih =>
    have hrun : lane * f.layout.laneLength.toNat + column ∈
        List.range' (n * f.layout.laneLength.toNat + start) size ↔
          lane = n ∧ start ≤ column ∧ column < start + size := by
      rw [List.mem_range'_1, Layout.place_mem_run hcolumn hend]
    rw [List.range_succ, List.flatMap_append, List.flatMap_singleton, List.count_append, ih,
      (List.nodup_range' ..).count]
    simp only [hrun]
    split_ifs <;> omega

/-- A slice has the places of its columns once, but for the given ones. -/
theorem count_slicePlaces (pass : ℕ) {slice : ℕ} (hslice : slice < 4) :
    (f.slicePlaces pass slice).count (lane * f.layout.laneLength.toNat + column) =
      if lane < f.layout.lanes.toNat ∧
        slice * f.setting.segment + Setting.first pass slice ≤ column ∧
        column < (slice + 1) * f.setting.segment then 1 else 0 := by
  have hfirst := first_le_two pass slice
  obtain ⟨-, htwo, hcolumns⟩ := even_setting hf
  have hsucc : (slice + 1) * f.setting.segment =
      slice * f.setting.segment + f.setting.segment := Nat.succ_mul _ _
  have hslices : (slice + 1) * f.setting.segment ≤ 4 * f.setting.segment :=
    Nat.mul_le_mul_right _ hslice
  rw [columns_setting hf] at hcolumns
  rw [slicePlaces, Setting.slicePlaces, List.map_flatMap]
  simp only [map_placeOf]
  rw [count_runs hcolumn (by omega)]
  refine if_congr (and_congr_right' (and_congr_right' ?_)) rfl rfl
  omega

/-- The first slices have the places of their columns once, but for the given ones. -/
theorem count_slices (pass : ℕ) {n : ℕ} (hn : n ≤ 4) :
    ((List.range n).flatMap (f.slicePlaces pass)).count
        (lane * f.layout.laneLength.toNat + column) =
      if lane < f.layout.lanes.toNat ∧ ¬(pass = 0 ∧ column < 2) ∧ column < n * f.setting.segment
        then 1 else 0 := by
  induction n with
  | zero => simp
  | succ n ih =>
    have htwo := (even_setting hf).2.1
    have hsucc : (n + 1) * f.setting.segment = n * f.setting.segment + f.setting.segment :=
      Nat.succ_mul _ _
    have hzero : n = 0 → n * f.setting.segment = 0 := fun h => by rw [h, Nat.zero_mul]
    have hpos : 0 < n → f.setting.segment ≤ n * f.setting.segment := Nat.le_mul_of_pos_left _
    rw [List.range_succ, List.flatMap_append, List.flatMap_singleton, List.count_append,
      ih (by omega), count_slicePlaces hf hcolumn pass (by omega), Setting.first]
    split_ifs <;> omega

/-- A pass has every place of the memory once, but for the given ones in the first pass. -/
theorem count_passPlaces (pass : ℕ) :
    (f.passPlaces pass).count (lane * f.layout.laneLength.toNat + column) =
      if lane < f.layout.lanes.toNat ∧ ¬(pass = 0 ∧ column < 2) then 1 else 0 := by
  have hcolumns : column < 4 * f.setting.segment := by
    rw [segment_setting hf, ← hf.laneLength_eq]
    exact hcolumn
  rw [passPlaces, count_slices hf hcolumn pass le_rfl]
  refine if_congr (and_congr_right' (and_iff_left hcolumns)) rfl rfl

/-- All passes together have a place once for each pass, but for the given ones in the first. -/
theorem count_fillPlaces :
    f.fillPlaces.count (lane * f.layout.laneLength.toNat + column) =
      if lane < f.layout.lanes.toNat then
        if column < 2 then f.passes.toNat - 1 else f.passes.toNat
      else 0 := by
  unfold fillPlaces
  induction f.passes.toNat with
  | zero => simp
  | succ n ih =>
    rw [List.range_succ, List.flatMap_append, List.flatMap_singleton, List.count_append, ih,
      count_passPlaces hf hcolumn]
    split_ifs <;> omega

omit hcolumn in
/-- What a pass writes is in the memory. -/
theorem lt_total_of_mem_passPlaces {pass place : ℕ} (h : place ∈ f.passPlaces pass) :
    place < f.layout.total.toNat := by
  have hcolumn := Nat.mod_lt place hf.laneLength_pos
  have hplace := Nat.div_add_mod' place f.layout.laneLength.toNat
  have hcount := List.count_pos_iff.mpr h
  rw [← hplace, count_passPlaces hf hcolumn] at hcount
  have hlane : place / f.layout.laneLength.toNat < f.layout.lanes.toNat := by
    by_contra hlane
    rw [if_neg fun h => hlane h.1] at hcount
    exact absurd hcount (lt_irrefl 0)
  rw [← hplace]
  exact Nat.lt_of_succ_le (hf.place_le hlane hcolumn)

omit hcolumn in
/-- A slice writes no place twice. -/
theorem nodup_slicePlaces (pass : ℕ) {slice : ℕ} (hslice : slice < 4) :
    (f.slicePlaces pass slice).Nodup := by
  refine List.nodup_iff_count_le_one.mpr fun place => ?_
  have hcolumn := Nat.mod_lt place hf.laneLength_pos
  rw [← Nat.div_add_mod' place f.layout.laneLength.toNat,
    count_slicePlaces hf hcolumn pass hslice]
  split_ifs <;> decide

end Regular

/-! ## What is not written -/

/-- Where nothing is recorded as written, the memory that results is the one before. -/
def Keeps (m : Memory) (x : Traced Access Memory) : Prop :=
  ∀ place ∉ writtenPlaces x.trace, x.value[place]? = m[place]?

/-- A loop keeps what its steps keep. -/
theorem keeps_foldlM {α : Type} {step : Memory → α → Traced Access Memory}
    (h : ∀ m a, Keeps m (step m a)) (l : List α) (m : Memory) : Keeps m (l.foldlM step m) := by
  induction l generalizing m with
  | nil => exact fun _ _ => rfl
  | cons a l ih =>
    intro place hplace
    rw [List.foldlM_cons, Traced.trace_bind, writtenPlaces_append, List.mem_append,
      not_or] at hplace
    rw [List.foldlM_cons, Traced.value_bind, ih _ place hplace.2, h m a place hplace.1]

/-- Storing a segment keeps what it does not write. -/
theorem keeps_storeTraced (f : Plan) (m : Memory) (p : Position) (blocks : Array Block) :
    Keeps m (f.storeTraced m p blocks) := by
  refine keeps_foldlM (fun m entry place hplace => ?_) _ m
  have hother : f.layout.index p.lane (p.base f.layout + entry.1) ≠ place := by
    rintro rfl
    exact hplace List.mem_cons_self
  exact Array.getElem?_setIfInBounds_ne hother

/-- A slice keeps what it does not write. -/
theorem keeps_fillSliceTraced (f : Plan) (m : Memory) (pass slice : UInt32) :
    Keeps m (f.fillSliceTraced m pass slice) := by
  intro place hplace
  unfold fillSliceTraced at hplace ⊢
  rw [Traced.trace_bind, writtenPlaces_append, List.mem_append, not_or] at hplace
  rw [Traced.value_bind]
  exact keeps_foldlM (fun m segment => keeps_storeTraced f m _ _) _ m place hplace.2

/-- A pass keeps what it does not write. -/
theorem keeps_fillPassTraced (f : Plan) (m : Memory) (pass : UInt32) :
    Keeps m (f.fillPassTraced m pass) :=
  keeps_foldlM (fun m slice => keeps_fillSliceTraced f m pass slice) _ m

/-- After a slice, the places of a segment hold the blocks that were stored there. -/
theorem map_getD_fillSlice {f : Plan} (hf : f.layout.Regular) {m : Memory}
    (hm : m.size = f.layout.total.toNat) {p : Position} (hslice : p.slice.toNat < 4)
    (hlane : p.lane.toNat < f.setting.lanes) :
    ((f.indices p).map fun index => (f.fillSlice m p.pass p.slice).getD
        (f.layout.index p.lane (p.base f.layout + index)) Block.zero) =
      (f.segment m p).toList := by
  have hread := congrArg
    (List.map fun place => (f.fillSlice m p.pass p.slice).getD place Block.zero)
    (map_index_indices hf hslice)
  have hsize := size_segment (m := m) hf hslice hlane
  have hposition : position p.pass p.slice p.lane.toNat = p := by
    unfold position
    rw [UInt32.ofNat_toNat]
  rw [List.map_map] at hread
  refine hread.trans (List.ext_getElem (by simp [hsize]) fun k hk hk' => ?_)
  have hblocks : k < f.blocks p := by simpa using hk
  -- The block is laid over the memory in its own column.
  have hcolumn : f.start p + k < f.setting.columns := by
    have hlt := column_lt (even_setting hf) (valid_nextPlace (f := f) hslice hlane hblocks)
    rwa [Setting.column, nextPlace, ← Nat.add_assoc] at hlt
  have hstored :=
    (matrix_fillSlice hf hm p.pass hslice).2 p.lane.toNat hlane (f.start p + k) hcolumn
  rw [hposition, overlay] at hstored
  dsimp only at hstored
  rw [if_pos ⟨rfl, Nat.le_add_right _ _, by omega⟩, Nat.add_sub_cancel_left] at hstored
  rw [List.getElem_map, List.getElem_range', Nat.one_mul, Nat.add_assoc]
  refine hstored.trans ?_
  rw [Array.getElem_toList, Array.getD_eq_getD_getElem?, Array.getElem?_eq_getElem (by omega),
    Option.getD_some]

/-! ## The writes by words -/

/-- A column of the given blocks. -/
theorem lt_two_iff_toNat (column : UInt32) : column < 2 ↔ column.toNat < 2 := by
  have htwo : (2 : UInt32).toNat = 2 := rfl
  rw [UInt32.lt_iff_toNat_lt, htwo]

section Words

variable {f : Plan} (hf : f.layout.Regular) (m : Memory) {lane column : UInt32}
include hf

/-- A pass writes the place of a lane and a column once, unless its block is given. -/
theorem count_writtenPlaces_fillPassTraced (pass : UInt32) (hlane : lane < f.layout.lanes)
    (hcolumn : column < f.layout.laneLength) :
    (writtenPlaces (f.fillPassTraced m pass).trace).count (f.layout.index lane column) =
      if pass = 0 ∧ column < 2 then 0 else 1 := by
  have hlane' := UInt32.lt_iff_toNat_lt.mp hlane
  have hgiven : pass.toNat = 0 ∧ column.toNat < 2 ↔ pass = 0 ∧ column < 2 :=
    and_congr (eq_zero_iff_toNat pass).symm (lt_two_iff_toNat column).symm
  rw [writtenPlaces_fillPassTraced hf]
  refine (count_passPlaces hf (UInt32.lt_iff_toNat_lt.mp hcolumn) pass.toNat).trans ?_
  by_cases h : pass.toNat = 0 ∧ column.toNat < 2
  · rw [if_neg fun h' => h'.2 h, if_pos (hgiven.mp h)]
  · rw [if_pos ⟨hlane', h⟩, if_neg fun h' => h (hgiven.mpr h')]

/-- A fill writes the place of a lane and a column once for each pass, unless its block is given. -/
theorem count_writtenPlaces_fillTraced (hlane : lane < f.layout.lanes)
    (hcolumn : column < f.layout.laneLength) :
    (writtenPlaces (f.fillTraced m).trace).count (f.layout.index lane column) =
      if column < 2 then f.passes.toNat - 1 else f.passes.toNat := by
  rw [writtenPlaces_fillTraced hf]
  refine (count_fillPlaces hf (UInt32.lt_iff_toNat_lt.mp hcolumn)).trans ?_
  rw [if_pos (UInt32.lt_iff_toNat_lt.mp hlane)]
  exact if_congr (lt_two_iff_toNat column).symm rfl rfl

/-- A slice stores its blocks at different places of the memory. -/
theorem nodup_writtenPlaces_fillSliceTraced (pass : UInt32) {slice : UInt32} (hslice : slice < 4) :
    (writtenPlaces (f.fillSliceTraced m pass slice).trace).Nodup ∧
      ∀ place ∈ writtenPlaces (f.fillSliceTraced m pass slice).trace,
        place < f.layout.total.toNat := by
  have hslice' : slice.toNat < 4 := UInt32.lt_iff_toNat_lt.mp hslice
  rw [writtenPlaces_fillSliceTraced hf m pass hslice']
  refine ⟨nodup_slicePlaces hf pass.toNat hslice', fun place hplace => ?_⟩
  have hpass : place ∈ f.passPlaces pass.toNat :=
    List.mem_flatMap.mpr ⟨slice.toNat, List.mem_range.mpr hslice', hplace⟩
  exact lt_total_of_mem_passPlaces hf hpass

end Words

end Plan

/-- For parameters in range:

* the dimensions are computed without a word that wraps, and they fit each other: the memory that
  was asked for is rounded down to four segments for each lane, of two blocks or more;
* lanes and columns are one to one with the places of the memory;
* a slice, a pass and a fill with a record of their writes are those without it;
* a slice stores its blocks at different places of the memory, and afterwards the places of each
  lane hold the new blocks of this lane, in order;
* a pass writes the place of every lane and column once, in the first pass all but those of the
  first two columns, and it writes nothing else;
* so over all passes a place is written once for each pass, in the first two columns once less. -/
theorem cells_written_once (p : Params) (hp : p.fault? = none) :
    let l := Layout.ofParams p
    (Layout.ofMemoryChecked p.memory p.lanes = pure l ∧
      l.total.toNat = 4 * p.lanes.toNat * (p.memory.toNat / (4 * p.lanes.toNat)) ∧
      p.memory.toNat - 4 * p.lanes.toNat < l.total.toNat ∧ l.total.toNat ≤ p.memory.toNat ∧
      l.laneLength.toNat = 4 * l.segmentLength.toNat ∧ 2 ≤ l.segmentLength.toNat ∧
      p.lanes.toNat * l.laneLength.toNat = l.total.toNat) ∧
    Set.BijOn (fun cell : UInt32 × UInt32 => l.index cell.1 cell.2)
      {cell | cell.1 < p.lanes ∧ cell.2 < l.laneLength} (Set.Iio l.total.toNat) ∧
    ∀ (passes : UInt32) (variant : Variant) (m : Memory), m.size = l.total.toNat →
      let f : Plan := ⟨l, passes, variant⟩
      ((∀ pass slice, (f.fillSliceTraced m pass slice).value = f.fillSlice m pass slice) ∧
        (∀ pass, (f.fillPassTraced m pass).value = f.fillPass m pass) ∧
        (f.fillTraced m).value = f.fill m) ∧
      (∀ pass, ∀ slice < 4,
        let written := writtenPlaces (f.fillSliceTraced m pass slice).trace
        written.Nodup ∧ (∀ place ∈ written, place < l.total.toNat) ∧
        ∀ lane < p.lanes,
          let q : Position := ⟨pass, lane, slice⟩
          ((f.indices q).map fun index =>
            (f.fillSlice m pass slice).getD (l.index lane (q.base l + index)) Block.zero) =
              (f.segment m q).toList) ∧
      (∀ pass,
        let written := writtenPlaces (f.fillPassTraced m pass).trace
        (∀ lane < p.lanes, ∀ column < l.laneLength,
          written.count (l.index lane column) = if pass = 0 ∧ column < 2 then 0 else 1) ∧
        (∀ place ∈ written, place < l.total.toNat) ∧
        ∀ place ∉ written, (f.fillPass m pass)[place]? = m[place]?) ∧
      ∀ lane < p.lanes, ∀ column < l.laneLength,
        (writtenPlaces (f.fillTraced m).trace).count (l.index lane column) =
          if column < 2 then passes.toNat - 1 else passes.toNat := by
  intro l
  -- The dimensions.
  obtain ⟨hlanes, hmemory⟩ := (⟨p, hp⟩ : Hasher).lanes_pos_and_memory_le
  have hl : l.Regular := Layout.regular_ofMemory hlanes hmemory
  obtain ⟨hlower, hupper⟩ := Layout.rounded_bounds hlanes hmemory
  refine ⟨⟨Layout.ofMemoryChecked_eq hlanes hmemory, Layout.toNat_total_ofMemory hmemory, hlower,
    hupper, hl.laneLength_eq, hl.two_le_segment, hl.total_eq.symm⟩, hl.bijOn_index,
    fun passes variant m hm => ?_⟩
  intro f
  have hf : f.layout.Regular := hl
  refine ⟨⟨f.value_fillSliceTraced m, f.value_fillPassTraced m, f.value_fillTraced m⟩,
    fun pass slice hslice => ?_,
    fun pass => ⟨fun lane hlane column hcolumn => ?_, ?_, ?_⟩,
    fun lane hlane column hcolumn => ?_⟩
  · -- A slice.
    obtain ⟨hnodup, hinside⟩ := Plan.nodup_writtenPlaces_fillSliceTraced hf m pass hslice
    refine ⟨hnodup, hinside, fun lane hlane => ?_⟩
    exact Plan.map_getD_fillSlice hf hm (p := ⟨pass, lane, slice⟩)
      (UInt32.lt_iff_toNat_lt.mp hslice) (UInt32.lt_iff_toNat_lt.mp hlane)
  · -- A pass.
    exact Plan.count_writtenPlaces_fillPassTraced hf m pass hlane hcolumn
  · intro place hplace
    rw [Plan.writtenPlaces_fillPassTraced hf] at hplace
    exact Plan.lt_total_of_mem_passPlaces hf hplace
  · intro place hplace
    rw [← Plan.value_fillPassTraced]
    exact Plan.keeps_fillPassTraced f m pass place hplace
  · -- A whole fill.
    exact Plan.count_writtenPlaces_fillTraced hf m hlane hcolumn

/-- The largest memory and the most lanes, in the first pass and in the second of two. -/
theorem cells_written_once_most_lanes :
    let p : Params := ⟨0xffffffff, 2, 0xffffff, 32, none, none, .argon2id⟩
    let l := Layout.ofParams p
    let f : Plan := ⟨l, 2, .argon2id⟩
    let m : Memory := Array.replicate l.total.toNat Block.zero
    p.fault? = none ∧ m.size = l.total.toNat ∧ l = ⟨0xffffff, 256, 64, 4294967040⟩ ∧
      (writtenPlaces (f.fillPassTraced m 0).trace).count (l.index 0xfffffe 1) = 0 ∧
      (writtenPlaces (f.fillPassTraced m 0).trace).count (l.index 0xfffffe 255) = 1 ∧
      (writtenPlaces (f.fillTraced m).trace).count (l.index 0xfffffe 1) = 1 ∧
      (writtenPlaces (f.fillTraced m).trace).count (l.index 0xfffffe 255) = 2 := by
  intro p l f m
  have hp : p.fault? = none := by decide
  have hm : m.size = l.total.toNat := Array.size_replicate
  obtain ⟨-, -, hwrites⟩ := cells_written_once p hp
  obtain ⟨-, -, hpass, hfill⟩ := hwrites 2 .argon2id m hm
  have hlane : (0xfffffe : UInt32) < p.lanes := by decide
  have hfirst : (1 : UInt32) < l.laneLength := by decide
  have hlast : (255 : UInt32) < l.laneLength := by decide
  exact ⟨hp, hm, by decide, (hpass 0).1 _ hlane _ hfirst, (hpass 0).1 _ hlane _ hlast,
    hfill _ hlane _ hfirst, hfill _ hlane _ hlast⟩

end SymmetricCrypto.Argon2
