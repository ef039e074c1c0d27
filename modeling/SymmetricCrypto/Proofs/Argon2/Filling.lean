import Mathlib
import SymmetricCrypto.Proofs.Argon2.Interleaving

/-!
# The memory is filled as the standard fills its matrix

All lanes of a slice are filled into buffers, and then the buffers are stored. Storing a buffer lays
it over the memory (`matrix_store`), and it does not touch what another lane has stored
(`matrix_fillSlice`). So the memory after a slice is the matrix that any complete order of its
blocks gives in place, and lane after lane is one of these orders (`complete_slicePlaces`). The
passes follow by induction (`same_fill`). -/

namespace SymmetricCrypto.Argon2

open Standard

/-- A block that is stored is found where it was stored. -/
theorem getD_setIfInBounds (m : Memory) (i n : Nat) (block : Block) :
    (m.setIfInBounds i block).getD n Block.zero =
      if n = i ∧ i < m.size then block else m.getD n Block.zero := by
  simp only [Array.getD_eq_getD_getElem?]
  rw [Array.getElem?_setIfInBounds]
  by_cases hplace : n = i
  · by_cases hsize : i < m.size
    · rw [if_pos hplace.symm, if_pos hsize, if_pos ⟨hplace, hsize⟩]
      rfl
    · have hnone : m[n]? = none := Array.getElem?_eq_none (by omega)
      rw [if_pos hplace.symm, if_neg hsize, if_neg fun h => hsize h.2, hnone]
  · rw [if_neg (Ne.symm hplace), if_neg fun h => hplace h.1]

/-- Blocks that are stored one after another are found where they were stored. -/
theorem getD_foldl_setIfInBounds (c : Nat) (blocks : List Block) (first : Nat) (m : Memory)
    (hsize : c + first + blocks.length ≤ m.size) (n : Nat) :
    (((List.range' first blocks.length).zip blocks).foldl
      (fun m entry => m.setIfInBounds (c + entry.1) entry.2) m).getD n Block.zero =
        if c + first ≤ n ∧ n < c + first + blocks.length then
          blocks.getD (n - (c + first)) Block.zero
        else m.getD n Block.zero := by
  induction blocks generalizing first m with
  | nil =>
    rw [if_neg (by simp only [List.length_nil]; omega)]
    rfl
  | cons block blocks ih =>
    rw [List.length_cons] at hsize ⊢
    have hset : (m.setIfInBounds (c + first) block).size = m.size := Array.size_setIfInBounds
    rw [List.range'_succ, List.zip_cons_cons, List.foldl_cons, ih _ _ (by rw [hset]; omega)]
    rw [getD_setIfInBounds]
    by_cases hfirst : n = c + first
    · -- The first block is not written over by the others.
      rw [if_neg (by omega), if_pos ⟨hfirst, by omega⟩, if_pos (by omega), hfirst, Nat.sub_self,
        List.getD_cons_zero]
    · by_cases hrest : c + (first + 1) ≤ n ∧ n < c + (first + 1) + blocks.length
      · have hindex : n - (c + first) = n - (c + (first + 1)) + 1 := by omega
        rw [if_pos hrest, if_pos (by omega), hindex, List.getD_cons_succ]
      · rw [if_neg hrest, if_neg fun h => hfirst h.1, if_neg (by omega)]

namespace Plan

variable {f : Plan} {m : Memory}

/-- Storing keeps the size of the memory. -/
@[simp] theorem size_store (m : Memory) (p : Position) (blocks : Array Block) :
    (f.store m p blocks).size = m.size := by
  unfold store
  induction (f.indices p).zip blocks.toList generalizing m with
  | nil => rfl
  | cons entry entries ih =>
    rw [List.foldl_cons, ih]
    exact Array.size_setIfInBounds

/-- A lane sees of the memory what is in its part of the memory. -/
theorem overlay_congr {m' : Memory} {lane column : Nat}
    (h : f.matrix m lane column = f.matrix m' lane column) (p : Position) (written : Array Block) :
    f.overlay m p written lane column = f.overlay m' p written lane column := by
  unfold overlay
  dsimp only
  rw [h]

variable (hf : f.layout.Regular)
include hf

/-- The blocks of a segment are stored one after another. -/
theorem store_eq_foldl {p : Position} (hslice : p.slice.toNat < 4) (m : Memory)
    {written : Array Block} (hwritten : written.size = f.blocks p) :
    f.store m p written =
      ((List.range' (Setting.first p.pass.toNat p.slice.toNat) written.toList.length).zip
        written.toList).foldl (fun m entry =>
          m.setIfInBounds (p.lane.toNat * f.layout.laneLength.toNat +
            p.slice.toNat * f.setting.segment + entry.1) entry.2) m := by
  have hsegment := segment_setting hf
  have hsegment_lt := f.layout.segmentLength.toNat_lt
  have hfirst := first_le_two p.pass.toNat p.slice.toNat
  have htwo := hf.two_le_segment
  have hindices : f.indices p = (List.range' (Setting.first p.pass.toNat p.slice.toNat)
      written.toList.length).map UInt32.ofNat := by
    unfold indices
    rw [Array.length_toList, hwritten, toNat_first, ← hsegment]
    rfl
  unfold store
  rw [hindices, List.zip_map_left, List.foldl_map]
  refine List.foldl_ext _ _ _ fun m' entry hentry => ?_
  have hindex := (List.of_mem_zip hentry).1
  rw [List.mem_range'_1, Array.length_toList, hwritten] at hindex
  unfold blocks at hindex
  -- The indices are those of a segment, so they fit a word.
  have htoNat : (UInt32.ofNat entry.1).toNat = entry.1 := by
    rw [UInt32.toNat_ofNat', Nat.mod_eq_of_lt (by omega)]
  have hcolumn := toNat_base_add hf hslice (UInt32.ofNat entry.1) (by omega)
  rw [htoNat] at hcolumn
  show m'.setIfInBounds (p.lane.toNat * f.layout.laneLength.toNat +
    (p.base f.layout + UInt32.ofNat entry.1).toNat) entry.2 = _
  rw [hcolumn, Nat.add_assoc]

/-- Storing the blocks of a segment lays them over the memory. -/
theorem matrix_store (hm : m.size = f.layout.total.toNat) {p : Position}
    (hslice : p.slice.toNat < 4) (hlane : p.lane.toNat < f.setting.lanes) {written : Array Block}
    (hwritten : written.size = f.blocks p) {lane column : Nat}
    (hcolumn : column < f.setting.columns) :
    f.matrix (f.store m p written) lane column = f.overlay m p written lane column := by
  have hfirst := first_le_two p.pass.toNat p.slice.toNat
  obtain ⟨-, htwo, hcolumns⟩ := even_setting hf
  -- The blocks of the segment end in its slice, and so in its lane and in the memory.
  have hend : f.start p + written.size ≤ f.layout.laneLength.toNat := by
    have hslices : p.slice.toNat * f.setting.segment ≤ 3 * f.setting.segment :=
      Nat.mul_le_mul_right _ (by omega)
    rw [hwritten, ← columns_setting hf, hcolumns]
    unfold start blocks
    omega
  have hplace : p.lane.toNat * f.layout.laneLength.toNat + p.slice.toNat * f.setting.segment +
      Setting.first p.pass.toNat p.slice.toNat =
        p.lane.toNat * f.layout.laneLength.toNat + f.start p := Nat.add_assoc _ _ _
  have hsize : p.lane.toNat * f.layout.laneLength.toNat + p.slice.toNat * f.setting.segment +
      Setting.first p.pass.toNat p.slice.toNat + written.toList.length ≤ m.size := by
    rw [hplace, hm, Array.length_toList, Nat.add_assoc]
    exact hf.place_le hlane hend
  rw [columns_setting hf] at hcolumn
  unfold matrix overlay
  dsimp only
  rw [store_eq_foldl hf hslice m hwritten, getD_foldl_setIfInBounds _ _ _ _ hsize,
    Array.length_toList, hplace]
  by_cases hnew : lane = p.lane.toNat ∧ f.start p ≤ column ∧ column < f.start p + written.size
  · have hindex : p.lane.toNat * f.layout.laneLength.toNat + column -
        (p.lane.toNat * f.layout.laneLength.toNat + f.start p) = column - f.start p := by omega
    rw [if_pos hnew, if_pos ((Layout.place_mem_run hcolumn hend).mpr hnew), hnew.1, hindex,
      List.getD_eq_getElem?_getD, Array.getElem?_toList, Array.getD_eq_getD_getElem?]
  · rw [if_neg hnew, if_neg fun h => hnew ((Layout.place_mem_run hcolumn hend).mp h)]
    rfl

/-- After storing the buffers of some lanes, in any order, these are laid over the memory. -/
theorem matrix_foldl_store (hm : m.size = f.layout.total.toNat) (pass : UInt32) {slice : UInt32}
    (hslice : slice.toNat < 4) {order : List Nat} (hnodup : order.Nodup)
    (horder : ∀ lane ∈ order, lane < f.setting.lanes) :
    let stored := order.foldl (fun m' lane =>
      f.store m' (position pass slice lane) (f.segment m (position pass slice lane))) m
    stored.size = m.size ∧ ∀ lane < f.setting.lanes, ∀ column < f.setting.columns,
      f.matrix stored lane column = if lane ∈ order then
        f.overlay m (position pass slice lane) (f.segment m (position pass slice lane)) lane column
      else f.matrix m lane column := by
  -- By induction on the lanes that are stored: a lane's part of the memory stays until its turn.
  induction order using List.reverseRecOn with
  | nil => exact ⟨rfl, fun lane _ column _ => (if_neg List.not_mem_nil).symm⟩
  | append_singleton order n ih =>
    obtain ⟨hbefore, -, hdisjoint⟩ := List.nodup_append.mp hnodup
    have hn : n < f.setting.lanes :=
      horder n (List.mem_append_right _ (List.mem_singleton_self n))
    have hnew : n ∉ order := fun hmem => hdisjoint n hmem n (List.mem_singleton_self n) rfl
    obtain ⟨hsize, hstored⟩ := ih hbefore fun lane hlane =>
      horder lane (List.mem_append_left _ hlane)
    dsimp only at hsize hstored ⊢
    rw [List.foldl_append, List.foldl_cons, List.foldl_nil]
    generalize order.foldl (fun m' lane =>
      f.store m' (position pass slice lane) (f.segment m (position pass slice lane))) m = m'
      at hsize hstored ⊢
    have hlane := toNat_lane_position (f := f) pass slice hn
    have hwritten : (f.segment m (position pass slice n)).size =
        f.blocks (position pass slice n) := size_segment hf hslice (by rw [hlane]; exact hn)
    refine ⟨by rw [size_store, hsize], fun lane hl column hcolumn => ?_⟩
    rw [matrix_store hf (hsize.trans hm) hslice (by rw [hlane]; exact hn) hwritten hcolumn]
    rcases eq_or_ne lane n with hown | hother
    · -- The lane that is stored is still the memory's before it.
      rw [hown, if_pos (List.mem_append_right _ (List.mem_singleton_self n))]
      refine overlay_congr ?_ _ _
      rw [hstored n hn column hcolumn, if_neg hnew]
    · -- The other lanes are as they were.
      have hmem : lane ∈ order ↔ lane ∈ order ++ [n] := by
        rw [List.mem_append, List.mem_singleton, or_iff_left hother]
      rw [overlay_of_ne (by rw [hlane]; exact hother), hstored lane hl column hcolumn]
      exact if_congr hmem rfl rfl

/-- The memory after a slice is the memory before with all segments laid over it. -/
theorem matrix_fillSlice (hm : m.size = f.layout.total.toNat) (pass : UInt32) {slice : UInt32}
    (hslice : slice.toNat < 4) :
    (f.fillSlice m pass slice).size = m.size ∧
      ∀ lane < f.setting.lanes, ∀ column < f.setting.columns,
        f.matrix (f.fillSlice m pass slice) lane column =
          f.overlay m (position pass slice lane) (f.segment m (position pass slice lane))
            lane column := by
  have hslices : f.fillSlice m pass slice = (List.range f.setting.lanes).foldl (fun m' lane =>
      f.store m' (position pass slice lane) (f.segment m (position pass slice lane))) m := by
    unfold fillSlice laneList
    rw [List.foldl_map, List.foldl_map]
    rfl
  obtain ⟨hsize, hstored⟩ := matrix_foldl_store hf hm pass hslice List.nodup_range
    (fun lane hlane => List.mem_range.mp hlane)
  rw [hslices]
  refine ⟨hsize, fun lane hlane column hcolumn => ?_⟩
  rw [hstored lane hlane column hcolumn, if_pos (List.mem_range.mpr hlane)]

end Plan

namespace Standard

/-- The blocks of a segment are all in its lane. -/
theorem laneIndices_segment (pass slice lane lane' : Nat) (indices : List Nat) :
    laneIndices (indices.map fun index => ⟨pass, slice, lane, index⟩) lane' =
      if lane' = lane then indices else [] := by
  unfold laneIndices
  rw [List.filter_map, List.map_map]
  by_cases h : lane' = lane
  · rw [if_pos h]
    simp [Function.comp_def, h]
  · rw [if_neg h]
    simp [Function.comp_def, Ne.symm h]

/-- The blocks of the first lanes, lane after lane. -/
theorem laneIndices_flatMap (pass slice : Nat) (indices : List Nat) (n lane : Nat) :
    laneIndices ((List.range n).flatMap fun l => indices.map fun index => ⟨pass, slice, l, index⟩)
        lane =
      if lane < n then indices else [] := by
  induction n with
  | zero => rfl
  | succ n ih =>
    have happend : ∀ xs ys : List Place,
        laneIndices (xs ++ ys) lane = laneIndices xs lane ++ laneIndices ys lane := fun xs ys => by
      unfold laneIndices
      rw [List.filter_append, List.map_append]
    rw [List.range_succ, List.flatMap_append, List.flatMap_singleton, happend, ih,
      laneIndices_segment]
    by_cases hlast : lane = n
    · rw [if_neg (by omega), if_pos hlast, if_pos (by omega), List.nil_append]
    · have hbefore : lane < n ↔ lane < n + 1 := by omega
      rw [if_neg hlast, List.append_nil]
      exact if_congr hbefore rfl rfl

/-- Lane after lane is an order of all blocks of a slice. -/
theorem complete_slicePlaces (s : Setting) (pass slice : Nat) :
    s.Complete pass slice (s.slicePlaces pass slice) where
  mem a ha := by
    obtain ⟨lane, hlane, hindex⟩ := List.mem_flatMap.mp ha
    obtain ⟨index, -, rfl⟩ := List.mem_map.mp hindex
    exact ⟨rfl, rfl, List.mem_range.mp hlane⟩
  order lane hlane := by
    unfold Setting.slicePlaces
    rw [laneIndices_flatMap, if_pos hlane]

end Standard

namespace Plan

variable {f : Plan} (hf : f.layout.Regular)
include hf

/-- A memory that holds a matrix holds it after any complete order of the blocks of a slice. -/
theorem same_fillSlice {m : Memory} (hm : m.size = f.layout.total.toNat) {B : Matrix}
    (hB : f.setting.Same B (f.matrix m)) {pass slice : UInt32} (hslice : slice.toNat < 4)
    {places : List Place} (h : f.setting.Complete pass.toNat slice.toNat places) :
    (f.fillSlice m pass slice).size = m.size ∧
      f.setting.Same (places.foldl f.setting.fillBlock B)
        (f.matrix (f.fillSlice m pass slice)) := by
  obtain ⟨hsize, hmatrix⟩ := matrix_fillSlice hf hm pass hslice
  refine ⟨hsize, fun lane hlane column hcolumn => ?_⟩
  rw [hmatrix lane hlane column hcolumn, foldl_fillBlock_of_complete hf hslice hB h hlane hcolumn]

/-- A memory that holds a matrix holds it after a pass. -/
theorem same_fillPass {m : Memory} (hm : m.size = f.layout.total.toNat) {B : Matrix}
    (hB : f.setting.Same B (f.matrix m)) (pass : UInt32) :
    (f.fillPass m pass).size = m.size ∧
      f.setting.Same (f.setting.passFilled B pass.toNat) (f.matrix (f.fillPass m pass)) := by
  -- Lane after lane is one of the complete orders.
  have hslice : ∀ {m' : Memory} {B' : Matrix} (slice : UInt32), slice.toNat < 4 → m'.size = m.size →
      f.setting.Same B' (f.matrix m') → (f.fillSlice m' pass slice).size = m.size ∧
        f.setting.Same (f.setting.sliceFilled pass.toNat B' slice.toNat)
          (f.matrix (f.fillSlice m' pass slice)) := by
    intro m' B' slice hslice hm' hB'
    obtain ⟨hsize, hsame⟩ := same_fillSlice hf (hm'.trans hm) hB' hslice
      (complete_slicePlaces _ pass.toNat slice.toNat)
    exact ⟨hsize.trans hm', hsame⟩
  obtain ⟨hm0, hB0⟩ := hslice 0 (by decide) rfl hB
  obtain ⟨hm1, hB1⟩ := hslice 1 (by decide) hm0 hB0
  obtain ⟨hm2, hB2⟩ := hslice 2 (by decide) hm1 hB1
  exact hslice 3 (by decide) hm2 hB2

/-- A memory that holds a matrix holds it after some passes. -/
theorem same_foldl_fillPass {m : Memory} (hm : m.size = f.layout.total.toNat) {B : Matrix}
    (hB : f.setting.Same B (f.matrix m)) (n : Nat) (hn : n ≤ f.passes.toNat) :
    let filled := (List.range n).foldl (fun m' pass => f.fillPass m' (UInt32.ofNat pass)) m
    filled.size = m.size ∧
      f.setting.Same ((List.range n).foldl f.setting.passFilled B) (f.matrix filled) := by
  induction n with
  | zero => exact ⟨rfl, hB⟩
  | succ n ih =>
    obtain ⟨hsize, hsame⟩ := ih (by omega)
    -- The number of passes fits a word, and so does each pass.
    have hpass : (UInt32.ofNat n).toNat = n := by
      have hlt := f.passes.toNat_lt
      rw [UInt32.toNat_ofNat', Nat.mod_eq_of_lt (by omega)]
    have hnext := same_fillPass hf (hsize.trans hm) hsame (UInt32.ofNat n)
    rw [hpass] at hnext
    dsimp only
    rw [List.range_succ, List.foldl_append, List.foldl_append]
    exact ⟨hnext.1.trans hsize, hnext.2⟩

/-- A memory that holds a matrix holds it after all passes. -/
theorem same_fill {m : Memory} (hm : m.size = f.layout.total.toNat) {B : Matrix}
    (hB : f.setting.Same B (f.matrix m)) :
    f.setting.Same (f.setting.filled B) (f.matrix (f.fill m)) :=
  (same_foldl_fillPass hf hm hB f.passes.toNat le_rfl).2

end Plan

end SymmetricCrypto.Argon2
