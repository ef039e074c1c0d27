import Mathlib
import SymmetricCrypto.Proofs.Argon2.Dimensions
import SymmetricCrypto.Proofs.Argon2.Mixing

/-!
# The window is the standard's list

The standard picks the reference block from an explicit list of columns (`Standard.window`). The
choice instead counts the list (`windowSize`), knows where it begins (`windowStart`), and steps
around the lane. `choose_eq_reference` shows that both name the same block.

The list is a run of columns around the lane: it begins after the current slice, or at zero in the
first pass, and each entry is one after the entry before it, modulo the length of the lane
(`window_eq_run`). So the list is determined by its first entry and its length. What is left is that
the words of the choice do not wrap. The length is positive, since a segment has two blocks and the
first two blocks of a lane are given (`count_pos`), so no subtraction goes below zero.

A block of the list is one of the own lane or lies outside of the current slice (`reference_mem`).
-/

namespace SymmetricCrypto.Argon2

namespace Standard

/-! ## The list as a run around the lane -/

/-- The numbers from `start` on, modulo `q`. -/
def run (q start length : Nat) : List Nat := (List.range length).map fun k => (start + k) % q

/-- The first column of a window. In the last slice it is the length of the lane, and so zero again.
-/
def oldest (segment pass slice : Nat) : Nat := if pass = 0 then 0 else (slice + 1) * segment

/-- The number of columns of a window. -/
def count (segment pass slice index : Nat) (own : Bool) : Nat :=
  (if pass = 0 then slice else 3) * segment + (if own then index else 0) -
    (if own ∨ index = 0 then 1 else 0)

/-- The columns of consecutive slices are consecutive. -/
theorem flatMap_slices (segment start n : Nat) :
    (List.range' start n).flatMap (fun s => List.range' (s * segment) segment) =
      List.range' (start * segment) (n * segment) := by
  induction n generalizing start with
  | zero => simp
  | succ n ih =>
    have hstep : start * segment + segment = (start + 1) * segment := by ring
    have hlength : (n + 1) * segment = segment + n * segment := by ring
    rw [List.range'_succ, List.flatMap_cons, ih, hlength, ← hstep, List.range'_append_1]

/-- A run that ends at `q` or before is a range. -/
theorem run_of_le (q start length : Nat) (h : start + length ≤ q) :
    run q start length = List.range' start length := by
  unfold run
  rw [List.range'_eq_map_range]
  refine List.map_congr_left fun k hk => ?_
  rw [List.mem_range] at hk
  exact Nat.mod_eq_of_lt (by omega)

/-- A run that goes around goes on at zero. -/
theorem run_around (q start length : Nat) (h : start ≤ q) (hlength : length ≤ q) :
    run q start (q - start + length) = List.range' start (q - start) ++ List.range' 0 length := by
  rw [← run_of_le q start (q - start) (by omega), ← run_of_le q 0 length (by omega)]
  unfold run
  rw [List.range_add, List.map_append, List.map_map]
  congr 1
  refine List.map_congr_left fun k _ => ?_
  show (start + (q - start + k)) % q = (0 + k) % q
  rw [← Nat.add_assoc, Nat.add_sub_cancel' h, Nat.add_mod_left, Nat.zero_add]

/-- A run without its last entry. -/
theorem dropLast_run (q start length : Nat) :
    (run q start length).dropLast = run q start (length - 1) := by
  unfold run
  cases length with
  | zero => rfl
  | succ n => rw [List.range_succ, List.map_append, List.map_singleton, List.dropLast_concat]; rfl

/-- The columns of the finished segments, and in the own lane those of the current one, are a run.
-/
theorem finished_append_eq_run (segment pass slice index : Nat) (hslice : slice < 4)
    (hindex : index ≤ segment) :
    finished segment pass slice ++ List.range' (slice * segment) index =
      run (4 * segment) (oldest segment pass slice)
        ((if pass = 0 then slice else 3) * segment + index) := by
  have hbefore : slice * segment + index ≤ 4 * segment := by
    interval_cases slice <;> omega
  -- The own columns come right after the slices before the current one.
  have hcurrent : List.range' 0 (slice * segment) ++ List.range' (slice * segment) index =
      List.range' 0 (slice * segment + index) := by
    have happend := List.range'_append_1 (s := 0) (m := slice * segment) (n := index)
    rwa [Nat.zero_add] at happend
  unfold finished oldest
  rw [List.flatMap_append, List.append_assoc, List.range_eq_range', flatMap_slices, Nat.zero_mul,
    hcurrent]
  by_cases hpass : pass = 0
  · -- In the first pass they are the columns from zero on.
    rw [if_pos hpass, if_pos hpass, if_pos hpass, List.flatMap_nil, List.nil_append,
      run_of_le _ _ _ (by omega)]
  · -- Later they begin after the current slice and go on around the lane.
    have hlast : (3 - slice) * segment = 4 * segment - (slice + 1) * segment := by
      interval_cases slice <;> omega
    have hlength : 3 * segment + index =
        4 * segment - (slice + 1) * segment + (slice * segment + index) := by
      interval_cases slice <;> omega
    have hstart : (slice + 1) * segment ≤ 4 * segment := Nat.mul_le_mul_right _ (by omega)
    rw [if_neg hpass, if_neg hpass, if_neg hpass, flatMap_slices, hlast, hlength,
      run_around _ _ _ hstart hbefore]

/-- The window is a run around the lane. -/
theorem window_eq_run (segment pass slice index : Nat) (own : Bool) (hslice : slice < 4)
    (hindex : index ≤ segment) :
    window segment pass slice index own =
      run (4 * segment) (oldest segment pass slice) (count segment pass slice index own) := by
  have hcurrent : (if own then List.range' (slice * segment) index else []) =
      List.range' (slice * segment) (if own then index else 0) := by
    cases own <;> rfl
  have hlength : (if own then index else 0) ≤ segment := by
    split_ifs <;> omega
  unfold window count
  dsimp only
  rw [hcurrent, finished_append_eq_run _ _ _ _ hslice hlength, dropLast_run]
  split_ifs <;> rfl

/-- A window is not empty, unless it is the own lane's before its third block. -/
theorem count_pos (segment pass slice index : Nat) (own : Bool) (hsegment : 2 ≤ segment)
    (hfirst : pass = 0 → slice = 0 → own ∧ 2 ≤ index) :
    0 < count segment pass slice index own := by
  have hslices : pass = 0 ∧ slice = 0 ∨ segment ≤ (if pass = 0 then slice else 3) * segment := by
    by_cases hpass : pass = 0
    · rcases Nat.eq_zero_or_pos slice with hslice | hslice
      · exact Or.inl ⟨hpass, hslice⟩
      · rw [if_pos hpass]
        exact Or.inr (Nat.le_mul_of_pos_left _ hslice)
    · rw [if_neg hpass]
      exact Or.inr (by omega)
  unfold count
  rcases hslices with ⟨hpass, hslice⟩ | hslices
  · obtain ⟨hown, hindex⟩ := hfirst hpass hslice
    rw [if_pos hown]
    split_ifs <;> omega
  · split_ifs at hslices ⊢ <;> omega

/-- A choice picks an entry of a list that is not empty. -/
theorem pick_mem (columns : List Nat) (choice : Nat) (h : 0 < columns.length) :
    pick columns choice ∈ columns := by
  unfold pick
  dsimp only
  rw [List.getD_eq_getElem _ _ (by omega)]
  exact List.getElem_mem _

/-- A choice counts back from the last entry of a run. -/
theorem pick_run (q start length choice : Nat) (h : 0 < length) :
    pick (run q start length) choice =
      (start + (length - 1 - length * (choice^2 / 2^32) / 2^32)) % q := by
  have hlength : (run q start length).length = length := by
    unfold run
    rw [List.length_map, List.length_range]
  unfold pick
  dsimp only
  rw [List.getD_eq_getElem _ _ (by omega)]
  simp only [hlength]
  unfold run
  rw [List.getElem_map, List.getElem_range]

/-- An entry of a window is a column of the lane, and in another lane it is not one of the current
slice. -/
theorem mem_window {segment pass slice index column : Nat} {own : Bool} (hslice : slice < 4)
    (hindex : index ≤ segment) (h : column ∈ window segment pass slice index own) :
    column < 4 * segment ∧ (own ∨ column < slice * segment ∨ (slice + 1) * segment ≤ column) := by
  -- Whether its last column is left out or not, the window is made of these.
  have hmem : column ∈ finished segment pass slice ++
      if own then List.range' (slice * segment) index else [] := by
    unfold window at h
    dsimp only at h
    by_cases hlast : own ∨ index = 0
    · rw [if_pos hlast] at h
      exact List.mem_of_mem_dropLast h
    · rwa [if_neg hlast] at h
  rw [List.mem_append] at hmem
  rcases hmem with hmem | hmem
  · -- A finished segment is one of another slice.
    unfold finished at hmem
    obtain ⟨s, hs, hcolumn⟩ := List.mem_flatMap.mp hmem
    have hother : s < 4 ∧ (s < slice ∨ slice < s) := by
      rw [List.mem_append, List.mem_range] at hs
      split_ifs at hs
      · simp only [List.not_mem_nil, false_or] at hs
        omega
      · rw [List.mem_range'_1] at hs
        omega
    rw [List.mem_range'_1] at hcolumn
    obtain ⟨hs4, hs⟩ := hother
    have hend : (s + 1) * segment ≤ 4 * segment := Nat.mul_le_mul_right _ hs4
    have hsucc : (s + 1) * segment = s * segment + segment := by ring
    refine ⟨by omega, Or.inr ?_⟩
    rcases hs with hs | hs
    · have hle : (s + 1) * segment ≤ slice * segment := Nat.mul_le_mul_right _ hs
      omega
    · have hle : (slice + 1) * segment ≤ s * segment := Nat.mul_le_mul_right _ hs
      omega
  · -- The current segment is only in the own window.
    split_ifs at hmem with hown
    · rw [List.mem_range'_1] at hmem
      have hend : (slice + 1) * segment ≤ 4 * segment := Nat.mul_le_mul_right _ hslice
      have hsucc : (slice + 1) * segment = slice * segment + segment := by ring
      exact ⟨by omega, Or.inl hown⟩
    · exact absurd hmem List.not_mem_nil

/-- A block that is filled: its segment is one of the matrix, and the block is not given. -/
structure Setting.Valid (s : Setting) (a : Place) : Prop where
  /-- One of the four slices. -/
  slice_lt : a.slice < 4
  /-- One of the lanes. -/
  lane_lt : a.lane < s.lanes
  /-- Not a block that is given. -/
  first_le : Setting.first a.pass a.slice ≤ a.index
  /-- A block of the segment. -/
  index_lt : a.index < s.segment

/-- A window of a block that is filled is not empty. -/
theorem count_pos_of_valid {s : Setting} {a : Place} (h : s.Valid a) (hsegment : 2 ≤ s.segment)
    (word : UInt64) :
    0 < count s.segment a.pass a.slice a.index ((s.reference a word).1 = a.lane) := by
  have hfirst := h.first_le
  refine count_pos _ _ _ _ _ hsegment fun hpass hslice => ?_
  -- In the first slice the lane is the own one, and two blocks are given.
  rw [Setting.first, if_pos ⟨hpass, hslice⟩] at hfirst
  refine ⟨decide_eq_true ?_, hfirst⟩
  unfold Setting.reference
  exact if_pos ⟨hpass, hslice⟩

/-- The reference block is a block of the matrix. It is in the own lane, or it is outside of the
slice. -/
theorem reference_mem {s : Setting} {a : Place} (h : s.Valid a) (hlanes : 0 < s.lanes)
    (hsegment : 2 ≤ s.segment) (word : UInt64) :
    (s.reference a word).1 < s.lanes ∧ (s.reference a word).2 < 4 * s.segment ∧
      ((s.reference a word).1 = a.lane ∨ (s.reference a word).2 < a.slice * s.segment ∨
        (a.slice + 1) * s.segment ≤ (s.reference a word).2) := by
  have hcount := count_pos_of_valid h hsegment word
  obtain ⟨hslice, hlane, hfirst, hindex⟩ := h
  have hlane' : (s.reference a word).1 < s.lanes := by
    unfold Setting.reference
    dsimp only
    split_ifs
    · exact hlane
    · exact Nat.mod_lt _ hlanes
  -- The chosen column is one of the window, which is not empty.
  have hmem : (s.reference a word).2 ∈
      window s.segment a.pass a.slice a.index ((s.reference a word).1 = a.lane) := by
    refine pick_mem _ _ ?_
    rw [window_eq_run _ _ _ _ _ hslice hindex.le]
    unfold run
    rw [List.length_map, List.length_range]
    exact hcount
  obtain ⟨hcolumn, hother⟩ := mem_window hslice hindex.le hmem
  exact ⟨hlane', hcolumn, hother.imp_left of_decide_eq_true⟩

end Standard

open Standard

/-! ## The words of the choice -/

/-- The block at an index of a segment, by natural numbers. -/
def Position.place (p : Position) (index : UInt32) : Standard.Place where
  pass := p.pass.toNat
  slice := p.slice.toNat
  lane := p.lane.toNat
  index := index.toNat

/-- The square of a choice and its product with the size stay below `2^64`, and the step back stays
in the window. -/
theorem distance_steps {size choice : UInt64} (hsize : 0 < size.toNat) (hsize' : size.toNat < 2^32)
    (hchoice : choice.toNat < 2^32) :
    (choice * choice).toNat = choice.toNat * choice.toNat ∧
      ((choice * choice) >>> 32).toNat = choice.toNat^2 / 2^32 ∧
      (size * ((choice * choice) >>> 32)).toNat = size.toNat * (choice.toNat^2 / 2^32) ∧
      ((size * ((choice * choice) >>> 32)) >>> 32).toNat =
        size.toNat * (choice.toNat^2 / 2^32) / 2^32 ∧
      (size - 1).toNat = size.toNat - 1 ∧
      size.toNat * (choice.toNat^2 / 2^32) / 2^32 < size.toNat := by
  have hone : (1 : UInt64).toNat = 1 := rfl
  have hhalf : (32 : UInt64).toNat % 64 = 32 := rfl
  -- No product reaches `2^64`, since both factors have 32 bits.
  have hsquare : choice.toNat * choice.toNat < 2^32 * 2^32 := Nat.mul_lt_mul'' hchoice hchoice
  have hx : choice.toNat^2 / 2^32 < 2^32 := by
    rw [pow_two]
    exact Nat.div_lt_of_lt_mul hsquare
  have hproduct : size.toNat * (choice.toNat^2 / 2^32) < 2^32 * size.toNat := by
    rw [Nat.mul_comm]
    exact Nat.mul_lt_mul_of_pos_right hx hsize
  have hback : size.toNat * (choice.toNat^2 / 2^32) / 2^32 < size.toNat :=
    Nat.div_lt_of_lt_mul hproduct
  -- So each operation on words is that on numbers.
  have hsquare' : (choice * choice).toNat = choice.toNat * choice.toNat := by
    rw [UInt64.toNat_mul, Nat.mod_eq_of_lt (by omega)]
  have hx' : ((choice * choice) >>> 32).toNat = choice.toNat^2 / 2^32 := by
    rw [UInt64.toNat_shiftRight, hhalf, hsquare', Nat.shiftRight_eq_div_pow, pow_two]
  have hproduct' : (size * ((choice * choice) >>> 32)).toNat =
      size.toNat * (choice.toNat^2 / 2^32) := by
    rw [UInt64.toNat_mul, hx', Nat.mod_eq_of_lt (by omega)]
  have hback' : ((size * ((choice * choice) >>> 32)) >>> 32).toNat =
      size.toNat * (choice.toNat^2 / 2^32) / 2^32 := by
    rw [UInt64.toNat_shiftRight, hhalf, hproduct', Nat.shiftRight_eq_div_pow]
  have hnewest : (size - 1).toNat = size.toNat - 1 := by
    rw [UInt64.toNat_sub_of_le _ _ (by rw [UInt64.le_iff_toNat_le, hone]; exact hsize), hone]
  exact ⟨hsquare', hx', hproduct', hback', hnewest, hback⟩

/-- The distance is the one of natural numbers. -/
theorem toNat_distance (size choice : UInt64) (hsize : 0 < size.toNat) (hsize' : size.toNat < 2^32)
    (hchoice : choice.toNat < 2^32) :
    (distance size choice).toNat =
      size.toNat - 1 - size.toNat * (choice.toNat^2 / 2^32) / 2^32 := by
  obtain ⟨-, -, -, hback', hnewest, hback⟩ := distance_steps hsize hsize' hchoice
  unfold distance
  dsimp only
  rw [UInt64.toNat_sub_of_le _ _ (by rw [UInt64.le_iff_toNat_le, hback', hnewest]; omega), hback',
    hnewest]

/-- A step around the lane is one of natural numbers. -/
theorem toNat_around {start size length : UInt32} {choice : UInt64} (hsize : 0 < size.toNat)
    (hlength : 0 < length.toNat) (hchoice : choice.toNat < 2^32) :
    ((start.toUInt64 + distance size.toUInt64 choice) % length.toUInt64).toUInt32.toNat =
      (start.toNat + (size.toNat - 1 - size.toNat * (choice.toNat^2 / 2^32) / 2^32)) %
        length.toNat := by
  have hsize_lt := size.toNat_lt
  have hstart_lt := start.toNat_lt
  have hlength_lt := length.toNat_lt
  have hdistance := toNat_distance size.toUInt64 choice
    (by rw [UInt32.toNat_toUInt64]; exact hsize) (by rw [UInt32.toNat_toUInt64]; exact hsize_lt)
    hchoice
  rw [UInt32.toNat_toUInt64] at hdistance
  rw [UInt64.toNat_toUInt32, UInt64.toNat_mod, UInt64.toNat_add, hdistance, UInt32.toNat_toUInt64,
    UInt32.toNat_toUInt64]
  generalize size.toNat * (choice.toNat^2 / 2^32) / 2^32 = back
  -- The sum is below `2^33`, and its remainder is a column.
  have hlt := Nat.mod_lt (start.toNat + (size.toNat - 1 - back)) hlength
  rw [Nat.mod_eq_of_lt (b := 2^64) (by omega), Nat.mod_eq_of_lt (b := 2^32) (by omega)]

/-- A word is zero exactly if its number is. -/
theorem eq_zero_iff_toNat (x : UInt32) : x = 0 ↔ x.toNat = 0 := UInt32.toNat_inj.symm

/-- The first slice of the first pass, in words and in numbers. -/
theorem given_iff_toNat (p : Position) :
    p.pass = 0 ∧ p.slice = 0 ↔ p.pass.toNat = 0 ∧ p.slice.toNat = 0 :=
  and_congr (eq_zero_iff_toNat _) (eq_zero_iff_toNat _)

/-- One less than a word that is not zero. -/
theorem toNat_sub_one {x : UInt32} (h : 0 < x.toNat) : (x - 1).toNat = x.toNat - 1 := by
  have hone : (1 : UInt32).toNat = 1 := rfl
  have hle : 1 ≤ x := by
    rw [UInt32.le_iff_toNat_le, hone]
    exact h
  rw [UInt32.toNat_sub_of_le _ _ hle, hone]

section Regular

variable {l : Layout} (hl : l.Regular)
include hl

/-- The starts of the four slices do not wrap. -/
theorem toNat_slice_mul (n : UInt32) (hn : n.toNat ≤ 4) :
    (n * l.segmentLength).toNat = n.toNat * l.segmentLength.toNat := by
  have hlane := l.laneLength.toNat_lt
  rw [hl.laneLength_eq] at hlane
  have hle : n.toNat * l.segmentLength.toNat ≤ 4 * l.segmentLength.toNat :=
    Nat.mul_le_mul_right _ hn
  rw [UInt32.toNat_mul, Nat.mod_eq_of_lt (by omega)]

variable {p : Position} (hslice : p.slice.toNat < 4)
include hslice

/-- A window begins at the oldest column of the standard's. -/
theorem toNat_windowStart :
    (windowStart l p).toNat % l.laneLength.toNat =
      oldest l.segmentLength.toNat p.pass.toNat p.slice.toNat % l.laneLength.toNat := by
  have hthree : p.slice = 3 ↔ p.slice.toNat = 3 := UInt32.toNat_inj.symm
  have hone : (1 : UInt32).toNat = 1 := rfl
  have hnext : (p.slice + 1).toNat = p.slice.toNat + 1 := by
    rw [UInt32.toNat_add, hone, Nat.mod_eq_of_lt (by omega)]
  unfold windowStart oldest
  by_cases hpass : p.pass.toNat = 0
  · rw [if_pos hpass, if_pos (Or.inl ((eq_zero_iff_toNat _).mpr hpass))]
    rfl
  · have hpass' : p.pass ≠ 0 := fun h => hpass ((eq_zero_iff_toNat _).mp h)
    rw [if_neg hpass]
    by_cases hlast : p.slice.toNat = 3
    · rw [if_pos (Or.inr (hthree.mpr hlast)), hlast, hl.laneLength_eq, Nat.mod_self]
      rfl
    · have hor : ¬(p.pass = 0 ∨ p.slice = 3) := by
        rintro (h | h)
        · exact hpass' h
        · exact hlast (hthree.mp h)
      rw [if_neg hor, toNat_slice_mul hl _ (by omega), hnext]

/-- The finished blocks of a lane are whole segments, three at most. -/
theorem toNat_finished :
    (if p.pass = 0 then p.base l else l.laneLength - l.segmentLength).toNat =
        (if p.pass.toNat = 0 then p.slice.toNat else 3) * l.segmentLength.toNat ∧
      (if p.pass.toNat = 0 then p.slice.toNat else 3) * l.segmentLength.toNat ≤
        3 * l.segmentLength.toNat := by
  have hlength := hl.laneLength_eq
  constructor
  · by_cases hpass : p.pass.toNat = 0
    · rw [if_pos hpass, if_pos ((eq_zero_iff_toNat _).mpr hpass)]
      exact toNat_slice_mul hl _ (by omega)
    · rw [if_neg hpass, if_neg fun h => hpass ((eq_zero_iff_toNat _).mp h),
        UInt32.toNat_sub_of_le _ _ (by rw [UInt32.le_iff_toNat_le]; omega)]
      omega
  · refine Nat.mul_le_mul_right _ ?_
    split_ifs <;> omega

/-- A window has as many columns as the standard's. -/
theorem toNat_windowSize {index : UInt32} {own : Bool}
    (hindex : index.toNat < l.segmentLength.toNat)
    (hpos : 0 < count l.segmentLength.toNat p.pass.toNat p.slice.toNat index.toNat own) :
    (windowSize l p index own).toNat =
      count l.segmentLength.toNat p.pass.toNat p.slice.toNat index.toNat own := by
  have hlane := l.laneLength.toNat_lt
  have hlength := hl.laneLength_eq
  obtain ⟨hfinished, hfinished_le⟩ := toNat_finished hl hslice
  unfold windowSize count
  unfold count at hpos
  dsimp only
  generalize (if p.pass = 0 then p.base l else l.laneLength - l.segmentLength) = finished
    at hfinished ⊢
  rw [← hfinished] at hpos hfinished_le ⊢
  cases own with
  | true =>
    -- The own window also has the blocks of the segment, less the one before the new block.
    have hsum : (finished + index).toNat = finished.toNat + index.toNat := by
      rw [UInt32.toNat_add, Nat.mod_eq_of_lt (by omega)]
    simp only [if_true, true_or] at hpos ⊢
    rw [toNat_sub_one (by rw [hsum]; omega), hsum]
  | false =>
    -- Another lane's has the finished blocks, less the last one for the first block of a segment.
    simp only [Bool.false_eq_true, if_false, false_or, Nat.add_zero] at hpos ⊢
    by_cases hzero : index.toNat = 0
    · rw [if_pos hzero] at hpos ⊢
      rw [if_pos ((eq_zero_iff_toNat _).mpr hzero), toNat_sub_one (by omega)]
    · rw [if_neg hzero, if_neg fun h => hzero ((eq_zero_iff_toNat _).mp h), UInt32.sub_zero,
        Nat.sub_zero]

end Regular

/-- The lane of a choice is the standard's. -/
theorem toNat_fst_choose (f : Plan) (p : Position) (index : UInt32) (word : UInt64) :
    (choose f.layout p index word).1.toNat = (f.setting.reference (p.place index) word).1 := by
  have hword := word.toNat_lt
  have hhalf : (32 : UInt64).toNat % 64 = 32 := rfl
  have hother : ((word >>> 32).toUInt32 % f.layout.lanes).toNat =
      word.toNat / 2^32 % f.layout.lanes.toNat := by
    rw [UInt32.toNat_mod, UInt64.toNat_toUInt32, UInt64.toNat_shiftRight, hhalf,
      Nat.shiftRight_eq_div_pow]
    congr 1
    exact Nat.mod_eq_of_lt (by omega)
  unfold choose Setting.reference
  dsimp only
  by_cases hfirst : p.pass.toNat = 0 ∧ p.slice.toNat = 0
  · rw [if_pos ((given_iff_toNat p).mpr hfirst)]
    exact (if_pos hfirst).symm
  · rw [if_neg fun h => hfirst ((given_iff_toNat p).mp h), hother]
    exact (if_neg hfirst).symm

/-- The window of a choice is not empty. -/
theorem count_choose_pos {f : Plan} (hf : f.layout.Regular) {p : Position} {index : UInt32}
    (h : f.setting.Valid (p.place index)) (word : UInt64) :
    0 < count f.layout.segmentLength.toNat p.pass.toNat p.slice.toNat index.toNat
      ((choose f.layout p index word).1 = p.lane) := by
  have hsegment := Plan.segment_setting hf
  have hown : decide ((choose f.layout p index word).1 = p.lane) =
      decide ((f.setting.reference (p.place index) word).1 = (p.place index).lane) := by
    rw [← toNat_fst_choose]
    exact decide_eq_decide.mpr UInt32.toNat_inj.symm
  rw [hown, ← hsegment]
  exact count_pos_of_valid h (by rw [hsegment]; exact hf.two_le_segment) word

/-- The choice is the standard's reference block. -/
theorem choose_eq_reference {f : Plan} (hf : f.layout.Regular) {p : Position} {index : UInt32}
    (h : f.setting.Valid (p.place index)) (word : UInt64) :
    ((choose f.layout p index word).1.toNat, (choose f.layout p index word).2.toNat) =
      f.setting.reference (p.place index) word := by
  have hlane := toNat_fst_choose f p index word
  have hsegment := Plan.segment_setting hf
  have hslice : p.slice.toNat < 4 := h.slice_lt
  have hindex : index.toNat < f.layout.segmentLength.toNat := hsegment ▸ h.index_lt
  -- The window is the own one for both.
  have hown : decide ((f.setting.reference (p.place index) word).1 = (p.place index).lane) =
      decide ((choose f.layout p index word).1 = p.lane) := by
    rw [← hlane]
    exact decide_eq_decide.mpr UInt32.toNat_inj
  have hpos := count_choose_pos hf h word
  have hcolumn : (f.setting.reference (p.place index) word).2 =
      pick (window f.setting.segment p.pass.toNat p.slice.toNat index.toNat
        ((f.setting.reference (p.place index) word).1 = (p.place index).lane))
          (word.toNat % 2^32) := rfl
  have hcolumn' : (choose f.layout p index word).2 =
      (((windowStart f.layout p).toUInt64 +
        distance (windowSize f.layout p index ((choose f.layout p index word).1 = p.lane)).toUInt64
          (word &&& 0xffffffff)) % f.layout.laneLength.toUInt64).toUInt32 := rfl
  -- Both step from the oldest column, by the same number of columns.
  have hsize := toNat_windowSize hf hslice hindex hpos
  generalize hcount : count f.layout.segmentLength.toNat p.pass.toNat p.slice.toNat index.toNat
    ((choose f.layout p index word).1 = p.lane) = columns at hpos hsize
  have hstart := toNat_windowStart hf hslice
  have hlength := hf.laneLength_pos
  refine Prod.ext hlane ?_
  calc (choose f.layout p index word).2.toNat
      = ((windowStart f.layout p).toNat +
          (columns - 1 - columns * ((word.toNat % 2^32)^2 / 2^32) / 2^32)) %
          f.layout.laneLength.toNat := by
        rw [hcolumn', toNat_around (by rw [hsize]; exact hpos) hlength
          (by rw [toNat_and_low]; exact Nat.mod_lt _ (by decide)), hsize, toNat_and_low]
    _ = (oldest f.layout.segmentLength.toNat p.pass.toNat p.slice.toNat +
          (columns - 1 - columns * ((word.toNat % 2^32)^2 / 2^32) / 2^32)) %
          (4 * f.layout.segmentLength.toNat) := by
        rw [Nat.add_mod, hstart, ← Nat.add_mod, hf.laneLength_eq]
    _ = pick (run (4 * f.layout.segmentLength.toNat)
          (oldest f.layout.segmentLength.toNat p.pass.toNat p.slice.toNat) columns)
          (word.toNat % 2^32) := (pick_run _ _ _ _ hpos).symm
    _ = (f.setting.reference (p.place index) word).2 := by
        rw [hcolumn, hown, hsegment, window_eq_run _ _ _ _ _ hslice hindex.le, hcount]

end SymmetricCrypto.Argon2
