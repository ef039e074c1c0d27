import Mathlib
import SymmetricCrypto.Proofs.Argon2.Segment

/-!
# The lanes of a slice may take turns

`tracks_foldl_fillBlock` is the invariant of filling one matrix in place, for blocks of all lanes in
any order that keeps each lane's own. At every moment the matrix is, for each lane, what the lane
sees of its own buffer after as many blocks. The induction is on the blocks filled so far. A new
block goes to its own lane, and it is the block of the buffer by `newBlock_congr`: the lane's part
of the matrix is its overlay, and the columns outside of the slice are still those of the memory.

When all lanes are done, each buffer is the whole segment (`foldl_fillBlock_of_complete`). -/

namespace SymmetricCrypto.Argon2

open Standard

namespace Standard

/-- The indices of a lane's blocks, in the order of the list. -/
def laneIndices (places : List Place) (lane : Nat) : List Nat :=
  (places.filter fun a => a.lane = lane).map Place.index

/-- Some blocks of a slice, in an order that keeps each lane's own and leaves none out. -/
structure Setting.Begun (s : Setting) (pass slice : Nat) (places : List Place) : Prop where
  /-- Only blocks of the slice. -/
  mem : ∀ a ∈ places, a.pass = pass ∧ a.slice = slice ∧ a.lane < s.lanes
  /-- Of each lane the first ones, in its own order. -/
  order : ∀ lane < s.lanes, laneIndices places lane <+:
    List.range' (Setting.first pass slice) (s.segment - Setting.first pass slice)

/-- All blocks of a slice, in an order that keeps each lane's own. -/
structure Setting.Complete (s : Setting) (pass slice : Nat) (places : List Place) : Prop where
  /-- Only blocks of the slice. -/
  mem : ∀ a ∈ places, a.pass = pass ∧ a.slice = slice ∧ a.lane < s.lanes
  /-- Of each lane all, in its own order. -/
  order : ∀ lane < s.lanes, laneIndices places lane =
    List.range' (Setting.first pass slice) (s.segment - Setting.first pass slice)

variable {s : Setting} {pass slice : Nat} {places : List Place} {a : Place}

/-- All blocks are some blocks. -/
theorem Setting.Complete.begun (h : s.Complete pass slice places) : s.Begun pass slice places :=
  ⟨h.mem, fun lane hlane => (h.order lane hlane).symm ▸ List.prefix_rfl⟩

/-- The last block comes after the others of its lane. -/
theorem laneIndices_concat_self :
    laneIndices (places ++ [a]) a.lane = laneIndices places a.lane ++ [a.index] := by
  unfold laneIndices
  rw [List.filter_append, List.map_append]
  simp

/-- The last block is none of another lane. -/
theorem laneIndices_concat_of_ne {lane : Nat} (h : lane ≠ a.lane) :
    laneIndices (places ++ [a]) lane = laneIndices places lane := by
  unfold laneIndices
  rw [List.filter_append, List.map_append]
  simp [Ne.symm h]

/-- The last block is one more of its lane. -/
theorem length_laneIndices_concat (lane : Nat) :
    (laneIndices (places ++ [a]) lane).length =
      if lane = a.lane then (laneIndices places lane).length + 1
      else (laneIndices places lane).length := by
  by_cases h : lane = a.lane
  · rw [if_pos h, h, laneIndices_concat_self, List.length_append, List.length_singleton]
  · rw [if_neg h, laneIndices_concat_of_ne h]

/-- Without the last block they are still some blocks. -/
theorem Setting.Begun.init (h : s.Begun pass slice (places ++ [a])) :
    s.Begun pass slice places := by
  refine ⟨fun b hb => h.mem b (List.mem_append_left _ hb), fun lane hlane => ?_⟩
  refine List.IsPrefix.trans ?_ (h.order lane hlane)
  by_cases hother : lane = a.lane
  · rw [hother, laneIndices_concat_self]
    exact List.prefix_append _ _
  · rw [laneIndices_concat_of_ne hother]

/-- The last block is the next one of its lane. -/
theorem Setting.Begun.last (h : s.Begun pass slice (places ++ [a])) :
    (laneIndices places a.lane).length < s.segment - Setting.first pass slice ∧
      a.index = Setting.first pass slice + (laneIndices places a.lane).length := by
  obtain ⟨-, -, hlane⟩ := h.mem a (List.mem_append_right _ (List.mem_singleton_self a))
  have hprefix := h.order a.lane hlane
  rw [laneIndices_concat_self] at hprefix
  have hlength := hprefix.length_le
  rw [List.length_append, List.length_singleton, List.length_range'] at hlength
  refine ⟨by omega, ?_⟩
  have hget := hprefix.getElem (i := (laneIndices places a.lane).length) (by simp)
  simpa using hget

end Standard

namespace Plan

/-- The segment of a lane in a slice. -/
def position (pass slice : UInt32) (lane : Nat) : Position := ⟨pass, UInt32.ofNat lane, slice⟩

variable {f : Plan} {pass slice : UInt32}

/-- The lanes are counted in words. -/
theorem toNat_lane_position (pass slice : UInt32) {lane : Nat} (h : lane < f.setting.lanes) :
    (position pass slice lane).lane.toNat = lane := by
  have hlanes := f.layout.lanes.toNat_lt
  have hlane : lane < f.layout.lanes.toNat := h
  unfold position
  rw [UInt32.toNat_ofNat', Nat.mod_eq_of_lt (by omega)]

/-- The lanes, by natural numbers. -/
theorem map_toNat_laneList (f : Plan) :
    f.laneList.map UInt32.toNat = List.range f.setting.lanes := by
  have hword := f.layout.lanes.toNat_lt
  unfold laneList
  rw [List.map_map]
  refine (List.map_congr_left fun n hn => ?_).trans (List.map_id _)
  have hlt := List.mem_range.mp hn
  show (UInt32.ofNat n).toNat = n
  rw [UInt32.toNat_ofNat', Nat.mod_eq_of_lt (by omega)]

/-- The lanes of the memory are those of the matrix. -/
theorem mem_laneList {lane : UInt32} : lane ∈ f.laneList ↔ lane.toNat < f.setting.lanes := by
  rw [← List.mem_range, ← map_toNat_laneList]
  exact (List.mem_map_of_injective fun _ _ h => UInt32.toNat_inj.mp h).symm

/-- Each lane of a matrix is what the lane sees of its buffer after a number of blocks. -/
def Tracks (f : Plan) (m : Memory) (pass slice : UInt32) (done : Nat → Nat) (B : Matrix) : Prop :=
  ∀ lane < f.setting.lanes, ∀ column < f.setting.columns,
    B lane column = f.overlay m (position pass slice lane)
      (f.progress m (position pass slice lane) (done lane)).written lane column

/-- Before the first blocks it is what the memory holds. -/
theorem tracks_zero {m : Memory} {B : Matrix} (hB : f.setting.Same B (f.matrix m)) :
    f.Tracks m pass slice (fun _ => 0) B := by
  intro lane hlane column hcolumn
  refine (hB lane hlane column hcolumn).trans (if_neg fun hnew => ?_).symm
  have hempty : (f.progress m (position pass slice lane) 0).written.size = 0 := rfl
  obtain ⟨-, hle, hlt⟩ := hnew
  rw [hempty] at hlt
  omega

variable (hf : f.layout.Regular) (hslice : slice.toNat < 4) {m : Memory} {B : Matrix}
include hf hslice

/-- The next block of a lane is the next one of its buffer, however far the other lanes are. -/
theorem Tracks.fillBlock {done : Nat → Nat} (h : f.Tracks m pass slice done B)
    (hdone : ∀ lane < f.setting.lanes, done lane ≤ f.blocks (position pass slice lane)) {lane : Nat}
    (hlane : lane < f.setting.lanes) (hlt : done lane < f.blocks (position pass slice lane)) :
    f.Tracks m pass slice (fun l => if l = lane then done l + 1 else done l)
      (f.setting.fillBlock B (nextPlace (position pass slice lane) (done lane))) := by
  have hlane_eq : ∀ l < f.setting.lanes, (position pass slice l).lane.toNat = l := fun l hl =>
    toNat_lane_position pass slice hl
  have hlanes : ∀ l < f.setting.lanes,
      (position pass slice l).lane.toNat < f.setting.lanes := fun l hl => by
    rw [hlane_eq l hl]
    exact hl
  have hsize := (progress_spec (m := m) hf (p := position pass slice lane) hslice
    (hlanes lane hlane) (done lane) hlt.le).1
  have hwritten := written_progress_succ (m := m) hf (p := position pass slice lane) hslice
    (hlanes lane hlane) hlt
  generalize ha : nextPlace (position pass slice lane) (done lane) = a at hwritten ⊢
  have halane : a.lane = lane := by
    rw [← ha]
    exact hlane_eq lane hlane
  have hacolumn : f.setting.column a = f.start (position pass slice lane) + done lane := by
    rw [← ha]
    exact (Nat.add_assoc _ _ _).symm
  -- The lane's part of the matrix is its overlay, and the rest that it can see is the memory.
  have halike : f.setting.Alike slice.toNat lane B (f.overlay m (position pass slice lane)
      (f.progress m (position pass slice lane) (done lane)).written) :=
    { own := h lane hlane
      other := fun l hl column hcolumn hother => by
        rw [h l hl column hcolumn,
          overlay_progress_of_outside (p := position pass slice l) hf hslice (hlanes l hl)
            (hdone l hl) hother,
          overlay_progress_of_outside (p := position pass slice lane) hf hslice
            (hlanes lane hlane) hlt.le hother] }
  -- So the new block of the matrix is the next one of the buffer.
  have hnew : f.setting.newBlock B a = f.setting.newBlock (f.overlay m (position pass slice lane)
      (f.progress m (position pass slice lane) (done lane)).written) a := by
    have hvalid := valid_nextPlace (f := f) (p := position pass slice lane) hslice
      (hlanes lane hlane) hlt
    have haslice : a.slice = slice.toNat := by
      rw [← ha]
      rfl
    rw [ha] at hvalid
    exact newBlock_congr (even_setting hf) hvalid (by rw [haslice, halane]; exact halike)
  intro l hl column hcolumn
  unfold Setting.fillBlock Matrix.put
  dsimp only
  by_cases hown : l = lane
  · -- The lane's buffer has one more block.
    rw [hown, if_pos rfl, hwritten, ← hnew, h lane hlane column hcolumn, halane, hacolumn]
    have hpush := overlay_push (f := f) m (position pass slice lane)
      (f.progress m (position pass slice lane) (done lane)).written (f.setting.newBlock B a) column
    rw [hlane_eq lane hlane, hsize] at hpush
    rw [hpush]
    by_cases hhere : column = f.start (position pass slice lane) + done lane
    · rw [if_pos ⟨rfl, hhere⟩, if_pos hhere]
    · rw [if_neg fun h' => hhere h'.2, if_neg hhere]
  · -- The other lanes are as they were.
    rw [if_neg hown, if_neg fun h' => hown (h'.1.trans halane)]
    exact h l hl column hcolumn

/-- A matrix that is filled in place is what each lane sees of its buffer, after as many blocks. -/
theorem tracks_foldl_fillBlock (hB : f.setting.Same B (f.matrix m)) (places : List Place)
    (h : f.setting.Begun pass.toNat slice.toNat places) :
    f.Tracks m pass slice (fun lane => (laneIndices places lane).length)
      (places.foldl f.setting.fillBlock B) := by
  induction places using List.reverseRecOn with
  | nil => exact tracks_zero hB
  | append_singleton places a ih =>
    obtain ⟨hpass, haslice, hlane⟩ := h.mem a (List.mem_append_right _ (List.mem_singleton_self a))
    obtain ⟨hlt, hindex⟩ := h.last
    have hnext : nextPlace (position pass slice a.lane) (laneIndices places a.lane).length = a :=
      Place.ext hpass.symm haslice.symm (toNat_lane_position pass slice hlane) hindex.symm
    have hdone : ∀ lane < f.setting.lanes,
        (laneIndices places lane).length ≤ f.blocks (position pass slice lane) := fun lane hl => by
      have hle := (h.init.order lane hl).length_le
      rwa [List.length_range'] at hle
    have hstep := (ih h.init).fillBlock hf hslice hdone hlane hlt
    rw [hnext] at hstep
    rw [List.foldl_append, List.foldl_cons, List.foldl_nil]
    simp only [length_laneIndices_concat]
    exact hstep

/-- When all lanes are done, each buffer is the whole segment. -/
theorem foldl_fillBlock_of_complete (hB : f.setting.Same B (f.matrix m)) {places : List Place}
    (h : f.setting.Complete pass.toNat slice.toNat places) {lane column : Nat}
    (hlane : lane < f.setting.lanes) (hcolumn : column < f.setting.columns) :
    places.foldl f.setting.fillBlock B lane column =
      f.overlay m (position pass slice lane) (f.segment m (position pass slice lane))
        lane column := by
  have hlength : (laneIndices places lane).length = f.blocks (position pass slice lane) := by
    rw [h.order lane hlane, List.length_range']
    rfl
  rw [tracks_foldl_fillBlock hf hslice hB places h.begun lane hlane column hcolumn]
  dsimp only
  rw [hlength, ← segment_eq_progress hf]

end Plan

end SymmetricCrypto.Argon2
