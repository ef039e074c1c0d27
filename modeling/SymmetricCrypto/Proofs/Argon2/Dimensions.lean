import Mathlib
import SymmetricCrypto.Proofs.Argon2.Standard

/-!
# The dimensions of the memory

The dimensions are computed from each other with words of 32 bits. For parameters in range nothing
wraps, and every division is exact but the one that rounds the memory down (`toNat_total_ofMemory`).
What the filling needs of a layout is gathered in `Layout.Regular`: at least one lane, four segments
of at least two blocks each, and a total that is their product. Every hasher's layout is regular
(`Hasher.regular`), and its numbers are those of the standard (`Hasher.setting_plan`). -/

namespace SymmetricCrypto.Argon2

namespace Layout

variable {memory lanes : UInt32}

/-- The dimensions fit each other, and a segment has at least two blocks. -/
structure Regular (l : Layout) : Prop where
  /-- There is a lane. -/
  lanes_pos : 0 < l.lanes.toNat
  /-- A segment has room for the two given blocks of its lane. -/
  two_le_segment : 2 ≤ l.segmentLength.toNat
  /-- A lane is four segments. -/
  laneLength_eq : l.laneLength.toNat = 4 * l.segmentLength.toNat
  /-- The memory is all lanes. -/
  total_eq : l.total.toNat = l.lanes.toNat * l.laneLength.toNat

/-- Four blocks for each lane, without a carry out of the word. -/
theorem toNat_quantum (hm : 8 * lanes.toNat ≤ memory.toNat) :
    (slices * lanes).toNat = 4 * lanes.toNat := by
  have hmemory := memory.toNat_lt
  have hslices : slices.toNat = 4 := rfl
  rw [UInt32.toNat_mul, hslices]
  exact Nat.mod_eq_of_lt (by omega)

/-- The memory is rounded down to a multiple of four blocks for each lane. -/
theorem toNat_total_ofMemory (hm : 8 * lanes.toNat ≤ memory.toNat) :
    (ofMemory memory lanes).total.toNat =
      4 * lanes.toNat * (memory.toNat / (4 * lanes.toNat)) := by
  have hmemory := memory.toNat_lt
  have hq := toNat_quantum hm
  have htwo : (2 * (slices * lanes)).toNat = 8 * lanes.toNat := by
    have htwo' : (2 : UInt32).toNat = 2 := rfl
    rw [UInt32.toNat_mul, hq, htwo', Nat.mod_eq_of_lt (by omega)]
    omega
  -- Enough memory is never raised.
  have hmax : max memory (2 * (slices * lanes)) = memory := by
    have hle : 2 * (slices * lanes) ≤ memory := by
      rw [UInt32.le_iff_toNat_le, htwo]
      exact hm
    show (if memory ≤ 2 * (slices * lanes) then 2 * (slices * lanes) else memory) = memory
    exact ite_eq_right_iff.mpr fun hge => UInt32.le_antisymm hle hge
  have hround := Nat.div_mul_le_self memory.toNat (4 * lanes.toNat)
  unfold ofMemory
  dsimp only
  rw [hmax, UInt32.toNat_mul, UInt32.toNat_div, hq, Nat.mod_eq_of_lt (by omega), Nat.mul_comm]

/-- Rounding takes less than four blocks for each lane away. -/
theorem rounded_bounds (hl : 0 < lanes.toNat)
    (hm : 8 * lanes.toNat ≤ memory.toNat) :
    memory.toNat - 4 * lanes.toNat < (ofMemory memory lanes).total.toNat ∧
      (ofMemory memory lanes).total.toNat ≤ memory.toNat := by
  have hrest := Nat.mod_lt memory.toNat (show 0 < 4 * lanes.toNat by omega)
  have hsplit := Nat.div_add_mod memory.toNat (4 * lanes.toNat)
  rw [toNat_total_ofMemory hm]
  omega

/-- A lane has the rounded share of the memory. -/
theorem toNat_laneLength_ofMemory (hl : 0 < lanes.toNat) (hm : 8 * lanes.toNat ≤ memory.toNat) :
    (ofMemory memory lanes).laneLength.toNat = 4 * (memory.toNat / (4 * lanes.toNat)) := by
  have hlane : (ofMemory memory lanes).laneLength = (ofMemory memory lanes).total / lanes := rfl
  rw [hlane, UInt32.toNat_div, toNat_total_ofMemory hm, Nat.mul_comm 4, Nat.mul_assoc,
    Nat.mul_div_cancel_left _ hl]

/-- A segment is a quarter of that. -/
theorem toNat_segmentLength_ofMemory (hl : 0 < lanes.toNat) (hm : 8 * lanes.toNat ≤ memory.toNat) :
    (ofMemory memory lanes).segmentLength.toNat = memory.toNat / (4 * lanes.toNat) := by
  have hsegment : (ofMemory memory lanes).segmentLength =
      (ofMemory memory lanes).laneLength / slices := rfl
  have hslices : slices.toNat = 4 := rfl
  rw [hsegment, UInt32.toNat_div, toNat_laneLength_ofMemory hl hm, hslices]
  exact Nat.mul_div_cancel_left _ (by decide)

/-- Eight blocks for each lane make a regular layout. -/
theorem regular_ofMemory (hl : 0 < lanes.toNat) (hm : 8 * lanes.toNat ≤ memory.toNat) :
    (ofMemory memory lanes).Regular where
  lanes_pos := hl
  two_le_segment := by
    rw [toNat_segmentLength_ofMemory hl hm, Nat.le_div_iff_mul_le (by omega)]
    omega
  laneLength_eq := by
    rw [toNat_laneLength_ofMemory hl hm, toNat_segmentLength_ofMemory hl hm]
  total_eq := by
    have hlanes : (ofMemory memory lanes).lanes = lanes := rfl
    rw [toNat_laneLength_ofMemory hl hm, toNat_total_ofMemory hm, hlanes]
    ring

/-- A lane has blocks. -/
theorem Regular.laneLength_pos {l : Layout} (hl : l.Regular) : 0 < l.laneLength.toNat := by
  have htwo := hl.two_le_segment
  rw [hl.laneLength_eq]
  omega

/-- The columns of a lane end in the memory. -/
theorem Regular.place_le {l : Layout} (hl : l.Regular) {lane column : Nat}
    (hlane : lane < l.lanes.toNat) (hcolumn : column ≤ l.laneLength.toNat) :
    lane * l.laneLength.toNat + column ≤ l.total.toNat := by
  have hle : (lane + 1) * l.laneLength.toNat ≤ l.lanes.toNat * l.laneLength.toNat :=
    Nat.mul_le_mul_right _ hlane
  rw [Nat.succ_mul] at hle
  rw [hl.total_eq]
  omega

/-- A block of the matrix is in the memory. -/
theorem index_lt {l : Layout} (hl : l.Regular) {lane column : UInt32}
    (hlane : lane.toNat < l.lanes.toNat) (hcolumn : column.toNat < l.laneLength.toNat) :
    l.index lane column < l.total.toNat := hl.place_le hlane hcolumn

/-- Different blocks of the matrix have different places in the memory. -/
theorem place_inj {length lane lane' column column' : Nat} (hcolumn : column < length)
    (hcolumn' : column' < length) (h : lane * length + column = lane' * length + column') :
    lane = lane' ∧ column = column' := by
  have hlane : lane = lane' := by
    have hdiv := congrArg (· / length) h
    rwa [Nat.mul_comm, Nat.mul_add_div (by omega), Nat.div_eq_of_lt hcolumn, Nat.mul_comm,
      Nat.mul_add_div (by omega), Nat.div_eq_of_lt hcolumn'] at hdiv
  rw [hlane] at h
  exact ⟨hlane, by omega⟩

/-- Every place of the memory is that of a lane and a column. -/
theorem Regular.exists_place_eq {l : Layout} (hl : l.Regular) {place : ℕ}
    (h : place < l.total.toNat) :
    ∃ lane < l.lanes.toNat, ∃ column < l.laneLength.toNat,
      lane * l.laneLength.toNat + column = place := by
  refine ⟨place / l.laneLength.toNat, ?_, place % l.laneLength.toNat,
    Nat.mod_lt _ hl.laneLength_pos, Nat.div_add_mod' _ _⟩
  rw [hl.total_eq, Nat.mul_comm] at h
  exact Nat.div_lt_of_lt_mul h

/-- The places of consecutive columns of a lane are consecutive, and no other lane has one of them.
-/
theorem place_mem_run {length lane lane' column start size : Nat} (hcolumn : column < length)
    (hend : start + size ≤ length) :
    lane' * length + start ≤ lane * length + column ∧
        lane * length + column < lane' * length + start + size ↔
      lane = lane' ∧ start ≤ column ∧ column < start + size := by
  have hsucc : ∀ l : Nat, (l + 1) * length = l * length + length := fun l => Nat.succ_mul l length
  rcases Nat.lt_trichotomy lane lane' with hlt | heq | hgt
  · -- An earlier lane ends before the columns begin.
    have hle : (lane + 1) * length ≤ lane' * length := Nat.mul_le_mul_right _ hlt
    rw [hsucc] at hle
    omega
  · rw [heq]
    omega
  · -- A later lane begins after they end.
    have hle : (lane' + 1) * length ≤ lane * length := Nat.mul_le_mul_right _ hgt
    rw [hsucc] at hle
    omega

end Layout

namespace Plan

/-- The numbers of a plan. -/
def setting (f : Plan) : Standard.Setting where
  lanes := f.layout.lanes.toNat
  blocks := f.layout.total.toNat
  passes := f.passes.toNat
  variant := f.variant

variable {f : Plan}

/-- A lane of the matrix is a lane of the memory. -/
theorem columns_setting (hf : f.layout.Regular) :
    f.setting.columns = f.layout.laneLength.toNat := by
  show f.layout.total.toNat / f.layout.lanes.toNat = _
  rw [hf.total_eq, Nat.mul_div_cancel_left _ hf.lanes_pos]

/-- A slice of a lane of the matrix is a segment of the memory. -/
theorem segment_setting (hf : f.layout.Regular) :
    f.setting.segment = f.layout.segmentLength.toNat := by
  unfold Standard.Setting.segment
  rw [columns_setting hf, hf.laneLength_eq, Nat.mul_div_cancel_left _ (by decide)]

end Plan

namespace Hasher

/-- There is a lane, and it has at least eight blocks. -/
theorem lanes_pos_and_memory_le (a : Hasher) :
    0 < a.params.lanes.toNat ∧ 8 * a.params.lanes.toNat ≤ a.params.memory.toNat := by
  obtain ⟨⟨hlanes, -⟩, -, hmemory, -⟩ := a.params.fault?_eq_none_iff.mp a.sound
  have hone : (1 : UInt32).toNat = 1 := rfl
  rw [UInt32.le_iff_toNat_le, hone] at hlanes
  exact ⟨hlanes, hmemory⟩

/-- The layout for parameters in range is regular. -/
theorem regular (a : Hasher) : a.plan.layout.Regular :=
  Layout.regular_ofMemory a.lanes_pos_and_memory_le.1 a.lanes_pos_and_memory_le.2

/-- Parameters in range are planned with the numbers of the standard. -/
theorem setting_plan (a : Hasher) : a.plan.setting = Standard.Setting.ofParams a.params := by
  unfold Plan.setting Standard.Setting.ofParams
  have htotal := Layout.toNat_total_ofMemory a.lanes_pos_and_memory_le.2
  have hplan : a.plan.layout = Layout.ofMemory a.params.memory a.params.lanes := rfl
  rw [hplan, htotal]
  rfl

end Hasher

end SymmetricCrypto.Argon2
