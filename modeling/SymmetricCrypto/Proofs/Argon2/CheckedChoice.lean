import Mathlib
import SymmetricCrypto.Proofs.Argon2.Addresses
import SymmetricCrypto.Proofs.Checked

/-!
# The dimensions and the choice meet no fault

The computation of the dimensions, of a place in the memory and of the reference position, and the
source of addresses, with their operations checked. For parameters in range and a block that is
filled, each of them is what it is without the checks.

The dimensions fit because they are at most the memory that was asked for. In the choice, a segment of
two blocks and the two given blocks of a lane make the window positive (`count_choose_pos`), so that
one can be subtracted; the window and the start of the choice are at most a lane, so that sums and
products fit their words.
-/

namespace SymmetricCrypto.Argon2

open Checked
open Standard (count)

/-! ## The dimensions -/

namespace Layout

/-- `ofMemory` with its operations checked. -/
def ofMemoryChecked (memory lanes : UInt32) : Checked Layout := do
  let quantum ← mul slices lanes
  let least ← mul 2 quantum
  let rounds ← div (max memory least) quantum
  let total ← mul rounds quantum
  let laneLength ← div total lanes
  let segmentLength ← div laneLength slices
  return ⟨lanes, laneLength, segmentLength, total⟩

/-- `index` with its operations checked. -/
def indexChecked (l : Layout) (lane column : UInt32) : Checked ℕ := do
  let row ← mul lane.toUInt64 l.laneLength.toUInt64
  let place ← add row column.toUInt64
  return place.toNat

/-- Eight blocks for each lane make dimensions that fit. -/
theorem ofMemoryChecked_eq {memory lanes : UInt32} (hl : 0 < lanes.toNat)
    (hm : 8 * lanes.toNat ≤ memory.toNat) :
    ofMemoryChecked memory lanes = pure (ofMemory memory lanes) := by
  have hmemory := memory.toNat_lt
  have hquantum := toNat_quantum hm
  have hleast : (2 * (slices * lanes)).toNat = 2 * (slices * lanes).toNat := by
    have htwo : (2 : UInt32).toNat = 2 := rfl
    rw [UInt32.toNat_mul, hquantum, htwo, Nat.mod_eq_of_lt (by omega)]
  have hrounded (x y : UInt32) : (x / y * y).toNat = (x / y).toNat * y.toNat := by
    have hle := Nat.div_mul_le_self x.toNat y.toNat
    rw [UInt32.toNat_mul, UInt32.toNat_div, Nat.mod_eq_of_lt (hle.trans_lt x.toNat_lt)]
  have hpositive : 0 < (slices * lanes).toNat := by omega
  rw [ofMemoryChecked, mul_eq hquantum, pure_bind, mul_eq hleast, pure_bind, div_eq hpositive,
    pure_bind, mul_eq (hrounded _ _), pure_bind, div_eq hl, pure_bind, div_eq (by decide),
    pure_bind]
  rfl

/-- A lane and a column always have a place. -/
theorem indexChecked_eq (l : Layout) (lane column : UInt32) :
    l.indexChecked lane column = pure (l.index lane column) := by
  have hlane := lane.toNat_lt
  have hlength := l.laneLength.toNat_lt
  have hcolumn := column.toNat_lt
  have hproduct : lane.toNat * l.laneLength.toNat ≤ (2^32 - 1) * (2^32 - 1) :=
    Nat.mul_le_mul (by omega) (by omega)
  have hrow : (lane.toUInt64 * l.laneLength.toUInt64).toNat =
      lane.toNat * l.laneLength.toNat := by
    rw [UInt64.toNat_mul, UInt32.toNat_toUInt64, UInt32.toNat_toUInt64, Nat.mod_eq_of_lt (by omega)]
  have hplace : (lane.toUInt64 * l.laneLength.toUInt64 + column.toUInt64).toNat =
      lane.toNat * l.laneLength.toNat + column.toNat := by
    rw [UInt64.toNat_add, hrow, UInt32.toNat_toUInt64, Nat.mod_eq_of_lt (by omega)]
  have hmul : mul lane.toUInt64 l.laneLength.toUInt64 =
      pure (lane.toUInt64 * l.laneLength.toUInt64) :=
    mul_eq (by simp only [MachineWord.toNat_uInt64, hrow, UInt32.toNat_toUInt64])
  have hadd : add (lane.toUInt64 * l.laneLength.toUInt64) column.toUInt64 =
      pure (lane.toUInt64 * l.laneLength.toUInt64 + column.toUInt64) :=
    add_eq (by simp only [MachineWord.toNat_uInt64, hplace, hrow, UInt32.toNat_toUInt64])
  rw [indexChecked, hmul, pure_bind, hadd, pure_bind, hplace]
  rfl

end Layout

/-! ## The choice -/

/-- The finished blocks of a lane, with the operations checked. -/
def finishedChecked (l : Layout) (p : Position) : Checked UInt32 :=
  if p.pass = 0 then mul p.slice l.segmentLength else sub l.laneLength l.segmentLength

/-- `windowSize` with its operations checked. -/
def windowSizeChecked (l : Layout) (p : Position) (index : UInt32) (own : Bool) :
    Checked UInt32 := do
  let finished ← finishedChecked l p
  if own then do
    let before ← add finished index
    sub before 1
  else sub finished (if index = 0 then 1 else 0)

/-- `windowStart` with its operations checked. -/
def windowStartChecked (l : Layout) (p : Position) : Checked UInt32 :=
  if p.pass = 0 ∨ p.slice = 3 then pure 0
  else do
    let next ← add p.slice 1
    mul next l.segmentLength

/-- `distance` with its operations checked. -/
def distanceChecked (size choice : UInt64) : Checked UInt64 := do
  let newest ← sub size 1
  let square ← mul choice choice
  let product ← mul size (square >>> 32)
  sub newest (product >>> 32)

/-- The lane that a word chooses, with the remainder checked. -/
def laneChecked (l : Layout) (p : Position) (word : UInt64) : Checked UInt32 :=
  if p.pass = 0 ∧ p.slice = 0 then pure p.lane else rem (word >>> 32).toUInt32 l.lanes

/-- `choose` with its operations checked. -/
def chooseChecked (l : Layout) (p : Position) (index : UInt32) (word : UInt64) :
    Checked (UInt32 × UInt32) := do
  let lane ← laneChecked l p word
  let size ← windowSizeChecked l p index (lane = p.lane)
  let distance ← distanceChecked size.toUInt64 (word &&& 0xffffffff)
  let start ← windowStartChecked l p
  let around ← add start.toUInt64 distance
  let column ← rem around l.laneLength.toUInt64
  return (lane, column.toUInt32)

/-- A distance in a window that is not empty fits. -/
theorem distanceChecked_eq {size choice : UInt64} (hsize : 0 < size.toNat)
    (hsize' : size.toNat < 2^32) (hchoice : choice.toNat < 2^32) :
    distanceChecked size choice = pure (distance size choice) := by
  obtain ⟨hsquare, hx, hproduct, hback, hnewest, hlt⟩ := distance_steps hsize hsize' hchoice
  have hone : sub size 1 = pure (size - 1) := sub_eq hsize hnewest
  have hmul : mul size ((choice * choice) >>> 32) = pure (size * ((choice * choice) >>> 32)) :=
    mul_eq (by simp only [MachineWord.toNat_uInt64, hproduct, hx])
  have hlast : sub (size - 1) ((size * ((choice * choice) >>> 32)) >>> 32) =
      pure (distance size choice) := by
    refine sub_eq ?_ ?_
    · simp only [MachineWord.toNat_uInt64, hback, hnewest]
      omega
    · simp only [MachineWord.toNat_uInt64, hback, hnewest]
      exact toNat_distance size choice hsize hsize' hchoice
  rw [distanceChecked, hone, pure_bind, mul_eq hsquare, pure_bind, hmul, pure_bind, hlast]

section Regular

variable {l : Layout} (hl : l.Regular) {p : Position} (hslice : p.slice.toNat < 4)
include hl hslice

/-- The finished segments are a product that fits, or the difference of a lane and a segment. -/
theorem finishedChecked_eq :
    finishedChecked l p =
      pure (if p.pass = 0 then p.base l else l.laneLength - l.segmentLength) := by
  have hlength := hl.laneLength_eq
  unfold finishedChecked
  by_cases hpass : p.pass = 0
  · rw [if_pos hpass, if_pos hpass]
    exact mul_eq (toNat_slice_mul hl _ hslice.le)
  · rw [if_neg hpass, if_neg hpass]
    have hle : l.segmentLength.toNat ≤ l.laneLength.toNat := by omega
    exact sub_eq hle (UInt32.toNat_sub_of_le _ _ (UInt32.le_iff_toNat_le.mpr hle))

/-- A window that is not empty has a size that fits. -/
theorem windowSizeChecked_eq {index : UInt32} {own : Bool}
    (hindex : index.toNat < l.segmentLength.toNat)
    (hpos : 0 < count l.segmentLength.toNat p.pass.toNat p.slice.toNat index.toNat own) :
    windowSizeChecked l p index own = pure (windowSize l p index own) := by
  have hlane := l.laneLength.toNat_lt
  have hlength := hl.laneLength_eq
  obtain ⟨hfinished, hfinished_le⟩ := toNat_finished hl hslice
  unfold count at hpos
  rw [windowSizeChecked, finishedChecked_eq hl hslice, pure_bind, windowSize]
  generalize (if p.pass = 0 then p.base l else l.laneLength - l.segmentLength) = finished
    at hfinished ⊢
  rw [← hfinished] at hpos hfinished_le
  cases own with
  | true =>
    have hsum : (finished + index).toNat = finished.toNat + index.toNat := by
      rw [UInt32.toNat_add, Nat.mod_eq_of_lt (by omega)]
    simp only [if_true, true_or] at hpos ⊢
    have hone : 0 < (finished + index).toNat := by omega
    rw [add_eq hsum, pure_bind, sub_eq hone (toNat_sub_one hone)]
  | false =>
    simp only [Bool.false_eq_true, if_false, false_or, Nat.add_zero] at hpos ⊢
    by_cases hzero : index.toNat = 0
    · rw [if_pos hzero] at hpos
      have hone : 0 < finished.toNat := by omega
      rw [if_pos ((eq_zero_iff_toNat _).mpr hzero), sub_eq hone (toNat_sub_one hone)]
    · rw [if_neg fun h => hzero ((eq_zero_iff_toNat _).mp h),
        sub_eq (Nat.zero_le _) (by rw [UInt32.sub_zero]; rfl)]

/-- The start of a window fits. -/
theorem windowStartChecked_eq : windowStartChecked l p = pure (windowStart l p) := by
  have hone : (1 : UInt32).toNat = 1 := rfl
  have hnext : (p.slice + 1).toNat = p.slice.toNat + 1 := by
    rw [UInt32.toNat_add, hone, Nat.mod_eq_of_lt (by omega)]
  unfold windowStartChecked windowStart
  by_cases hzero : p.pass = 0 ∨ p.slice = 3
  · rw [if_pos hzero, if_pos hzero]
  · rw [if_neg hzero, if_neg hzero, add_eq hnext, pure_bind,
      mul_eq (toNat_slice_mul hl _ (by omega))]

end Regular

/-- The choice for a block that is filled meets no fault. -/
theorem chooseChecked_eq {f : Plan} (hf : f.layout.Regular) {p : Position} {index : UInt32}
    (h : f.setting.Valid (p.place index)) (word : UInt64) :
    chooseChecked f.layout p index word = pure (choose f.layout p index word) := by
  have hslice : p.slice.toNat < 4 := h.slice_lt
  have hindex : index.toNat < f.layout.segmentLength.toNat := Plan.segment_setting hf ▸ h.index_lt
  have hpos := count_choose_pos hf h word
  have hsize := windowSizeChecked_eq hf hslice hindex hpos
  have hsize_pos := toNat_windowSize hf hslice hindex hpos
  have hlane : laneChecked f.layout p word = pure (choose f.layout p index word).1 := by
    unfold laneChecked choose
    by_cases hfirst : p.pass = 0 ∧ p.slice = 0
    · rw [if_pos hfirst, if_pos hfirst]
    · rw [if_neg hfirst, if_neg hfirst, rem_eq hf.lanes_pos]
  have hchoose : choose f.layout p index word = ((choose f.layout p index word).1,
      (((windowStart f.layout p).toUInt64 +
        distance (windowSize f.layout p index ((choose f.layout p index word).1 = p.lane)).toUInt64
          (word &&& 0xffffffff)) % f.layout.laneLength.toUInt64).toUInt32) := rfl
  rw [hchoose, chooseChecked, hlane, pure_bind, hsize, pure_bind]
  generalize windowSize f.layout p index ((choose f.layout p index word).1 = p.lane) = size
    at hsize_pos ⊢
  rw [← hsize_pos] at hpos
  -- The distance is below `2^32`, and so is the start.
  have hstart_lt := (windowStart f.layout p).toNat_lt
  have hsize_lt : size.toUInt64.toNat < 2^32 := by
    rw [UInt32.toNat_toUInt64]
    exact size.toNat_lt
  have hsize_pos' : 0 < size.toUInt64.toNat := by rwa [UInt32.toNat_toUInt64]
  have hchoice : (word &&& 0xffffffff).toNat < 2^32 := by
    rw [toNat_and_low]
    exact Nat.mod_lt _ (by decide)
  have hdistance := toNat_distance size.toUInt64 (word &&& 0xffffffff) hsize_pos' hsize_lt hchoice
  have haround : ((windowStart f.layout p).toUInt64 +
        distance size.toUInt64 (word &&& 0xffffffff)).toNat =
      (windowStart f.layout p).toUInt64.toNat +
        (distance size.toUInt64 (word &&& 0xffffffff)).toNat := by
    rw [UInt64.toNat_add, UInt32.toNat_toUInt64, Nat.mod_eq_of_lt (by omega)]
  have hlength : 0 < f.layout.laneLength.toUInt64.toNat := by
    rw [UInt32.toNat_toUInt64]
    exact hf.laneLength_pos
  rw [distanceChecked_eq hsize_pos' hsize_lt hchoice, pure_bind, windowStartChecked_eq hf hslice,
    pure_bind, add_eq haround, pure_bind, rem_eq hlength, pure_bind]

/-! ## The addresses -/

namespace AddressStream

/-- `refill` with its operations checked. -/
def refillChecked (s : AddressStream) : Checked (Block × AddressStream) := do
  let counter ← add s.counter 1
  let addresses := addressBlock s.origin counter
  return (addresses, ⟨s.origin, counter, some addresses⟩)

/-- The address block for a slot and the stream after it, with the operations checked. -/
def currentChecked (s : AddressStream) (slot : ℕ) : Checked (Block × AddressStream) :=
  match s.addresses with
  | some addresses => if slot = 0 then s.refillChecked else pure (addresses, s)
  | none => s.refillChecked

/-- `next` with its operations checked. -/
def nextChecked (s : AddressStream) (index : UInt32) : Checked (UInt64 × AddressStream) := do
  let slot := index.toNat % 128
  let current ← s.currentChecked slot
  let word ← lookup current.1.toArray slot
  return (word, current.2)

/-- While the counter can go up, the next word meets no fault. -/
theorem nextChecked_eq {s : AddressStream} (h : s.counter.toNat + 1 < 2^64) (index : UInt32) :
    s.nextChecked index = pure (s.next index) := by
  have hone : (1 : UInt64).toNat = 1 := rfl
  have hcounter : (s.counter + 1).toNat = s.counter.toNat + 1 := by
    rw [UInt64.toNat_add, hone, Nat.mod_eq_of_lt h]
  have hrefill : s.refillChecked = pure s.refill := by
    rw [refillChecked, add_eq hcounter, pure_bind]
    rfl
  have hslot : index.toNat % 128 < 128 := Nat.mod_lt _ (by decide)
  have hlookup (block : Block) : lookup block.toArray (index.toNat % 128) =
      pure (block.getD (index.toNat % 128) 0) :=
    lookup_eq (by rwa [Vector.size_toArray]) 0
  unfold nextChecked currentChecked next
  rw [hrefill]
  cases s.addresses with
  | none =>
    dsimp only
    rw [pure_bind, hlookup, pure_bind]
  | some addresses =>
    dsimp only
    by_cases hzero : index.toNat % 128 = 0
    · rw [if_pos hzero, if_pos hzero, pure_bind, hlookup, pure_bind]
    · rw [if_neg hzero, if_neg hzero, pure_bind, hlookup, pure_bind]

end AddressStream

end SymmetricCrypto.Argon2
