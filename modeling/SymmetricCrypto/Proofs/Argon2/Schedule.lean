import Mathlib
import SymmetricCrypto.Proofs.Argon2.Filling

/-!
# The schedule of the lanes does not matter

A slice is filled lane by lane into buffers, which are stored when all lanes are done. The same
slice can be filled in place: the lanes take turns (`Turn`), each turn reads one memory that all
lanes share and writes its block there at once (`takeTurn`). Every order of the turns that keeps
each lane's own (`Interleaving`) ends with the memory that the buffers give
(`fillSliceInPlace_eq_fillSlice`), and so does every order in which the buffers are filled and
stored (`fillSliceBy_eq_fillSlice`). A whole filling is slice after slice, so it does not depend on
the schedule of any slice (`fill_schedule_independent`).

A turn fills its block as the standard does in the matrix that the memory holds
(`takeTurn_eq_standard`). That no lane reads what another lane writes in the slice is in
`same_fillSlice`, for the matrix; what is left is that memories that hold one matrix are equal
(`eq_of_same`).
-/

namespace SymmetricCrypto.Argon2

open Standard

/-- The turn of a lane: the block at an index of its segment. -/
structure Turn where
  /-- The lane whose turn it is. -/
  lane : UInt32
  /-- The block of its segment that it fills. -/
  index : UInt32
  deriving DecidableEq

/-- A slice that is filled in place: the memory of all lanes, and for each lane its source of
choices, unless the memory makes them. -/
structure Shared where
  /-- The memory that all lanes write to. -/
  memory : Memory
  /-- The source of choices of each lane. -/
  addresses : UInt32 → Option AddressStream

namespace Plan

/-- The block of the memory in a lane and column. -/
def blockAt (f : Plan) (m : Memory) (lane column : UInt32) : Block :=
  m.getD (f.layout.index lane column) Block.zero

/-- A slice before the first turn. -/
def share (f : Plan) (m : Memory) (pass slice : UInt32) : Shared where
  memory := m
  addresses lane := (f.begin ⟨pass, lane, slice⟩).addresses

/-- One turn: a block is made from the memory as it is now, and written there. -/
def takeTurn (f : Plan) (pass slice : UInt32) (s : Shared) (t : Turn) : Shared :=
  let p : Position := ⟨pass, t.lane, slice⟩
  let column := p.base f.layout + t.index
  let previous :=
    f.blockAt s.memory t.lane (if column = 0 then f.layout.laneLength - 1 else column - 1)
  let (word, addresses) :=
    match s.addresses t.lane with
    | some stream =>
      let (word, stream) := stream.next t.index
      (word, some stream)
    | none => (previous.getD 0 0, none)
  let (lane', column') := choose f.layout p t.index word
  let mixed := previous.mix (f.blockAt s.memory lane' column')
  let block := if pass = 0 then mixed else mixed.xor (f.blockAt s.memory t.lane column)
  { memory := s.memory.setIfInBounds (f.layout.index t.lane column) block
    addresses := Function.update s.addresses t.lane addresses }

/-- The memory after a slice that is filled in place. -/
def fillSliceInPlace (f : Plan) (turns : List Turn) (m : Memory) (pass slice : UInt32) : Memory :=
  (turns.foldl (f.takeTurn pass slice) (f.share m pass slice)).memory

/-- All blocks of a slice, in an order that keeps each lane's own. -/
structure Interleaving (f : Plan) (pass slice : UInt32) (turns : List Turn) : Prop where
  /-- Only lanes of the memory have turns. -/
  lanes : ∀ t ∈ turns, t.lane ∈ f.laneList
  /-- Each lane has all of its turns, in its own order. -/
  order : ∀ lane ∈ f.laneList,
    (turns.filter fun t => t.lane = lane).map Turn.index = f.indices ⟨pass, lane, slice⟩

/-- The memory after a slice whose lanes are filled and stored in an order. -/
def fillSliceBy (f : Plan) (order : List UInt32) (m : Memory) (pass slice : UInt32) : Memory :=
  let segments := order.map fun lane =>
    let p : Position := ⟨pass, lane, slice⟩
    (p, f.segment m p)
  segments.foldl (fun m (p, blocks) => f.store m p blocks) m

/-- The memory after all passes, for a way to fill a slice. -/
def fillWith (f : Plan) (fillSlice : Memory → UInt32 → UInt32 → Memory) (m : Memory) : Memory :=
  (List.range f.passes.toNat).foldl (fun m pass =>
    [0, 1, 2, 3].foldl (fun m slice => fillSlice m (UInt32.ofNat pass) slice) m) m

/-! ## A turn -/

variable {f : Plan} {m : Memory} {pass slice : UInt32}

/-- Before its first new block a lane reads the memory. -/
theorem read_empty (f : Plan) (m : Memory) (p : Position) (lane column : UInt32) :
    f.read m p #[] lane column = f.blockAt m lane column :=
  if_neg fun h => Nat.not_lt_zero _ h.2.2

/-- An empty buffer leaves the matrix of the memory as it is. -/
theorem overlay_empty (f : Plan) (m : Memory) (p : Position) :
    f.overlay m p #[] = f.matrix m := by
  unfold overlay
  congr 1
  funext lane column
  refine if_neg fun h => ?_
  have hsize : (#[] : Array Block).size = 0 := rfl
  omega

/-- A turn is a step of a lane with an empty buffer whose block goes into the memory. -/
theorem takeTurn_eq_write (f : Plan) (pass slice : UInt32) (s : Shared) (t : Turn) :
    let p : Position := ⟨pass, t.lane, slice⟩
    let next := f.write s.memory p ⟨#[], s.addresses t.lane⟩ t.index
    f.takeTurn pass slice s t =
      { memory := s.memory.setIfInBounds (f.layout.index t.lane (p.base f.layout + t.index))
          (next.written.getD 0 Block.zero)
        addresses := Function.update s.addresses t.lane next.addresses } := by
  unfold takeTurn write reference previous
  simp only [read_empty]
  cases s.addresses t.lane <;> rfl

section Regular

variable (hf : f.layout.Regular)
include hf

/-- A turn fills the standard's new block, and the lane's source of choices goes on. -/
theorem takeTurn_eq_standard {s : Shared} {t : Turn}
    (h : f.setting.Valid ((⟨pass, t.lane, slice⟩ : Position).place t.index))
    (haddresses : s.addresses t.lane = f.addressesAt ⟨pass, t.lane, slice⟩ t.index.toNat) :
    let p : Position := ⟨pass, t.lane, slice⟩
    f.takeTurn pass slice s t =
      { memory := s.memory.setIfInBounds (f.layout.index t.lane (p.base f.layout + t.index))
          (f.setting.newBlock (f.matrix s.memory) (p.place t.index))
        addresses :=
          Function.update s.addresses t.lane (f.addressesAt p (t.index.toNat + 1)) } := by
  have hwrite := write_eq_standard (m := s.memory) (s := ⟨#[], s.addresses t.lane⟩) hf h haddresses
    h.first_le
  intro p
  rw [takeTurn_eq_write, hwrite, overlay_empty]
  rfl

/-- Writing a block into the memory puts it into the matrix. -/
theorem same_put (hm : m.size = f.layout.total.toNat) {B : Matrix}
    (hB : f.setting.Same B (f.matrix m)) {lane column : UInt32}
    (hlane : lane.toNat < f.setting.lanes) (hcolumn : column.toNat < f.setting.columns)
    (block : Block) :
    f.setting.Same (B.put lane.toNat column.toNat block)
      (f.matrix (m.setIfInBounds (f.layout.index lane column) block)) := by
  rw [columns_setting hf] at hcolumn
  have hplace := Layout.index_lt hf hlane hcolumn
  rw [← hm] at hplace
  intro l hl c hc
  have hsame := hB l hl c hc
  rw [columns_setting hf] at hc
  unfold Matrix.put matrix at *
  dsimp only at hsame ⊢
  rw [getD_setIfInBounds]
  rcases Decidable.em (l = lane.toNat ∧ c = column.toNat) with hhere | helsewhere
  · have heq : l * f.layout.laneLength.toNat + c = f.layout.index lane column := by
      rw [hhere.1, hhere.2]
      rfl
    rw [if_pos hhere, if_pos ⟨heq, hplace⟩]
  · rw [if_neg helsewhere, if_neg fun h => helsewhere (Layout.place_inj hc hcolumn h.1), hsame]

/-- A new block is the same in matrices that are the same. -/
theorem newBlock_eq_of_same {A B : Matrix} (hAB : f.setting.Same A B) {a : Place}
    (ha : f.setting.Valid a) : f.setting.newBlock A a = f.setting.newBlock B a :=
  newBlock_congr (even_setting hf) ha
    ⟨fun column hcolumn => hAB a.lane ha.lane_lt column hcolumn,
      fun lane hlane column hcolumn _ => hAB lane hlane column hcolumn⟩

end Regular

/-! ## The turns of a slice -/

/-- The block of a turn. -/
def turnPlace (pass slice : UInt32) (t : Turn) : Place :=
  (⟨pass, t.lane, slice⟩ : Position).place t.index

/-- A turn is one of the segment of its lane. -/
theorem position_turnPlace (pass slice : UInt32) (t : Turn) :
    position pass slice (turnPlace pass slice t).lane = ⟨pass, t.lane, slice⟩ := by
  show (⟨pass, UInt32.ofNat t.lane.toNat, slice⟩ : Position) = _
  rw [UInt32.ofNat_toNat]

section Regular

variable (hf : f.layout.Regular)
include hf

/-- The turns of an interleaving are all blocks of the slice. -/
theorem Interleaving.complete {turns : List Turn} (h : f.Interleaving pass slice turns) :
    f.setting.Complete pass.toNat slice.toNat (turns.map (turnPlace pass slice)) where
  mem a ha := by
    obtain ⟨t, ht, rfl⟩ := List.mem_map.mp ha
    exact ⟨rfl, rfl, mem_laneList.mp (h.lanes t ht)⟩
  order lane hlane := by
    have hword : (UInt32.ofNat lane).toNat = lane := toNat_lane_position pass slice hlane
    have horder := h.order (UInt32.ofNat lane) (mem_laneList.mpr (by rw [hword]; exact hlane))
    have hindices := map_toNat_indices hf ⟨pass, UInt32.ofNat lane, slice⟩
    rw [← horder, List.map_map] at hindices
    have hfilter : (fun t : Turn => decide ((turnPlace pass slice t).lane = lane)) =
        fun t => decide (t.lane = UInt32.ofNat lane) := by
      funext t
      refine decide_eq_decide.mpr ?_
      rw [← UInt32.toNat_inj, hword]
      rfl
    unfold laneIndices
    rw [List.filter_map, List.map_map]
    show ((turns.filter fun t => decide ((turnPlace pass slice t).lane = lane)).map _) = _
    rw [hfilter]
    exact hindices

/-- What the shared memory and the sources of choices are after some turns. -/
structure Follows (f : Plan) (m : Memory) (pass slice : UInt32) (places : List Place)
    (s : Shared) : Prop where
  /-- The memory has its size. -/
  size : s.memory.size = m.size
  /-- It is the matrix after the places that were filled. -/
  same : f.setting.Same (places.foldl f.setting.fillBlock (f.matrix m)) (f.matrix s.memory)
  /-- The source of each lane is where it is after the blocks that the lane has filled. -/
  addresses : ∀ lane < f.setting.lanes, s.addresses (UInt32.ofNat lane) =
    f.addressesAt (position pass slice lane)
      (Setting.first pass.toNat slice.toNat + (laneIndices places lane).length)

variable (hslice : slice.toNat < 4)
include hslice

/-- Before the first turn nothing is filled. -/
theorem follows_share (m : Memory) : f.Follows m pass slice [] (f.share m pass slice) where
  size := rfl
  same _ _ _ _ := rfl
  addresses lane hlane := by
    have hword := toNat_lane_position (f := f) pass slice hlane
    exact (progress_spec (m := m) hf (p := position pass slice lane) hslice
      (by rw [hword]; exact hlane) 0 (Nat.zero_le _)).2

/-- A turn that is the next one of its lane fills the next block of the matrix. -/
theorem Follows.takeTurn (hm : m.size = f.layout.total.toNat) {places : List Place} {s : Shared}
    (h : f.Follows m pass slice places s) {t : Turn}
    (hbegun : f.setting.Begun pass.toNat slice.toNat (places ++ [turnPlace pass slice t])) :
    f.Follows m pass slice (places ++ [turnPlace pass slice t]) (f.takeTurn pass slice s t) := by
  obtain ⟨hsize, hsame, haddresses⟩ := h
  obtain ⟨-, -, hlane⟩ := hbegun.mem _ (List.mem_append_right _ (List.mem_singleton_self _))
  obtain ⟨hlt, hindex⟩ := hbegun.last
  have hvalid : f.setting.Valid (turnPlace pass slice t) :=
    ⟨hslice, hlane, by rw [hindex]; exact Nat.le_add_right _ _, by
      show (turnPlace pass slice t).index < _
      omega⟩
  have hword : UInt32.ofNat (turnPlace pass slice t).lane = t.lane := UInt32.ofNat_toNat
  have hsource := haddresses _ hlane
  rw [hword, position_turnPlace, ← hindex] at hsource
  -- The column of the turn is the one of its place, and in the matrix.
  have hcolumn : (Position.base ⟨pass, t.lane, slice⟩ f.layout + t.index).toNat =
      f.setting.column (turnPlace pass slice t) :=
    toNat_base_add hf hslice t.index hvalid.index_lt.le
  have hinside : (Position.base ⟨pass, t.lane, slice⟩ f.layout + t.index).toNat <
      f.setting.columns := by
    rw [hcolumn]
    exact column_lt (even_setting hf) hvalid
  rw [takeTurn_eq_standard hf hvalid hsource]
  refine ⟨?_, ?_, ?_⟩
  · rw [Array.size_setIfInBounds, hsize]
  · -- The new block depends on what the matrix and the memory have in common.
    have hput := same_put hf (hsize.trans hm) hsame hlane hinside
      (f.setting.newBlock (f.matrix s.memory) (turnPlace pass slice t))
    rw [List.foldl_append, List.foldl_cons, List.foldl_nil, Setting.fillBlock,
      newBlock_eq_of_same hf hsame hvalid, ← hcolumn]
    exact hput
  · intro lane hl
    dsimp only
    rw [length_laneIndices_concat]
    rcases eq_or_ne lane (turnPlace pass slice t).lane with hown | hother
    · -- The lane's source has been read once more.
      rw [hown, if_pos rfl, hword, Function.update_self, position_turnPlace, ← Nat.add_assoc,
        ← hindex]
      rfl
    · have hne : UInt32.ofNat lane ≠ t.lane := by
        intro heq
        apply hother
        show lane = t.lane.toNat
        rw [← heq]
        exact (toNat_lane_position pass slice hl).symm
      rw [if_neg hother, Function.update_of_ne hne, haddresses lane hl]

/-- Turn after turn, the shared memory holds the matrix that is filled in place. -/
theorem follows_foldl (hm : m.size = f.layout.total.toNat) (turns : List Turn)
    (h : f.setting.Begun pass.toNat slice.toNat (turns.map (turnPlace pass slice))) :
    f.Follows m pass slice (turns.map (turnPlace pass slice))
      (turns.foldl (f.takeTurn pass slice) (f.share m pass slice)) := by
  induction turns using List.reverseRecOn with
  | nil => exact follows_share hf hslice m
  | append_singleton turns t ih =>
    rw [List.map_append, List.map_singleton] at h ⊢
    rw [List.foldl_append, List.foldl_cons, List.foldl_nil]
    exact (ih h.init).takeTurn hf hslice hm h

omit hslice in
/-- Memories that hold one matrix are equal. -/
theorem eq_of_same {m m' : Memory} (hm : m.size = f.layout.total.toNat)
    (hm' : m'.size = f.layout.total.toNat) (h : f.setting.Same (f.matrix m) (f.matrix m')) :
    m = m' := by
  refine Array.ext (hm.trans hm'.symm) fun i hi hi' => ?_
  obtain ⟨lane, hlane, column, hcolumn, hplace⟩ := hf.exists_place_eq (hi.trans_eq hm)
  have hblock := h lane hlane column (by rwa [columns_setting hf])
  unfold matrix at hblock
  dsimp only at hblock
  rw [hplace] at hblock
  simpa only [Array.getD_eq_getD_getElem?, Array.getElem?_eq_getElem, hi, hi', Option.getD_some]
    using hblock

/-- However the lanes take turns in place, the memory after the slice is that of the buffers. -/
theorem fillSliceInPlace_eq_fillSlice (hm : m.size = f.layout.total.toNat) {turns : List Turn}
    (h : f.Interleaving pass slice turns) :
    f.fillSliceInPlace turns m pass slice = f.fillSlice m pass slice := by
  have hcomplete := h.complete hf
  obtain ⟨hsize, hsame, -⟩ := follows_foldl hf hslice hm turns hcomplete.begun
  obtain ⟨hsize', hsame'⟩ := same_fillSlice hf hm (fun _ _ _ _ => rfl) hslice hcomplete
  refine eq_of_same hf (hsize.trans hm) (hsize'.trans hm) fun lane hlane column hcolumn => ?_
  rw [← hsame' lane hlane column hcolumn]
  exact (hsame lane hlane column hcolumn).symm

/-- In whatever order the lanes are filled and stored, the memory after the slice is the same. -/
theorem fillSliceBy_eq_fillSlice (hm : m.size = f.layout.total.toNat) {order : List UInt32}
    (h : order.Perm f.laneList) :
    f.fillSliceBy order m pass slice = f.fillSlice m pass slice := by
  have hlanes : (order.map UInt32.toNat).Perm (List.range f.setting.lanes) := by
    rw [← map_toNat_laneList]
    exact h.map _
  have hstores : f.fillSliceBy order m pass slice =
      (order.map UInt32.toNat).foldl (fun m' lane =>
        f.store m' (position pass slice lane) (f.segment m (position pass slice lane))) m := by
    unfold fillSliceBy position
    rw [List.foldl_map, List.foldl_map]
    simp only [UInt32.ofNat_toNat]
  obtain ⟨hsize, hstored⟩ := matrix_foldl_store hf hm pass hslice (hlanes.nodup_iff.mpr
    List.nodup_range) fun lane hlane => List.mem_range.mp (hlanes.mem_iff.mp hlane)
  obtain ⟨hsize', hmatrix⟩ := matrix_fillSlice hf hm pass hslice
  rw [hstores]
  refine eq_of_same hf (hsize.trans hm) (hsize'.trans hm) fun lane hlane column hcolumn => ?_
  rw [hstored lane hlane column hcolumn, hmatrix lane hlane column hcolumn,
    if_pos (hlanes.mem_iff.mpr (List.mem_range.mpr hlane))]

end Regular

/-! ## All slices -/

/-- The program fills every slice with its own `fillSlice`. -/
theorem fill_eq_fillWith (f : Plan) (m : Memory) : f.fill m = f.fillWith f.fillSlice m := rfl

/-- Two folds whose steps agree where an invariant of the second one holds. -/
theorem foldl_eq_of_invariant {α β : Type} (P : β → Prop) {step step' : β → α → β} (l : List α)
    (h : ∀ b, P b → ∀ a ∈ l, step' b a = step b a ∧ P (step b a)) {b : β} (hb : P b) :
    l.foldl step' b = l.foldl step b ∧ P (l.foldl step b) := by
  induction l generalizing b with
  | nil => exact ⟨rfl, hb⟩
  | cons a l ih =>
    obtain ⟨heq, hnext⟩ := h b hb a (List.mem_cons_self ..)
    rw [List.foldl_cons, List.foldl_cons, heq]
    exact ih (fun b hb a ha => h b hb a (List.mem_cons_of_mem _ ha)) hnext

/-- A way to fill a slice that agrees with the program on every slice of every pass agrees with it
on the whole. -/
theorem fillWith_eq_fill (hf : f.layout.Regular) (hm : m.size = f.layout.total.toNat)
    {fillSlice' : Memory → UInt32 → UInt32 → Memory}
    (h : ∀ m' : Memory, m'.size = f.layout.total.toNat → ∀ pass < f.passes, ∀ slice < 4,
      fillSlice' m' pass slice = f.fillSlice m' pass slice) :
    f.fillWith fillSlice' m = f.fill m := by
  let Sized (m' : Memory) : Prop := m'.size = f.layout.total.toNat
  -- A pass: the four slices, each from a memory of the right size.
  have hpass : ∀ pass < f.passes, ∀ m', Sized m' →
      [0, 1, 2, 3].foldl (fun m slice => fillSlice' m pass slice) m' = f.fillPass m' pass ∧
        Sized (f.fillPass m' pass) := by
    intro pass hlt m' hm'
    refine foldl_eq_of_invariant Sized [0, 1, 2, 3] (fun m hm slice hslice => ?_) hm'
    have hfour : slice < 4 := by
      fin_cases hslice <;> decide
    exact ⟨h m hm pass hlt slice hfour,
      (matrix_fillSlice hf hm pass (UInt32.lt_iff_toNat_lt.mp hfour)).1.trans hm⟩
  rw [fill_eq_fillWith]
  refine (foldl_eq_of_invariant Sized (List.range f.passes.toNat) (fun m hm n hn => ?_) hm).1
  have hlt := List.mem_range.mp hn
  have hword := f.passes.toNat_lt
  refine hpass (UInt32.ofNat n) ?_ m hm
  rw [UInt32.lt_iff_toNat_lt, UInt32.toNat_ofNat', Nat.mod_eq_of_lt (by omega)]
  exact hlt

/-- For the layout of parameters in range, any variant, any number of passes, and any memory of its
size:

* in a slice of a pass, the memory that the buffers of the lanes give is the one that the lanes give
  when they fill it in place, in any interleaving of their blocks;
* after all passes the memory is the same when every slice is filled in place, each in an
  interleaving of its own;
* and it is the same when the lanes of every slice are filled and stored in any order. -/
theorem fill_schedule_independent (p : Params) (hp : p.fault? = none) (passes : UInt32)
    (variant : Variant) (m : Memory) (hm : m.size = (Layout.ofParams p).total.toNat) :
    let f : Plan := ⟨Layout.ofParams p, passes, variant⟩
    (∀ pass, ∀ slice < 4, ∀ turns, f.Interleaving pass slice turns →
      f.fillSliceInPlace turns m pass slice = f.fillSlice m pass slice) ∧
    (∀ turns : UInt32 → UInt32 → List Turn,
      (∀ pass < passes, ∀ slice < 4, f.Interleaving pass slice (turns pass slice)) →
      f.fillWith (fun m' pass slice => f.fillSliceInPlace (turns pass slice) m' pass slice) m =
        f.fill m) ∧
    (∀ order : UInt32 → UInt32 → List UInt32,
      (∀ pass < passes, ∀ slice < 4, (order pass slice).Perm f.laneList) →
      f.fillWith (fun m' pass slice => f.fillSliceBy (order pass slice) m' pass slice) m =
        f.fill m) := by
  intro f
  have hf : f.layout.Regular := (⟨p, hp⟩ : Hasher).regular
  have hfour : ∀ slice : UInt32, slice < 4 → slice.toNat < 4 := fun slice h =>
    UInt32.lt_iff_toNat_lt.mp h
  refine ⟨fun pass slice hslice turns h => ?_, fun turns h => ?_, fun order h => ?_⟩
  · exact fillSliceInPlace_eq_fillSlice hf (hfour slice hslice) hm h
  · refine fillWith_eq_fill hf hm fun m' hm' pass hpass slice hslice => ?_
    exact fillSliceInPlace_eq_fillSlice hf (hfour slice hslice) hm' (h pass hpass slice hslice)
  · refine fillWith_eq_fill hf hm fun m' hm' pass hpass slice hslice => ?_
    exact fillSliceBy_eq_fillSlice hf (hfour slice hslice) hm' (h pass hpass slice hslice)

/-- Two lanes of twelve blocks, and one pass in which the lanes take turns, the second one first. -/
theorem fill_schedule_independent_two_lanes :
    let p : Params := ⟨24, 1, 2, 32, none, none, .argon2id⟩
    let f : Plan := ⟨Layout.ofParams p, 1, .argon2id⟩
    let m : Memory := Array.replicate 24 Block.zero
    let turns (slice : UInt32) : List Turn :=
      if slice = 0 then [⟨1, 2⟩, ⟨0, 2⟩]
      else [⟨1, 0⟩, ⟨0, 0⟩, ⟨0, 1⟩, ⟨1, 1⟩, ⟨1, 2⟩, ⟨0, 2⟩]
    p.fault? = none ∧ m.size = (Layout.ofParams p).total.toNat ∧
      f.Interleaving 0 0 (turns 0) ∧ f.Interleaving 0 1 (turns 1) ∧
      f.Interleaving 0 2 (turns 2) ∧ f.Interleaving 0 3 (turns 3) ∧
      f.fillSliceInPlace (turns 1) m 0 1 = f.fillSlice m 0 1 ∧
      f.fillWith (fun m' pass slice => f.fillSliceInPlace (turns slice) m' pass slice) m =
        f.fill m ∧
      f.fillWith (fun m' pass slice => f.fillSliceBy [1, 0] m' pass slice) m = f.fill m := by
  intro p f m turns
  have hp : p.fault? = none := by decide
  have hm : m.size = (Layout.ofParams p).total.toNat := by
    rw [Array.size_replicate]
    decide
  have hplan : f = ⟨⟨2, 12, 3, 24⟩, 1, .argon2id⟩ := by
    have hlayout : Layout.ofParams p = ⟨2, 12, 3, 24⟩ := by decide
    exact congrArg (fun l => (⟨l, 1, .argon2id⟩ : Plan)) hlayout
  have hlanes : f.laneList = [0, 1] := by
    rw [hplan]
    rfl
  have hslices : ∀ slice ∈ [0, 1, 2, 3], f.Interleaving 0 slice (turns slice) := by
    intro slice hslice
    constructor
    · rw [hlanes]
      fin_cases hslice <;> decide
    · -- Lane by lane: a search through all words would not end.
      rw [hlanes, hplan, List.forall_mem_cons, List.forall_mem_singleton]
      fin_cases hslice <;> decide
  have hturns : ∀ pass < 1, ∀ slice < 4, f.Interleaving pass slice (turns slice) := by
    intro pass hpass slice hslice
    rw [UInt32.lt_iff_toNat_lt] at hpass hslice
    have hzero : pass = 0 := by
      apply UInt32.toNat_inj.mp
      show pass.toNat = 0
      have : (1 : UInt32).toNat = 1 := rfl
      omega
    have hmem : slice ∈ [0, 1, 2, 3] := by
      simp only [List.mem_cons, List.not_mem_nil, or_false, ← UInt32.toNat_inj]
      show slice.toNat = 0 ∨ slice.toNat = 1 ∨ slice.toNat = 2 ∨ slice.toNat = 3
      have : (4 : UInt32).toNat = 4 := rfl
      omega
    rw [hzero]
    exact hslices slice hmem
  obtain ⟨hslice, hplace, horder⟩ := fill_schedule_independent p hp 1 .argon2id m hm
  exact ⟨hp, hm, hslices 0 (by decide), hslices 1 (by decide), hslices 2 (by decide),
    hslices 3 (by decide), hslice 0 1 (by decide) (turns 1) (hslices 1 (by decide)),
    hplace (fun _ slice => turns slice) hturns,
    horder (fun _ _ => [1, 0]) fun _ _ _ _ => hlanes ▸ List.Perm.swap 0 1 []⟩

end Plan

end SymmetricCrypto.Argon2
