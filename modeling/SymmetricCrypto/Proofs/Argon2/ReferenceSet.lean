import Mathlib
import SymmetricCrypto.Proofs.Argon2.CheckedChoice
import SymmetricCrypto.Proofs.Argon2.Segment

/-!
# The reference block is finished

The choice takes its block from the standard's list of columns, at the place that the square of the
low half counts back from the end (`toNat_snd_choose_eq_pick`). Every block of the list was finished
before the new block is begun, and none is the new block or the one before it.

The last part is about a circle of columns. From the oldest column on, the new block is as many steps
around the lane as there are finished and seeded blocks (`oldest_add_mod`), and the block before it is
one step less (`oldest_add_pred_mod`). The own window ends before both, and fewer steps than a lane has
columns never lead to one column twice (`not_mem_run`).
-/

namespace SymmetricCrypto.Argon2

namespace Standard

/-! ## Steps around the lane -/

/-- Fewer than `q` steps from a start lead to different numbers modulo `q`. -/
theorem not_mem_run {q start length steps : ℕ} (hlength : length ≤ steps) (hsteps : steps < q) :
    (start + steps) % q ∉ run q start length := by
  intro h
  obtain ⟨k, hk, heq⟩ := List.mem_map.mp h
  rw [List.mem_range] at hk
  have hsame : k % q = steps % q := Nat.ModEq.add_left_cancel' start heq
  rw [Nat.mod_eq_of_lt (by omega), Nat.mod_eq_of_lt hsteps] at hsame
  omega

variable {segment pass slice index : ℕ}

/-- The finished blocks of the own lane and those of the current segment: so many steps from the
oldest column is the new block. -/
def ahead (segment pass slice index : ℕ) : ℕ := (if pass = 0 then slice else 3) * segment + index

/-- The new block is that many steps from the oldest column. -/
theorem oldest_add_mod (pass : ℕ) (hslice : slice < 4) (hindex : index < segment) :
    (oldest segment pass slice + ahead segment pass slice index) % (4 * segment) =
      slice * segment + index := by
  have hle : slice * segment ≤ 3 * segment := Nat.mul_le_mul_right _ (by omega)
  unfold oldest ahead
  by_cases hpass : pass = 0
  · rw [if_pos hpass, if_pos hpass, Nat.zero_add, Nat.mod_eq_of_lt (by omega)]
  · -- Around the lane once.
    have haround : (slice + 1) * segment + (3 * segment + index) =
        slice * segment + index + 4 * segment := by ring
    rw [if_neg hpass, if_neg hpass, haround, Nat.add_mod_right, Nat.mod_eq_of_lt (by omega)]

/-- The block before it is one step less. -/
theorem oldest_add_pred_mod (pass : ℕ) (hslice : slice < 4) (hindex : index < segment)
    (hpos : 0 < ahead segment pass slice index) :
    (oldest segment pass slice + (ahead segment pass slice index - 1)) % (4 * segment) =
      if slice * segment + index = 0 then 4 * segment - 1 else slice * segment + index - 1 := by
  have hcolumn := oldest_add_mod pass hslice hindex
  have hle : slice * segment ≤ 3 * segment := Nat.mul_le_mul_right _ (by omega)
  have hstep : oldest segment pass slice + ahead segment pass slice index =
      oldest segment pass slice + (ahead segment pass slice index - 1) + 1 := by omega
  rw [hstep] at hcolumn
  generalize oldest segment pass slice + (ahead segment pass slice index - 1) = steps at hcolumn ⊢
  have hlt := Nat.mod_lt steps (show 0 < 4 * segment by omega)
  -- One more step is the next column, or from the last one column zero.
  rw [Nat.add_mod, Nat.mod_eq_of_lt (a := 1) (by omega)] at hcolumn
  rcases Nat.lt_or_ge (steps % (4 * segment) + 1) (4 * segment) with hnext | hlast
  · rw [Nat.mod_eq_of_lt hnext] at hcolumn
    rw [if_neg (by omega)]
    omega
  · have hzero : steps % (4 * segment) + 1 = 4 * segment := by omega
    rw [hzero, Nat.mod_self] at hcolumn
    rw [if_pos hcolumn.symm]
    omega

/-- A window has as many columns as are counted. -/
theorem length_window {own : Bool} (hslice : slice < 4) (hindex : index ≤ segment) :
    (window segment pass slice index own).length = count segment pass slice index own := by
  rw [window_eq_run _ _ _ _ _ hslice hindex]
  exact (List.length_map _).trans List.length_range

/-- The own window ends before the block before the new one. -/
theorem count_own (segment pass slice index : ℕ) :
    count segment pass slice index true = ahead segment pass slice index - 1 := rfl

/-- Neither the new block nor the one before it is in the own window, unless the new block is the
first of the memory. -/
theorem not_mem_window_own (hslice : slice < 4) (hindex : index < segment)
    (hpos : 0 < count segment pass slice index true) :
    slice * segment + index ∉ window segment pass slice index true ∧
      (if slice * segment + index = 0 then 4 * segment - 1 else slice * segment + index - 1) ∉
        window segment pass slice index true := by
  rw [count_own] at hpos
  have hlt : ahead segment pass slice index < 4 * segment := by
    have hle : (if pass = 0 then slice else 3) * segment ≤ 3 * segment :=
      Nat.mul_le_mul_right _ (by split_ifs <;> omega)
    unfold ahead
    omega
  rw [window_eq_run _ _ _ _ _ hslice hindex.le, count_own]
  constructor
  · rw [← oldest_add_mod pass hslice hindex]
    exact not_mem_run (Nat.sub_le _ _) hlt
  · rw [← oldest_add_pred_mod pass hslice hindex (by omega)]
    exact not_mem_run le_rfl (by omega)

/-- The entry that a choice picks, by its place in the list. -/
theorem getElem?_pick {columns : List ℕ} (h : columns ≠ []) (choice : ℕ) :
    columns[columns.length - 1 - columns.length * (choice * choice / 2^32) / 2^32]? =
      some (pick columns choice) := by
  have hlength := List.length_pos_iff.mpr h
  unfold pick
  dsimp only
  rw [← pow_two, List.getD_eq_getElem _ _ (by omega), List.getElem?_eq_getElem]

end Standard

open Checked
open Standard (count pick window)

/-- The lane that a word chooses, by natural numbers. -/
def chosenLane (l : Layout) (p : Position) (word : UInt64) : ℕ :=
  if p.pass.toNat = 0 ∧ p.slice.toNat = 0 then p.lane.toNat
  else word.toNat / 2^32 % l.lanes.toNat

/-- The standard's list of the columns that a word can choose. -/
def referenceSet (l : Layout) (p : Position) (index : UInt32) (word : UInt64) : List ℕ :=
  window l.segmentLength.toNat p.pass.toNat p.slice.toNat index.toNat
    (chosenLane l p word = p.lane.toNat)

section Valid

variable {f : Plan} (hf : f.layout.Regular) {p : Position} {index : UInt32}
  (h : f.setting.Valid (p.place index)) (word : UInt64)
include hf h

/-- The choice is in the lane that the word chooses. -/
theorem toNat_fst_choose_eq_chosenLane :
    (choose f.layout p index word).1.toNat = chosenLane f.layout p word :=
  congrArg Prod.fst (choose_eq_reference hf h word)

/-- It is the column that the low half of the word picks from the list. -/
theorem toNat_snd_choose_eq_pick :
    (choose f.layout p index word).2.toNat =
      pick (referenceSet f.layout p index word) (word.toNat % 2^32) := by
  have hset : (f.setting.reference (p.place index) word).2 =
      pick (window f.setting.segment p.pass.toNat p.slice.toNat index.toNat
        (chosenLane f.layout p word = p.lane.toNat)) (word.toNat % 2^32) := rfl
  rw [referenceSet, ← Plan.segment_setting hf, ← hset]
  exact congrArg Prod.snd (choose_eq_reference hf h word)

/-- The list has an entry. -/
theorem referenceSet_ne_nil : referenceSet f.layout p index word ≠ [] := by
  have hpos := count_choose_pos hf h word
  have hslice : p.slice.toNat < 4 := h.slice_lt
  have hindex : index.toNat < f.layout.segmentLength.toNat := Plan.segment_setting hf ▸ h.index_lt
  have hown : decide ((choose f.layout p index word).1 = p.lane) =
      decide (chosenLane f.layout p word = p.lane.toNat) := by
    rw [← toNat_fst_choose_eq_chosenLane hf h]
    exact decide_eq_decide.mpr UInt32.toNat_inj.symm
  rw [hown] at hpos
  rw [referenceSet, ← List.length_pos_iff, Standard.length_window hslice hindex.le]
  exact hpos

/-- In the own lane the choice is neither the new block nor the one before it. -/
theorem snd_choose_ne_of_own (hown : (choose f.layout p index word).1 = p.lane) :
    let new := p.slice.toNat * f.layout.segmentLength.toNat + index.toNat
    (choose f.layout p index word).2.toNat ≠ new ∧
      (choose f.layout p index word).2.toNat ≠
        if new = 0 then f.layout.laneLength.toNat - 1 else new - 1 := by
  intro new
  have hslice : p.slice.toNat < 4 := h.slice_lt
  have hindex : index.toNat < f.layout.segmentLength.toNat := Plan.segment_setting hf ▸ h.index_lt
  have hlane : chosenLane f.layout p word = p.lane.toNat := by
    rw [← toNat_fst_choose_eq_chosenLane hf h, hown]
  -- In its own lane, the new block chooses from its own window.
  have hset : referenceSet f.layout p index word =
      window f.layout.segmentLength.toNat p.pass.toNat p.slice.toNat index.toNat true := by
    rw [referenceSet, decide_eq_true hlane]
  have hne := referenceSet_ne_nil hf h word
  have hmem : (choose f.layout p index word).2.toNat ∈ referenceSet f.layout p index word := by
    rw [toNat_snd_choose_eq_pick hf h]
    exact Standard.pick_mem _ _ (List.length_pos_iff.mpr hne)
  rw [hset] at hne hmem
  rw [← List.length_pos_iff, Standard.length_window hslice hindex.le] at hne
  obtain ⟨hnew, hprevious⟩ := Standard.not_mem_window_own hslice hindex hne
  rw [hf.laneLength_eq]
  exact ⟨ne_of_mem_of_not_mem hmem hnew, ne_of_mem_of_not_mem hmem hprevious⟩

/-- In another lane it is outside of the current slice. -/
theorem snd_choose_of_other (hother : (choose f.layout p index word).1 ≠ p.lane) :
    (choose f.layout p index word).2.toNat < p.slice.toNat * f.layout.segmentLength.toNat ∨
      (p.slice.toNat + 1) * f.layout.segmentLength.toNat ≤
        (choose f.layout p index word).2.toNat := by
  obtain ⟨-, -, houtside⟩ := Standard.reference_mem h hf.lanes_pos
    (by rw [Plan.segment_setting hf]; exact hf.two_le_segment) word
  rw [← choose_eq_reference hf h, Plan.segment_setting hf] at houtside
  exact houtside.resolve_left fun hlane => hother (UInt32.toNat_inj.mp hlane)

end Valid

/-- For all parameters in range, every block that is filled and every word, with `W` the standard's
list of columns and `J_1` the low half of the word:

* `W` is not empty, and the choice meets no fault, so that with its operations checked it is the
  same;
* the choice is in the lane that the high half of the word selects, and its column is the entry of
  `W` that `J_1` selects, one of the lane;
* in the own lane the column is neither that of the new block nor that of the block before it, and in
  another lane it is outside of the current slice. -/
theorem choose_eq_getElem_referenceSet (params : Params) (hparams : params.fault? = none)
    (p : Position) (index : UInt32) (word : UInt64)
    (hlane : p.lane.toNat < (Layout.ofParams params).lanes.toNat) (hslice : p.slice.toNat < 4)
    (hindex : index.toNat < (Layout.ofParams params).segmentLength.toNat)
    (hgiven : p.pass = 0 → p.slice = 0 → 2 ≤ index.toNat) :
    let l := Layout.ofParams params
    let W := referenceSet l p index word
    let J₁ := word.toNat % 2^32
    let chosen := choose l p index word
    let new := p.slice.toNat * l.segmentLength.toNat + index.toNat
    W ≠ [] ∧
      chooseChecked l p index word = pure chosen ∧
      chosen.1.toNat = chosenLane l p word ∧
      W[W.length - 1 - W.length * (J₁ * J₁ / 2^32) / 2^32]? = some chosen.2.toNat ∧
      chosen.2.toNat < l.laneLength.toNat ∧
      (chosen.1 = p.lane → chosen.2.toNat ≠ new ∧
        chosen.2.toNat ≠ if new = 0 then l.laneLength.toNat - 1 else new - 1) ∧
      (chosen.1 ≠ p.lane → chosen.2.toNat < p.slice.toNat * l.segmentLength.toNat ∨
        (p.slice.toNat + 1) * l.segmentLength.toNat ≤ chosen.2.toNat) := by
  have hf := Hasher.regular ⟨params, hparams⟩
  -- The block is one that is filled.
  have hvalid : (Hasher.plan ⟨params, hparams⟩).setting.Valid (p.place index) := by
    refine ⟨hslice, hlane, ?_, Plan.segment_setting hf ▸ hindex⟩
    show Standard.Setting.first p.pass.toNat p.slice.toNat ≤ index.toNat
    unfold Standard.Setting.first
    split_ifs with hfirst
    · obtain ⟨hpass, hslice⟩ := (given_iff_toNat p).mpr hfirst
      exact hgiven hpass hslice
    · exact Nat.zero_le _
  have hne := referenceSet_ne_nil hf hvalid word
  intro l W J₁ chosen new
  refine ⟨hne, chooseChecked_eq hf hvalid word, toNat_fst_choose_eq_chosenLane hf hvalid word, ?_,
    (Plan.toNat_choose_lt hf hvalid word).2, snd_choose_ne_of_own hf hvalid word,
    snd_choose_of_other hf hvalid word⟩
  exact (Standard.getElem?_pick hne J₁).trans
    (congrArg some (toNat_snd_choose_eq_pick hf hvalid word).symm)

/-- The first block of a lane in the second pass, whose predecessor is the last one of the lane: 32
blocks in two lanes, with a word that selects the own lane and its oldest column. -/
theorem choose_eq_getElem_referenceSet_around :
    let params : Params := ⟨32, 2, 2, 32, none, none, .argon2d⟩
    let l := Layout.ofParams params
    let p : Position := ⟨1, 0, 0⟩
    params.fault? = none ∧ p.lane.toNat < l.lanes.toNat ∧ p.slice.toNat < 4 ∧
      (0 : UInt32).toNat < l.segmentLength.toNat ∧
      (p.pass = 0 → p.slice = 0 → 2 ≤ (0 : UInt32).toNat) ∧
      referenceSet l p 0 0xffffffff = [4, 5, 6, 7, 8, 9, 10, 11, 12, 13, 14] ∧
      chooseChecked l p 0 0xffffffff = pure (0, 4) := by
  intro params l p
  have hchosen : choose l p 0 0xffffffff = (0, 4) := by decide
  refine ⟨by decide, by decide, by decide, by decide, by decide, by decide, ?_⟩
  rw [← hchosen]
  exact (choose_eq_getElem_referenceSet params (by decide) p 0 0xffffffff (by decide) (by decide)
    (by decide) (by decide)).2.1

end SymmetricCrypto.Argon2
