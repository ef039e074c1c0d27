import Mathlib
import SymmetricCrypto.Proofs.Argon2.ReferenceSet

/-!
# The choice goes over the whole window

The low half `J_1` of a word picks a column of the window by counting back from the newest one, by
`⌊n ⌊J_1^2 / 2^32⌋ / 2^32⌋` columns for a window of `n` (`Standard.back`). The count begins with zero
and never goes down (`back_mono`). From one `J_1` to the next the inner quotient goes up by two at most,
so as long as `n` is at most `2^31` the count goes up by one at most (`back_succ_le`), and the largest
`J_1` counts `n - 1` columns (`back_last`). So no column is left out (`exists_back_eq`).

A window has no column twice (`nodup_window`), so the place of a column in it is the distance from the
oldest one, and the place of the one picked is `n - 1` less the count (`idxOf_pick`).
-/

namespace SymmetricCrypto.Argon2

namespace Standard

/-! ## Counting back -/

/-- The number of columns that a choice counts back from the newest of `n`. -/
def back (n choice : ℕ) : ℕ := n * (choice^2 / 2^32) / 2^32

/-- The smallest choice picks the newest column. -/
theorem back_zero (n : ℕ) : back n 0 = 0 := by
  simp [back]

/-- A larger choice counts back at least as far. -/
theorem back_mono (n : ℕ) {a b : ℕ} (h : a ≤ b) : back n a ≤ back n b :=
  Nat.div_le_div_right (Nat.mul_le_mul_left n (Nat.div_le_div_right (Nat.pow_le_pow_left h 2)))

/-- From one choice to the next, the count goes up by one at most. -/
theorem back_succ_le {n a : ℕ} (hn : n ≤ 2^31) (ha : a < 2^32) : back n (a + 1) ≤ back n a + 1 := by
  -- The difference of two squares is below `2^33`.
  have hsquare : (a + 1)^2 / 2^32 ≤ a^2 / 2^32 + 2 := by
    have hnext : (a + 1)^2 = a^2 + (2 * a + 1) := by ring
    omega
  have hproduct : n * ((a + 1)^2 / 2^32) ≤ n * (a^2 / 2^32) + 2^32 :=
    calc n * ((a + 1)^2 / 2^32) ≤ n * (a^2 / 2^32 + 2) := Nat.mul_le_mul_left n hsquare
      _ = n * (a^2 / 2^32) + n * 2 := Nat.mul_add n _ 2
      _ ≤ n * (a^2 / 2^32) + 2^32 := by omega
  calc back n (a + 1) ≤ (n * (a^2 / 2^32) + 2^32) / 2^32 := Nat.div_le_div_right hproduct
    _ = back n a + 1 := Nat.add_div_right _ (by decide)

/-- The largest choice counts back to the oldest column. -/
theorem back_last {n : ℕ} (hpos : 1 ≤ n) (hn : n ≤ 2^31) : back n (2^32 - 1) = n - 1 := by
  have hsquare : (2^32 - 1)^2 / 2^32 = 2^32 - 2 := by norm_num
  rw [back, hsquare]
  omega

/-- Numbers that begin with zero and go up by one at most leave none out. -/
theorem exists_eq_of_succ_le {f : ℕ → ℕ} (hzero : f 0 = 0) {last m : ℕ}
    (hstep : ∀ a < last, f (a + 1) ≤ f a + 1) (hm : m ≤ f last) : ∃ a ≤ last, f a = m := by
  induction last with
  | zero => exact ⟨0, le_rfl, by omega⟩
  | succ last ih =>
    rcases Nat.lt_or_ge (f last) m with hlt | hle
    · -- It is reached in the last step.
      have hlast := hstep last (Nat.lt_succ_self last)
      exact ⟨last + 1, le_rfl, by omega⟩
    · obtain ⟨a, ha, hfa⟩ := ih (fun a ha => hstep a (Nat.lt_succ_of_lt ha)) hle
      exact ⟨a, Nat.le_succ_of_le ha, hfa⟩

/-- Every column of a window of at most `2^31` is counted back to. -/
theorem exists_back_eq {n m : ℕ} (hn : n ≤ 2^31) (hm : m < n) : ∃ a < 2^32, back n a = m := by
  have hlast : m ≤ back n (2^32 - 1) := by
    rw [back_last (by omega) hn]
    omega
  obtain ⟨a, ha, hback⟩ := exists_eq_of_succ_le (back_zero n)
    (fun a ha => back_succ_le hn (by omega)) hlast
  exact ⟨a, by omega, hback⟩

/-! ## Places in the window -/

/-- The entry of a run at a place. -/
theorem getElem?_run {q start length k : ℕ} (hk : k < length) :
    (run q start length)[k]? = some ((start + k) % q) := by
  rw [run, List.getElem?_map, List.getElem?_range hk, Option.map_some]

/-- A run that does not come around to its start has no entry twice. -/
theorem nodup_run {q start length : ℕ} (hlength : length ≤ q) : (run q start length).Nodup := by
  refine List.nodup_range.map_on fun i hi j hj h => ?_
  rw [List.mem_range] at hi hj
  have hsame : i % q = j % q := Nat.ModEq.add_left_cancel' start h
  rwa [Nat.mod_eq_of_lt (by omega), Nat.mod_eq_of_lt (by omega)] at hsame

section Window

variable {segment slice index : ℕ} (pass : ℕ) (own : Bool) (hslice : slice < 4)
  (hindex : index < segment)
include hslice hindex

/-- A window has fewer columns than the lane. -/
theorem count_lt : count segment pass slice index own < 4 * segment := by
  have hle : (if pass = 0 then slice else 3) * segment ≤ 3 * segment :=
    Nat.mul_le_mul_right _ (by split_ifs <;> omega)
  have hcurrent : (if own then index else 0) ≤ index := by
    split_ifs <;> omega
  unfold count
  omega

/-- No column is in a window twice. -/
theorem nodup_window : (window segment pass slice index own).Nodup := by
  rw [window_eq_run _ _ _ _ _ hslice hindex.le]
  exact nodup_run (count_lt pass own hslice hindex).le

/-- The columns of a window are consecutive around the lane, from the oldest one on. -/
theorem getElem?_window {k : ℕ} (hk : k < (window segment pass slice index own).length) :
    (window segment pass slice index own)[k]? =
      some (((window segment pass slice index own).headD 0 + k) % (4 * segment)) := by
  rw [length_window hslice hindex.le] at hk
  have hhead : (window segment pass slice index own).headD 0 =
      oldest segment pass slice % (4 * segment) := by
    rw [List.headD_eq_head?_getD, List.head?_eq_getElem?, window_eq_run _ _ _ _ _ hslice hindex.le,
      getElem?_run (by omega), Option.getD_some, Nat.add_zero]
  rw [hhead, window_eq_run _ _ _ _ _ hslice hindex.le, getElem?_run hk, Nat.mod_add_mod]

end Window

section Pick

variable {columns : List ℕ} (hne : columns ≠ [])
include hne

/-- A choice picks the entry that it counts back to. -/
theorem getElem?_back (choice : ℕ) :
    columns[columns.length - 1 - back columns.length choice]? = some (pick columns choice) := by
  rw [back, pow_two]
  exact getElem?_pick hne choice

/-- In a list without repetitions, the place of the entry that is picked. -/
theorem idxOf_pick (hnodup : columns.Nodup) (choice : ℕ) :
    columns.idxOf (pick columns choice) = columns.length - 1 - back columns.length choice := by
  have hlength := List.length_pos_iff.mpr hne
  have hplace : columns.length - 1 - back columns.length choice < columns.length := by omega
  have hentry := getElem?_back hne choice
  rw [List.getElem?_eq_getElem hplace, Option.some_inj] at hentry
  rw [← hentry, hnodup.idxOf_getElem]

end Pick

end Standard

open Standard (back pick)

/-! ## The halves of a word -/

/-- The word whose low half is `J₁` and whose high half is `J₂`. -/
def wordOf (J₁ J₂ : UInt32) : UInt64 := UInt64.ofNat (J₁.toNat + 2^32 * J₂.toNat)

/-- The number of a word, by its halves. -/
theorem toNat_wordOf (J₁ J₂ : UInt32) : (wordOf J₁ J₂).toNat = J₁.toNat + 2^32 * J₂.toNat := by
  have h₁ := J₁.toNat_lt
  have h₂ := J₂.toNat_lt
  rw [wordOf, UInt64.toNat_ofNat', Nat.mod_eq_of_lt (by omega)]

/-- The low half of a word. -/
theorem wordOf_mod (J₁ J₂ : UInt32) : (wordOf J₁ J₂).toNat % 2^32 = J₁.toNat := by
  rw [toNat_wordOf, Nat.add_mul_mod_self_left, Nat.mod_eq_of_lt J₁.toNat_lt]

/-- The low half has no part in the choice of the lane. -/
theorem chosenLane_wordOf (l : Layout) (p : Position) (J₁ J₂ : UInt32) :
    chosenLane l p (wordOf J₁ J₂) = chosenLane l p (wordOf 0 J₂) := by
  have hhigh (J : UInt32) : (wordOf J J₂).toNat / 2^32 = J₂.toNat := by
    rw [toNat_wordOf, Nat.add_mul_div_left _ _ (by decide), Nat.div_eq_of_lt J.toNat_lt, Nat.zero_add]
  unfold chosenLane
  rw [hhigh, hhigh]

/-- The low half has no part in the window. -/
theorem referenceSet_wordOf (l : Layout) (p : Position) (index J₁ J₂ : UInt32) :
    referenceSet l p index (wordOf J₁ J₂) = referenceSet l p index (wordOf 0 J₂) := by
  unfold referenceSet
  rw [chosenLane_wordOf]

/-- In the first slice of the first pass, a window is empty before the third block. -/
theorem two_le_index {l : Layout} {p : Position} {index : UInt32} {word : UInt64}
    (hindex : index.toNat < l.segmentLength.toNat)
    (hpos : 1 ≤ (referenceSet l p index word).length) (hpass : p.pass = 0) (hslice : p.slice = 0) :
    2 ≤ index.toNat := by
  obtain ⟨hpass, hslice⟩ := (given_iff_toNat p).mp ⟨hpass, hslice⟩
  have hown : decide (chosenLane l p word = p.lane.toNat) = true :=
    decide_eq_true (if_pos ⟨hpass, hslice⟩)
  rw [referenceSet, hown, hpass, hslice, Standard.length_window (by decide) hindex.le,
    Standard.count, if_pos rfl, if_pos rfl, if_pos (Or.inl rfl)] at hpos
  omega

/-- A block of a segment whose window is not empty is one that is filled. -/
theorem Hasher.valid_place (a : Hasher) {p : Position} {index : UInt32} {word : UInt64}
    (hlane : p.lane.toNat < a.plan.layout.lanes.toNat) (hslice : p.slice.toNat < 4)
    (hindex : index.toNat < a.plan.layout.segmentLength.toNat)
    (hpos : 1 ≤ (referenceSet a.plan.layout p index word).length) :
    a.plan.setting.Valid (p.place index) := by
  refine ⟨hslice, hlane, ?_, Plan.segment_setting a.regular ▸ hindex⟩
  show Standard.Setting.first p.pass.toNat p.slice.toNat ≤ index.toNat
  unfold Standard.Setting.first
  split_ifs with hfirst
  · -- The first two blocks of a lane are given.
    obtain ⟨hpass, hslice⟩ := (given_iff_toNat p).mpr hfirst
    exact two_le_index hindex hpos hpass hslice
  · exact Nat.zero_le _

/-- For all parameters in range, every block of a segment and every high half `J₂` of a word, if the window
`W` that `J₂` selects has from one to `2^31` columns:

* `W` has the columns from its oldest one on, around the lane and none twice, so that the place of a
  column in `W` is its distance from the oldest one;
* whatever the low half `J₁` is, the choice is in the lane that `J₂` selects, and in `W`;
* the distance of the choice from the oldest column does not increase with `J₁`;
* with `J₁` zero the choice is the newest column, and with the largest `J₁` it is the oldest one;
* every column of `W` is the choice for some `J₁`. -/
theorem choose_covers_window (params : Params) (hparams : params.fault? = none) (p : Position)
    (index J₂ : UInt32) (hlane : p.lane.toNat < (Layout.ofParams params).lanes.toNat)
    (hslice : p.slice.toNat < 4)
    (hindex : index.toNat < (Layout.ofParams params).segmentLength.toNat)
    (hpos : 1 ≤ (referenceSet (Layout.ofParams params) p index (wordOf 0 J₂)).length)
    (hmax : (referenceSet (Layout.ofParams params) p index (wordOf 0 J₂)).length ≤ 2^31) :
    let l := Layout.ofParams params
    let W := referenceSet l p index (wordOf 0 J₂)
    let chosen (J₁ : UInt32) := choose l p index (wordOf J₁ J₂)
    let fromOldest (J₁ : UInt32) := W.idxOf (chosen J₁).2.toNat
    (W.Nodup ∧ ∀ k < W.length, W[k]? = some ((W.headD 0 + k) % l.laneLength.toNat)) ∧
      (∀ J₁, (chosen J₁).1.toNat = chosenLane l p (wordOf 0 J₂) ∧ (chosen J₁).2.toNat ∈ W) ∧
      (∀ J₁ J₁', J₁ ≤ J₁' → fromOldest J₁' ≤ fromOldest J₁) ∧
      W.getLast? = some (chosen 0).2.toNat ∧
      W.head? = some (chosen 0xffffffff).2.toNat ∧
      ∀ column ∈ W, ∃ J₁, (chosen J₁).2.toNat = column := by
  have hf := Hasher.regular ⟨params, hparams⟩
  have hvalid : (Hasher.plan ⟨params, hparams⟩).setting.Valid (p.place index) :=
    Hasher.valid_place ⟨params, hparams⟩ hlane hslice hindex hpos
  intro l W chosen fromOldest
  have hne : W ≠ [] := List.length_pos_iff.mp hpos
  have hnodup : W.Nodup := Standard.nodup_window _ _ hslice hindex
  have hlaneLength : l.laneLength.toNat = 4 * l.segmentLength.toNat := hf.laneLength_eq
  -- The choice is what `J₁` picks from the window.
  have hchosen (J₁ : UInt32) : (chosen J₁).2.toNat = pick W J₁.toNat := by
    have hpick := toNat_snd_choose_eq_pick hf hvalid (wordOf J₁ J₂)
    rw [referenceSet_wordOf, wordOf_mod] at hpick
    exact hpick
  have hplace (J₁ : UInt32) : fromOldest J₁ = W.length - 1 - back W.length J₁.toNat := by
    show W.idxOf (chosen J₁).2.toNat = _
    rw [hchosen, Standard.idxOf_pick hne hnodup]
  have hentry (J₁ : UInt32) : W[W.length - 1 - back W.length J₁.toNat]? = some (chosen J₁).2.toNat := by
    rw [hchosen, Standard.getElem?_back hne]
  have hlast : (0xffffffff : UInt32).toNat = 2^32 - 1 := rfl
  refine ⟨⟨hnodup, fun k hk => ?_⟩, fun J₁ => ⟨?_, ?_⟩, fun J₁ J₁' hle => ?_, ?_, ?_,
    fun column hcolumn => ?_⟩
  · rw [hlaneLength]
    exact Standard.getElem?_window _ _ hslice hindex hk
  · have hfst := toNat_fst_choose_eq_chosenLane hf hvalid (wordOf J₁ J₂)
    rw [chosenLane_wordOf] at hfst
    exact hfst
  · exact List.mem_of_getElem? (hentry J₁)
  · have hback := Standard.back_mono W.length (UInt32.le_iff_toNat_le.mp hle)
    rw [hplace, hplace]
    omega
  · rw [List.getLast?_eq_getElem?, ← hentry 0, UInt32.toNat_zero, Standard.back_zero, Nat.sub_zero]
  · rw [List.head?_eq_getElem?, ← hentry, hlast, Standard.back_last hpos hmax, Nat.sub_self]
  · -- The column is as far from the newest one as some choice counts back.
    obtain ⟨k, hk, rfl⟩ := List.mem_iff_getElem.mp hcolumn
    obtain ⟨J₁, hJ₁, hback⟩ := Standard.exists_back_eq hmax (by omega : W.length - 1 - k < W.length)
    refine ⟨UInt32.ofNat J₁, ?_⟩
    have hfound := hentry (UInt32.ofNat J₁)
    rw [UInt32.toNat_ofNat', Nat.mod_eq_of_lt hJ₁, hback, Nat.sub_sub_self (by omega),
      List.getElem?_eq_getElem hk, Option.some_inj] at hfound
    exact hfound.symm

/-- The second block of a segment in the second pass, with a window that goes around the lane: 32 blocks in
two lanes, and a word that selects the own lane. -/
theorem choose_covers_window_around :
    let params : Params := ⟨32, 2, 2, 32, none, none, .argon2d⟩
    let l := Layout.ofParams params
    let p : Position := ⟨1, 0, 1⟩
    let W := referenceSet l p 1 (wordOf 0 0)
    params.fault? = none ∧ p.lane.toNat < l.lanes.toNat ∧ p.slice.toNat < 4 ∧
      (1 : UInt32).toNat < l.segmentLength.toNat ∧ 1 ≤ W.length ∧ W.length ≤ 2^31 ∧
      W = [8, 9, 10, 11, 12, 13, 14, 15, 0, 1, 2, 3] ∧
      ∀ column ∈ W, ∃ J₁, (choose l p 1 (wordOf J₁ 0)).2.toNat = column := by
  intro params l p W
  have hW : W = [8, 9, 10, 11, 12, 13, 14, 15, 0, 1, 2, 3] := by decide
  have hlength : W.length = 12 := congrArg List.length hW
  have hpos : 1 ≤ W.length := by omega
  have hmax : W.length ≤ 2^31 := by omega
  obtain ⟨-, -, -, -, -, hcovered⟩ := choose_covers_window params (by decide) p 1 0 (by decide)
    (by decide) (by decide) hpos hmax
  exact ⟨by decide, by decide, by decide, by decide, hpos, hmax, hW, hcovered⟩

end SymmetricCrypto.Argon2
