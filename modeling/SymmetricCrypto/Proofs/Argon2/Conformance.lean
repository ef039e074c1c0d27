import Mathlib
import SymmetricCrypto.Proofs.Argon2.Filling
import SymmetricCrypto.Proofs.Argon2.InitialInput

/-!
# Deriving gives the standard's tag

For all parameters in range, every password and every salt of at least eight bytes, the derivation
is the one of RFC 9106, if the memory for it is there.

What is left after the filling is what stands around it. The input of the initial digest is the
standard's, for all lengths below `2^32` (`initialInput_eq_standard`). Byte strings are read as blocks
and blocks written as bytes in the way of the standard, which says where each byte is
(`blockOf_eq_ofBytes`, `bytesOf_eq_toBytes`). So the given blocks of all lanes are the first two
columns of the standard's matrix (`same_initialMemory`). And the sum of the last blocks reads the last
column (`lastColumn_eq_standard`). -/

namespace SymmetricCrypto.Argon2

open Standard Stretch.Standard

/-- The length of a tag fits. -/
theorem tagLength_lt {p : Params} (hp : p.fault? = none) : p.tagLength < UInt32.size := by
  obtain ⟨-, -, -, ⟨-, htag⟩, -⟩ := p.fault?_eq_none_iff.mp hp
  have hmax : maxTagLength < UInt32.size := by decide
  omega

/-- With parameters in range, only the password and the salt can be too long. -/
theorem forall_strings_iff {p : Params} (hp : p.fault? = none) (password salt : Bytes) :
    (∀ data ∈ strings p password salt, data.length < 2^32) ↔
      password.length < UInt32.size ∧ salt.length < UInt32.size := by
  obtain ⟨-, -, -, -, hsecret, hassociated⟩ := p.fault?_eq_none_iff.mp hp
  have hothers : (p.secret.getD []).length < 2^32 ∧ (p.associated.getD []).length < 2^32 :=
    ⟨hsecret, hassociated⟩
  simp only [strings, List.forall_mem_cons, List.not_mem_nil, false_implies, implies_true, hothers,
    and_true]
  exact Iff.rfl

/-- The input of the initial digest is the standard's. -/
theorem initialInput_eq_standard {p : Params} (hp : p.fault? = none) {password salt : Bytes}
    (hpassword : password.length < UInt32.size) (hsalt : salt.length < UInt32.size) :
    initialInput p password salt = .ok (initialBytes p password salt) := by
  have htag : p.tagLength < 2^32 := tagLength_lt hp
  rw [initialInput_eq, if_neg (Nat.not_le.mpr htag),
    if_pos ((forall_strings_iff hp password salt).mpr ⟨hpassword, hsalt⟩)]

/-- The block of a byte string is the standard's. -/
theorem blockOf_eq_ofBytes (data : Bytes) : blockOf data = Block.ofBytes data := by
  unfold blockOf Block.ofBytes
  simp only [LittleEndian.decode_take_drop]

/-- The bytes of a block are the standard's. -/
theorem bytesOf_eq_toBytes (x : Block) : bytesOf x = x.toBytes := by
  have hword (i : Fin 128) :
      (List.ofFn fun j : Fin 8 =>
        UInt8.ofNat ((x.getD ((8 * i.val + j.val) / 8) 0).toNat / 256^((8 * i.val + j.val) % 8))) =
          LittleEndian.encode 8 x[i].toNat := by
    have hdiv (j : Fin 8) : (8 * i.val + j.val) / 8 = i.val := by omega
    have hmod (j : Fin 8) : (8 * i.val + j.val) % 8 = j.val := by omega
    simp only [hdiv, hmod, getD_eq_getElem x i.isLt]
    refine List.ext_getElem ?_ fun j _ _ => ?_
    · rw [List.length_ofFn, LittleEndian.length_encode]
    · rw [List.getElem_ofFn, LittleEndian.getElem_encode]
      rfl
  have hlist : (List.ofFn fun i : Fin 128 => LittleEndian.encode 8 x[i].toNat) =
      x.toList.map fun w => LittleEndian.encode 8 w.toNat := by
    refine List.ext_getElem ?_ fun i _ _ => ?_
    · rw [List.length_ofFn, List.length_map, Vector.length_toList]
    · rw [List.getElem_ofFn, List.getElem_map, Vector.getElem_toList]
      rfl
  rw [bytesOf, Block.toBytes, List.ofFn_mul', List.flatMap_def]
  simp only [hword, hlist]

/-- The given blocks are the standard's. -/
theorem givenBlock_eq_standard (digest : Vector UInt8 64) (lane column : UInt32)
    (hcolumn : column.toNat < 2) :
    givenBlock digest lane column = initialMatrix digest.toList lane.toNat column.toNat := by
  unfold givenBlock initialMatrix
  dsimp only
  rw [if_pos hcolumn, Stretch.digest_eq_standard, blockOf_eq_ofBytes, le32_eq_encode, le32_eq_encode]
  rfl

namespace Plan

/-- The memory with the two given blocks of a lane. -/
def give (f : Plan) (digest : Vector UInt8 64) (m : Memory) (lane : Nat) : Memory :=
  (m.setIfInBounds (f.layout.index (UInt32.ofNat lane) 0)
    (givenBlock digest (UInt32.ofNat lane) 0)).setIfInBounds
      (f.layout.index (UInt32.ofNat lane) 1) (givenBlock digest (UInt32.ofNat lane) 1)

/-- The lanes get their blocks one after another. -/
theorem initialMemory_eq_foldl (f : Plan) (digest : Vector UInt8 64) :
    initialMemory f digest = (List.range f.setting.lanes).foldl (f.give digest)
      (Array.replicate f.layout.total.toNat Block.zero) := by
  unfold initialMemory laneList
  rw [List.foldl_map]
  rfl

/-- Giving a lane its blocks keeps the size of the memory. -/
@[simp] theorem size_give (f : Plan) (digest : Vector UInt8 64) (m : Memory) (lane : Nat) :
    (f.give digest m lane).size = m.size := by
  unfold give
  rw [Array.size_setIfInBounds, Array.size_setIfInBounds]

variable {f : Plan}

/-- The place of a block, for lanes that are counted in words. -/
theorem index_ofNat {lane : Nat} (h : lane < f.setting.lanes) (column : UInt32) :
    f.layout.index (UInt32.ofNat lane) column =
      lane * f.layout.laneLength.toNat + column.toNat := by
  have htoNat : (UInt32.ofNat lane).toNat = lane := toNat_lane_position 0 0 h
  unfold Layout.index
  rw [htoNat]

variable (hf : f.layout.Regular)
include hf

/-- Giving a lane its two blocks puts them in the first two columns of the lane. -/
theorem matrix_give (digest : Vector UInt8 64) {m : Memory} (hm : m.size = f.layout.total.toNat)
    {n : Nat} (hn : n < f.setting.lanes) {lane column : Nat}
    (hcolumn : column < f.setting.columns) :
    f.matrix (f.give digest m n) lane column =
      if lane = n ∧ column < 2 then initialMatrix digest.toList lane column
      else f.matrix m lane column := by
  obtain ⟨-, htwo, hcolumns⟩ := even_setting hf
  rw [hcolumns] at hcolumn
  have hlength : f.layout.laneLength.toNat = 4 * f.setting.segment := by
    rw [← columns_setting hf, hcolumns]
  have htoNat : (UInt32.ofNat n).toNat = n := toNat_lane_position 0 0 hn
  have hzero : f.layout.index (UInt32.ofNat n) 0 = n * f.layout.laneLength.toNat + 0 :=
    index_ofNat hn 0
  have hone : f.layout.index (UInt32.ofNat n) 1 = n * f.layout.laneLength.toNat + 1 :=
    index_ofNat hn 1
  -- Both places are in the memory.
  have hend : n * f.layout.laneLength.toNat + 2 ≤ f.layout.total.toNat :=
    hf.place_le hn (by omega)
  have hsize : n * f.layout.laneLength.toNat + 1 < m.size := by omega
  have hgiven0 := givenBlock_eq_standard digest (UInt32.ofNat n) 0 (by decide)
  have hgiven1 := givenBlock_eq_standard digest (UInt32.ofNat n) 1 (by decide)
  rw [htoNat] at hgiven0 hgiven1
  unfold matrix give
  dsimp only
  rw [getD_setIfInBounds, getD_setIfInBounds, hzero, hone, Array.size_setIfInBounds]
  by_cases hown : lane = n ∧ column < 2
  · -- The column says which of the two blocks is read.
    obtain ⟨rfl, hlt⟩ := hown
    rw [if_pos (c := lane = lane ∧ column < 2) ⟨rfl, hlt⟩]
    rcases Nat.lt_or_ge column 1 with h0 | h1
    · have hcol : column = 0 := by omega
      rw [if_neg (by omega), if_pos ⟨by rw [hcol], by omega⟩, hcol]
      exact hgiven0
    · have hcol : column = 1 := by omega
      rw [if_pos ⟨by rw [hcol], hsize⟩, hcol]
      exact hgiven1
  · -- No other block has one of the two places.
    have hother : ∀ c < 2,
        ¬(lane * f.layout.laneLength.toNat + column = n * f.layout.laneLength.toNat + c) := by
      intro c hc heq
      obtain ⟨hl, hcol⟩ := Layout.place_inj (by omega) (by omega) heq
      exact hown ⟨hl, by omega⟩
    rw [if_neg hown, if_neg fun h => hother 1 (by decide) h.1,
      if_neg fun h => hother 0 (by decide) h.1]

/-- After some lanes their given blocks are in the memory, and the rest is zero. -/
theorem matrix_foldl_give (digest : Vector UInt8 64) (n : Nat) (hn : n ≤ f.setting.lanes) :
    let given := (List.range n).foldl (f.give digest)
      (Array.replicate f.layout.total.toNat Block.zero)
    given.size = f.layout.total.toNat ∧
      ∀ lane < f.setting.lanes, ∀ column < f.setting.columns, f.matrix given lane column =
        if lane < n then initialMatrix digest.toList lane column else zeros := by
  induction n with
  | zero =>
    refine ⟨Array.size_replicate, fun lane hlane column hcolumn => ?_⟩
    unfold matrix
    dsimp only
    rw [if_neg (Nat.not_lt_zero _), List.range_zero, List.foldl_nil, Array.getD_eq_getD_getElem?,
      Array.getElem?_replicate, zeros_eq_zero]
    split_ifs <;> rfl
  | succ n ih =>
    -- The lanes before lane `n` are given, and lane `n` is given now.
    obtain ⟨hsize, hgiven⟩ := ih (by omega)
    dsimp only at hsize hgiven ⊢
    rw [List.range_succ, List.foldl_append, List.foldl_cons, List.foldl_nil]
    refine ⟨by rw [size_give, hsize], fun lane hlane column hcolumn => ?_⟩
    rw [matrix_give hf digest hsize (by omega) hcolumn, hgiven lane hlane column hcolumn]
    by_cases hown : lane = n
    · -- The rest of the lane is zero in the standard's matrix too.
      rw [if_pos (c := lane < n + 1) (by omega)]
      by_cases hlt : column < 2
      · rw [if_pos ⟨hown, hlt⟩]
      · rw [if_neg fun h => hlt h.2, if_neg (by omega)]
        exact (if_neg hlt).symm
    · rw [if_neg fun h => hown h.1]
      exact if_congr (by omega) rfl rfl

/-- The memory before the first pass holds the standard's matrix. -/
theorem same_initialMemory (digest : Vector UInt8 64) :
    (initialMemory f digest).size = f.layout.total.toNat ∧
      f.setting.Same (initialMatrix digest.toList) (f.matrix (initialMemory f digest)) := by
  obtain ⟨hsize, hgiven⟩ := matrix_foldl_give hf digest f.setting.lanes le_rfl
  rw [initialMemory_eq_foldl]
  refine ⟨hsize, fun lane hlane column hcolumn => ?_⟩
  rw [hgiven lane hlane column hcolumn, if_pos hlane]

/-- The sum of the last blocks is that of the last column. -/
theorem lastColumn_eq_standard {m : Memory} {B : Matrix} (hB : f.setting.Same B (f.matrix m)) :
    lastColumn f m = f.setting.lastColumn B := by
  obtain ⟨-, htwo, hcolumns⟩ := even_setting hf
  have hlength := columns_setting hf
  have hlast : (f.layout.laneLength - 1).toNat = f.setting.columns - 1 := by
    rw [toNat_sub_one (by omega), hlength]
  unfold lastColumn Setting.lastColumn laneList
  rw [List.foldl_map, zeros_eq_zero]
  refine List.foldl_ext _ _ _ fun total lane hlane => ?_
  have hlane' : lane < f.setting.lanes := List.mem_range.mp hlane
  rw [hB lane hlane' _ (by omega), index_ofNat hlane', hlast, sum_eq_xor]
  rfl

end Plan

/-- Parameters in range make a hasher. -/
theorem Hasher.ofParams_eq_ok {p : Params} (hp : p.fault? = none) :
    Hasher.ofParams p = .ok ⟨p, hp⟩ := by
  unfold Hasher.ofParams
  split
  · rfl
  · rename_i cause hcause
    rw [hp] at hcause
    cases hcause

/-- Parameters that break a bound make none. -/
theorem Hasher.ofParams_eq_error {p : Params} {cause : Parameter} (hp : p.fault? = some cause) :
    Hasher.ofParams p = .error (.invalidParameter cause) := by
  unfold Hasher.ofParams
  split
  · rename_i hnone
    rw [hp] at hnone
    cases hnone
  · rename_i other hother
    rw [hp] at hother
    rw [Option.some.inj hother]

/-- For parameters in range, a salt of at least eight bytes, and a password and a salt whose lengths
fit, the derivation gives the tag of RFC 9106, if there is memory for all blocks. -/
theorem derive_eq_standard_tag (available : Nat) (p : Params) (password salt : Bytes)
    (hp : p.fault? = none) (hsalt : 8 ≤ salt.length) (hpassword : password.length < 2^32)
    (hlong : salt.length < 2^32) (hmemory : (Setting.ofParams p).blocks ≤ available) :
    derive available p password salt = .ok (tag p password salt) := by
  obtain ⟨a, rfl⟩ : ∃ a : Hasher, p = a.params := ⟨⟨p, hp⟩, rfl⟩
  have hregular := a.regular
  have hsetting := a.setting_plan
  have htotal : a.plan.layout.total.toNat = (Setting.ofParams a.params).blocks :=
    congrArg Setting.blocks hsetting
  have hinput := initialInput_eq_standard hp hpassword hlong
  -- The memory holds the standard's matrix before the first pass, and so after the last one.
  obtain ⟨hsize, hinitial⟩ :=
    a.plan.same_initialMemory hregular (Blake2b.digest64 (initialBytes a.params password salt))
  have hfilled := Plan.same_fill hregular hsize hinitial
  have hlast := Plan.lastColumn_eq_standard hregular hfilled
  rw [← hash_sixtyFour, hsetting] at hlast
  unfold derive
  rw [Hasher.ofParams_eq_ok hp]
  show a.derive available password salt = _
  unfold Hasher.derive tag
  rw [if_neg (by unfold minSaltLength; omega), if_neg (by omega), hinput]
  show Except.ok (Stretch.digest _ _ _) = _
  rw [Stretch.digest_eq_standard, hlast, ← bytesOf_eq_toBytes]

/-- Three passes over four lanes of eight blocks, with a secret and associated data, for a password
of 32 bytes and a salt of 16. -/
theorem derive_eq_standard_tag_four_lanes :
    let p : Params :=
      ⟨32, 3, 4, 32, some (List.replicate 8 3), some (List.replicate 12 4), .argon2id⟩
    p.fault? = none ∧ 8 ≤ (List.replicate 16 2 : Bytes).length ∧
      (List.replicate 32 1 : Bytes).length < 2^32 ∧ (List.replicate 16 2 : Bytes).length < 2^32 ∧
      (Setting.ofParams p).blocks ≤ 32 ∧
      derive 32 p (List.replicate 32 1) (List.replicate 16 2) =
        .ok (tag p (List.replicate 32 1) (List.replicate 16 2)) :=
  ⟨by decide, by decide, by decide, by decide, by decide,
    derive_eq_standard_tag 32 _ _ _ (by decide) (by decide) (by decide) (by decide) (by decide)⟩

end SymmetricCrypto.Argon2
