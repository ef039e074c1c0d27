import Mathlib
import SymmetricCrypto.Proofs.Argon2.Standard
import SymmetricCrypto.Proofs.Word

/-!
# The mix of two blocks is `G`

`mix_eq_compress` shows that the mix of two blocks is the compression function of RFC 9106. The two
differ in four ways. The standard multiplies remainders and wraps the sum once
(`mulSum_eq_mulAdd`), and it rotates a number, not bits (`rotate_eq_rotr64`). It runs `GB` in place on
a vector of sixteen words, which the mix takes apart (`quarter_eq`, `permutation_eq_permute`). It
counts registers of two words, while the mix reads its rows and columns from the words themselves
(`getElem_rowWise`, `getElem_columnWise`). And it sums blocks by index (`sum_eq_xor`). -/

namespace SymmetricCrypto.Argon2

open Word Standard

/-- The low half of a word is its remainder. -/
theorem toNat_and_low (x : UInt64) : (x &&& 0xffffffff).toNat = x.toNat % 2^32 :=
  (UInt64.toNat_and x 0xffffffff).trans (Nat.and_two_pow_sub_one_eq_mod x.toNat 32)

/-- The masks are remainders, and the sum wraps only once it is whole. -/
theorem mulSum_eq_mulAdd (a b : UInt64) : mulSum a b = mulAdd a b := by
  unfold mulSum mulAdd
  apply UInt64.toNat_inj.mp
  rw [UInt64.toNat_ofNat', UInt64.toNat_add, UInt64.toNat_add, UInt64.toNat_mul, UInt64.toNat_mul,
    toNat_and_low, toNat_and_low, Nat.mul_assoc 2]
  generalize a.toNat % 2^32 * (b.toNat % 2^32) = product
  have htwo : (2 : UInt64).toNat = 2 := rfl
  rw [htwo]
  omega

/-- A rotation of the number of a word is one of its bits. -/
theorem rotate_eq_rotr64 (x : UInt64) {k : Nat} (hk : 0 < k) (hk' : k < 64) :
    rotate x k = rotr64 x (UInt64.ofNat k) := by
  rw [rotate, ← toNat_rotr64 x hk hk', UInt64.ofNat_toNat]

/-- The standard's sum of two blocks is that of the mix. -/
theorem sum_eq_xor (x y : Block) : sum x y = x.xor y := by
  refine Vector.ext fun i hi => ?_
  unfold sum Block.xor
  rw [Vector.getElem_ofFn, Vector.getElem_zipWith]
  rfl

/-- The standard's zeros are the block that a memory starts with. -/
theorem zeros_eq_zero : zeros = Block.zero := by
  refine Vector.ext fun i hi => ?_
  unfold zeros Block.zero
  rw [Vector.getElem_ofFn, Vector.getElem_replicate]

/-- `GB` in place writes what the four words mix to. -/
theorem quarter_eq (v : Vector UInt64 16) (a b c d : Fin 16)
    (hne : [a.val, b.val, c.val, d.val].Nodup) {a' b' c' d' : UInt64}
    (h : mixQuad (v.get a) (v.get b) (v.get c) (v.get d) = (a', b', c', d')) :
    quarter v a b c d =
      (((v.setIfInBounds a a').setIfInBounds b b').setIfInBounds c c').setIfInBounds d d' := by
  simp only [List.nodup_cons, List.mem_cons, List.not_mem_nil, or_false, not_or] at hne
  obtain ⟨⟨hab, hac, had⟩, ⟨hbc, hbd⟩, hcd, -⟩ := hne
  change mixQuad v[a.val] v[b.val] v[c.val] v[d.val] = _ at h
  unfold mixQuad at h
  simp only [Prod.mk.injEq] at h
  obtain ⟨rfl, rfl, rfl, rfl⟩ := h
  have h32 (x : UInt64) : rotate x 32 = rotr64 x 32 := rotate_eq_rotr64 x (by decide) (by decide)
  have h24 (x : UInt64) : rotate x 24 = rotr64 x 24 := rotate_eq_rotr64 x (by decide) (by decide)
  have h16 (x : UInt64) : rotate x 16 = rotr64 x 16 := rotate_eq_rotr64 x (by decide) (by decide)
  have h63 (x : UInt64) : rotate x 63 = rotr64 x 63 := rotate_eq_rotr64 x (by decide) (by decide)
  unfold quarter
  -- Each read gives the last word written to its place.
  simp only [Fin.getElem_fin, mulSum_eq_mulAdd, h32, h24, h16, h63, Vector.getElem_set, if_true, hab, hac, had, hbc,
    hbd, hcd, Ne.symm hab, Ne.symm hac, Ne.symm had, Ne.symm hbc, Ne.symm hbd, Ne.symm hcd, if_false]
  refine Vector.ext fun i hi => ?_
  simp only [Vector.getElem_set, Vector.getElem_setIfInBounds]
  by_cases hi : b.val = i
  · simp only [← hi, Ne.symm hbc, Ne.symm hbd, if_true, if_false]
  by_cases hi : c.val = i
  · simp only [← hi, hbc, Ne.symm hcd, if_true, if_false]
  by_cases hi : d.val = i
  · simp only [← hi, hbd, hcd, if_true, if_false]
  · simp only [*, if_false]
    split_ifs <;> rfl

/-- `P` in place mixes the columns and then the diagonals. -/
theorem permutation_eq_permute (v : Vector UInt64 16) : permutation v = permute v := by
  obtain ⟨x0, x1, x2, x3, x4, x5, x6, x7, x8, x9, x10, x11, x12, x13, x14, x15, rfl⟩ :
      ∃ x0 x1 x2 x3 x4 x5 x6 x7 x8 x9 x10 x11 x12 x13 x14 x15,
        v = #v[x0, x1, x2, x3, x4, x5, x6, x7, x8, x9, x10, x11, x12, x13, x14, x15] := by
    refine ⟨v[0], v[1], v[2], v[3], v[4], v[5], v[6], v[7], v[8], v[9], v[10], v[11], v[12], v[13],
      v[14], v[15], Vector.ext fun i hi => ?_⟩
    interval_cases i <;> rfl
  rcases h0 : mixQuad x0 x4 x8 x12 with ⟨a0, b0, c0, d0⟩
  rcases h1 : mixQuad x1 x5 x9 x13 with ⟨a1, b1, c1, d1⟩
  rcases h2 : mixQuad x2 x6 x10 x14 with ⟨a2, b2, c2, d2⟩
  rcases h3 : mixQuad x3 x7 x11 x15 with ⟨a3, b3, c3, d3⟩
  rcases h4 : mixQuad a0 b1 c2 d3 with ⟨a0', b1', c2', d3'⟩
  rcases h5 : mixQuad a1 b2 c3 d0 with ⟨a1', b2', c3', d0'⟩
  rcases h6 : mixQuad a2 b3 c0 d1 with ⟨a2', b3', c0', d1'⟩
  rcases h7 : mixQuad a3 b0 c1 d2 with ⟨a3', b0', c1', d2'⟩
  -- The columns, then the diagonals.
  have s0 :
      quarter #v[x0, x1, x2, x3, x4, x5, x6, x7, x8, x9, x10, x11, x12, x13, x14, x15] 0 4 8 12 =
        #v[a0, x1, x2, x3, b0, x5, x6, x7, c0, x9, x10, x11, d0, x13, x14, x15] :=
    quarter_eq _ _ _ _ _ (by decide) h0
  have s1 :
      quarter #v[a0, x1, x2, x3, b0, x5, x6, x7, c0, x9, x10, x11, d0, x13, x14, x15] 1 5 9 13 =
        #v[a0, a1, x2, x3, b0, b1, x6, x7, c0, c1, x10, x11, d0, d1, x14, x15] :=
    quarter_eq _ _ _ _ _ (by decide) h1
  have s2 :
      quarter #v[a0, a1, x2, x3, b0, b1, x6, x7, c0, c1, x10, x11, d0, d1, x14, x15] 2 6 10 14 =
        #v[a0, a1, a2, x3, b0, b1, b2, x7, c0, c1, c2, x11, d0, d1, d2, x15] :=
    quarter_eq _ _ _ _ _ (by decide) h2
  have s3 :
      quarter #v[a0, a1, a2, x3, b0, b1, b2, x7, c0, c1, c2, x11, d0, d1, d2, x15] 3 7 11 15 =
        #v[a0, a1, a2, a3, b0, b1, b2, b3, c0, c1, c2, c3, d0, d1, d2, d3] :=
    quarter_eq _ _ _ _ _ (by decide) h3
  have s4 :
      quarter #v[a0, a1, a2, a3, b0, b1, b2, b3, c0, c1, c2, c3, d0, d1, d2, d3] 0 5 10 15 =
        #v[a0', a1, a2, a3, b0, b1', b2, b3, c0, c1, c2', c3, d0, d1, d2, d3'] :=
    quarter_eq _ _ _ _ _ (by decide) h4
  have s5 :
      quarter #v[a0', a1, a2, a3, b0, b1', b2, b3, c0, c1, c2', c3, d0, d1, d2, d3'] 1 6 11 12 =
        #v[a0', a1', a2, a3, b0, b1', b2', b3, c0, c1, c2', c3', d0', d1, d2, d3'] :=
    quarter_eq _ _ _ _ _ (by decide) h5
  have s6 :
      quarter #v[a0', a1', a2, a3, b0, b1', b2', b3, c0, c1, c2', c3', d0', d1, d2, d3'] 2 7 8 13 =
        #v[a0', a1', a2', a3, b0, b1', b2', b3', c0', c1, c2', c3', d0', d1', d2, d3'] :=
    quarter_eq _ _ _ _ _ (by decide) h6
  have s7 :
      quarter #v[a0', a1', a2', a3, b0, b1', b2', b3', c0', c1, c2', c3', d0', d1', d2, d3'] 3 4 9 14 =
        #v[a0', a1', a2', a3', b0', b1', b2', b3', c0', c1', c2', c3', d0', d1', d2', d3'] :=
    quarter_eq _ _ _ _ _ (by decide) h7
  calc permutation #v[x0, x1, x2, x3, x4, x5, x6, x7, x8, x9, x10, x11, x12, x13, x14, x15]
      = #v[a0', a1', a2', a3', b0', b1', b2', b3', c0', c1', c2', c3', d0', d1', d2', d3'] := by
        unfold permutation
        dsimp only
        rw [s0, s1, s2, s3, s4, s5, s6, s7]
    _ = permute #v[x0, x1, x2, x3, x4, x5, x6, x7, x8, x9, x10, x11, x12, x13, x14, x15] := by
        unfold permute
        simp only [Vector.getElem_mk, List.getElem_toArray, List.getElem_cons_zero,
          List.getElem_cons_succ, h0, h1, h2, h3, h4, h5, h6, h7]

/-- A word of a row is at its place in the permuted row. -/
theorem getElem_rowWise (r : Block) (row k : Nat) (hrow : row < 8) (hk : k < 16)
    (hw : 16 * row + k < 128) : (rowWise r)[16 * row + k] = (Block.rows r)[row][k] := by
  unfold rowWise Block.rows
  simp only [Vector.getElem_ofFn, permutation_eq_permute]
  refine getElem_congr ?_ (by omega) _
  refine congrArg permute (Vector.ext fun i hi => ?_)
  simp only [Vector.getElem_ofFn]
  exact getElem_congr_idx (by omega)

/-- A word of a column is at its place in the permuted column. -/
theorem getElem_columnWise (r : Block) (w : Nat) (hw : w < 128) :
    (columnWise (rowWise r))[w] =
      (Block.columns (Block.rows r))[w % 16 / 2][2 * (w / 16) + w % 2] := by
  unfold columnWise Block.columns
  simp only [Vector.getElem_ofFn, permutation_eq_permute]
  refine getElem_congr ?_ (by omega) _
  refine congrArg permute (Vector.ext fun i hi => ?_)
  simp only [Vector.getElem_ofFn]
  rw [← getElem_rowWise r (i / 2) (2 * (w % 16 / 2) + i % 2) (by omega) (by omega) (by omega)]
  exact getElem_congr_idx (by omega)

/-- The mix of two blocks is the standard's `G`. -/
theorem mix_eq_compress (x y : Block) : x.mix y = compress x y := by
  unfold Block.mix compress
  dsimp only
  rw [sum_eq_xor x y, sum_eq_xor]
  generalize x.xor y = r
  refine Vector.ext fun w hw => ?_
  unfold Block.xor
  rw [Vector.getElem_ofFn, Vector.getElem_zipWith, getElem_columnWise]
  rfl

end SymmetricCrypto.Argon2
