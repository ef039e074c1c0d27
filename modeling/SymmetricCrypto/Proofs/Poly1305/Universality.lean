import Mathlib
import SymmetricCrypto.Proofs.Poly1305.Clamping
import SymmetricCrypto.Proofs.Poly1305.Evaluation
import SymmetricCrypto.Proofs.Poly1305.Prime

/-!
# Few keys give two messages tags with one difference

A message is a polynomial over the residues modulo the prime, with the numbers of its blocks as
coefficients and without a constant term (`messagePolynomial`). The number of a block determines the
block, the last one and its length included (`number_inj`), so different messages are different
polynomials, whose difference is not a constant (`messagePolynomial_injective`).

The mask of a key cancels in the difference of two tags (`mem_differing_iff`). The values of the two
polynomials are below the prime, so their difference is one of eight numbers that are `g` modulo
`2^128` (`exists_candidate`), and for each of them the point is a root of a polynomial with at most as
many roots as the longer message has blocks (`card_roots_le`).
-/

namespace SymmetricCrypto.Poly1305

open LittleEndian Polynomial
open Standard (modulus number block blockCount)

/-- The modulus is prime, so the residues are a field. -/
scoped instance fact_prime_modulus : Fact modulus.Prime := ⟨prime_modulus⟩

/-! ## The number of a block -/

/-- The number of a block is below the prime. -/
theorem number_lt {b : Bytes} (h : b.length ≤ 16) : number b < modulus := by
  have hpow : 2^(8 * b.length) ≤ 2^128 := Nat.pow_le_pow_right (by decide) (by omega)
  have hlt := decode_lt_two_pow b
  rw [number, ← decode_eq_value, modulus]
  omega

/-- A shorter block has a smaller number. -/
theorem number_lt_of_length_lt {b b' : Bytes} (h : b.length < b'.length) : number b < number b' := by
  have hlt := decode_lt_two_pow b
  have hpow : 2^(8 * b.length + 1) ≤ 2^(8 * b'.length) :=
    Nat.pow_le_pow_right (by decide) (by omega)
  rw [pow_succ] at hpow
  rw [number, number, ← decode_eq_value, ← decode_eq_value]
  omega

/-- The number of a block determines the block. -/
theorem number_inj {b b' : Bytes} (h : number b = number b') : b = b' := by
  -- The one after the last byte is the leading digit, so it shows the length.
  have hlength : b.length = b'.length := by
    rcases lt_trichotomy b.length b'.length with hlt | heq | hgt
    · exact absurd h (number_lt_of_length_lt hlt).ne
    · exact heq
    · exact absurd h (number_lt_of_length_lt hgt).ne'
  have hvalue : decode b = decode b' := by
    rw [number, number, ← decode_eq_value, ← decode_eq_value, hlength] at h
    exact Nat.add_right_cancel h
  rw [← encode_decode b, ← encode_decode b', hlength, hvalue]

/-- The residue of the number of a block determines the block. -/
theorem cast_number_inj {b b' : Bytes} (hb : b.length ≤ 16) (hb' : b'.length ≤ 16)
    (h : (number b : ZMod modulus) = number b') : b = b' := by
  rw [ZMod.natCast_eq_natCast_iff', Nat.mod_eq_of_lt (number_lt hb),
    Nat.mod_eq_of_lt (number_lt hb')] at h
  exact number_inj h

/-- The residue of the number of a block is not zero. -/
theorem cast_number_ne_zero {b : Bytes} (hb : b.length ≤ 16) : (number b : ZMod modulus) ≠ 0 := by
  have hpos : 0 < number b := Nat.add_pos_right _ (Nat.two_pow_pos _)
  rw [Ne, ZMod.natCast_eq_zero_iff]
  exact Nat.not_dvd_of_pos_of_lt hpos (number_lt hb)

/-! ## The polynomial of a message -/

/-- The polynomial of blocks, without a constant term. -/
noncomputable def blocksPolynomial (blocks : List Bytes) : (ZMod modulus)[X] :=
  blocks.foldl (fun p b => (p + C (number b : ZMod modulus)) * X) 0

/-- One block more. -/
theorem blocksPolynomial_concat (blocks : List Bytes) (b : Bytes) :
    blocksPolynomial (blocks ++ [b]) =
      (blocksPolynomial blocks + C (number b : ZMod modulus)) * X := by
  rw [blocksPolynomial, List.foldl_concat, blocksPolynomial]

/-- There is no constant term. -/
theorem coeff_zero_blocksPolynomial (blocks : List Bytes) :
    (blocksPolynomial blocks).coeff 0 = 0 := by
  induction blocks using List.reverseRecOn with
  | nil => exact coeff_zero 0
  | append_singleton blocks b _ =>
    rw [blocksPolynomial_concat, mul_coeff_zero, coeff_X_zero, mul_zero]

/-- The degree is at most the number of blocks. -/
theorem natDegree_blocksPolynomial_le (blocks : List Bytes) :
    (blocksPolynomial blocks).natDegree ≤ blocks.length := by
  induction blocks using List.reverseRecOn with
  | nil => exact natDegree_zero.le
  | append_singleton blocks b ih =>
    rw [blocksPolynomial_concat, List.length_append, List.length_singleton]
    refine natDegree_mul_le.trans (Nat.add_le_add ?_ natDegree_X_le)
    exact natDegree_add_le_of_degree_le ih ((natDegree_C _).trans_le (Nat.zero_le _))

/-- The last step of Horner's rule can be undone. -/
theorem concat_cancel {p q : (ZMod modulus)[X]} {a b : ZMod modulus} (hp : p.coeff 0 = 0)
    (hq : q.coeff 0 = 0) (h : (p + C a) * X = (q + C b) * X) : p = q ∧ a = b := by
  have hsum : p + C a = q + C b := mul_right_cancel₀ X_ne_zero h
  have hconstant : a = b := by
    have hcoeff := congrArg (coeff · 0) hsum
    simpa only [coeff_add, hp, hq, coeff_C_zero, zero_add] using hcoeff
  rw [hconstant] at hsum
  exact ⟨add_right_cancel hsum, hconstant⟩

/-- A block makes the polynomial differ from zero. -/
theorem blocksPolynomial_concat_ne_zero (blocks : List Bytes) {b : Bytes} (hb : b.length ≤ 16) :
    blocksPolynomial (blocks ++ [b]) ≠ 0 := by
  intro h
  have hzero : (blocksPolynomial blocks + C (number b : ZMod modulus)) * X = (0 + C 0) * X := by
    rw [← blocksPolynomial_concat, h, C_0, add_zero, zero_mul]
  exact cast_number_ne_zero hb
    (concat_cancel (coeff_zero_blocksPolynomial blocks) (coeff_zero 0) hzero).2

/-- Different blocks have different polynomials. -/
theorem blocksPolynomial_inj {blocks blocks' : List Bytes} (hshort : ∀ b ∈ blocks, b.length ≤ 16)
    (hshort' : ∀ b ∈ blocks', b.length ≤ 16)
    (h : blocksPolynomial blocks = blocksPolynomial blocks') : blocks = blocks' := by
  -- From the last blocks on: the constant terms without the last factor give their numbers.
  induction blocks using List.reverseRecOn generalizing blocks' with
  | nil =>
    rcases List.eq_nil_or_concat' blocks' with rfl | ⟨front', b', rfl⟩
    · rfl
    · exact absurd h.symm (blocksPolynomial_concat_ne_zero front' (hshort' b' (by simp)))
  | append_singleton front b ih =>
    have hb := hshort b (by simp)
    rcases List.eq_nil_or_concat' blocks' with rfl | ⟨front', b', rfl⟩
    · exact absurd h (blocksPolynomial_concat_ne_zero front hb)
    · rw [blocksPolynomial_concat, blocksPolynomial_concat] at h
      obtain ⟨hfront, hlast⟩ := concat_cancel (coeff_zero_blocksPolynomial front)
        (coeff_zero_blocksPolynomial front') h
      rw [cast_number_inj hb (hshort' b' (by simp)) hlast,
        ih (fun b hb => hshort b (by simp [hb])) (fun b hb => hshort' b (by simp [hb])) hfront]

/-- The polynomial of a message. -/
noncomputable def messagePolynomial (message : Bytes) : (ZMod modulus)[X] :=
  blocksPolynomial (Bytes.pieces 16 message)

/-- The blocks of a message have up to 16 bytes. -/
theorem length_le_of_mem_pieces {message b : Bytes} (h : b ∈ Bytes.pieces 16 message) :
    b.length ≤ 16 := by
  rw [Bytes.pieces_eq_map_range (by decide)] at h
  obtain ⟨i, -, rfl⟩ := List.mem_map.mp h
  exact List.length_take_le 16 _

/-- Different messages have different polynomials. -/
theorem messagePolynomial_injective : Function.Injective messagePolynomial := by
  intro m m' h
  have hpieces := blocksPolynomial_inj (fun _ => length_le_of_mem_pieces)
    (fun _ => length_le_of_mem_pieces) h
  rw [← Bytes.flatten_pieces (by decide : 16 ≠ 0) m, hpieces,
    Bytes.flatten_pieces (by decide)]

/-- The degree of a message of at most `L` blocks is at most `L`. -/
theorem natDegree_messagePolynomial_le {message : Bytes} {L : ℕ} (h : message.length ≤ 16 * L) :
    (messagePolynomial message).natDegree ≤ L := by
  refine (natDegree_blocksPolynomial_le _).trans ?_
  rw [Bytes.pieces_eq_map_range (by decide), List.length_map, List.length_range]
  omega

/-- The value of the polynomial at a point is the residue of the standard one. -/
theorem eval_messagePolynomial (message : Bytes) (x : ℕ) :
    (messagePolynomial message).eval (x : ZMod modulus) =
      (Standard.polynomial message x : ZMod modulus) := by
  have hblocks (k : ℕ) :
      (blocksPolynomial ((List.range k).map fun i => block message (i + 1))).eval
        (x : ZMod modulus) = (partialSum message x k : ZMod modulus) := by
    induction k with
    | zero => exact eval_zero.trans Nat.cast_zero.symm
    | succ k ih =>
      rw [List.range_succ, List.map_append, List.map_singleton, blocksPolynomial_concat, eval_mul,
        eval_add, eval_C, eval_X, ih, partialSum_succ, Nat.cast_mul, Nat.cast_add]
  rw [messagePolynomial, Bytes.pieces_eq_map_range (by decide)]
  exact (hblocks (blockCount message)).trans (ZMod.natCast_mod _ _).symm

/-! ## The difference of two tags -/

/-- The clamped values under which, next to the mask `s`, the tags of two messages differ by `g`
modulo `2^128`. -/
def differing (m m' : Bytes) (g s : Vector UInt8 16) : Set (Vector UInt8 16) :=
  {r ∈ clamped |
    (number16 (tag (r ++ s) m) : ℤ) - number16 (tag (r ++ s) m') ≡ number16 g [ZMOD 2^128]}

/-- The number of a tag under a clamped value. -/
theorem number16_tag {r : Vector UInt8 16} (hr : r ∈ clamped) (s : Vector UInt8 16)
    (message : Bytes) :
    number16 (tag (r ++ s) message) =
      (Standard.polynomial message (number16 r) + number16 s) % 2^128 := by
  have hs : Standard.s (r ++ s) = number16 s := by
    rw [Standard.s, ← decode_eq_value, Vector.toList_append,
      List.drop_left' (Vector.length_toList), number16]
  have hrange : 256^16 = 2^128 := by norm_num
  rw [number16, tag, tagOfParts, (Authenticator.reads_foldl _ _).tag, List.flatten_singleton,
    Standard.tag, ← encode_eq_bytes, decode_encode, hrange, Nat.mod_mod, r_append,
    mem_clamped_iff.mp hr, hs]

/-- The mask cancels in a difference of tags. -/
theorem mem_differing_iff {m m' : Bytes} {g s r : Vector UInt8 16} :
    r ∈ differing m m' g s ↔ r ∈ clamped ∧
      (Standard.polynomial m (number16 r) : ℤ) - Standard.polynomial m' (number16 r) ≡
        number16 g [ZMOD 2^128] := by
  refine and_congr_right fun hr => ?_
  have hcancel : (number16 (tag (r ++ s) m) : ℤ) - number16 (tag (r ++ s) m') ≡
      Standard.polynomial m (number16 r) - Standard.polynomial m' (number16 r) [ZMOD 2^128] := by
    rw [number16_tag hr, number16_tag hr]
    push_cast
    refine ((Int.mod_modEq _ _).sub (Int.mod_modEq _ _)).trans ?_
    rw [add_sub_add_right_eq_sub]
  exact ⟨hcancel.symm.trans, hcancel.trans⟩

/-- Two values below the prime whose difference is `g` modulo `2^128` have one of eight
differences. -/
theorem exists_candidate {a b g : ℕ} (ha : a < modulus) (hb : b < modulus) (hg : g < 2^128)
    (h : (a : ℤ) - b ≡ g [ZMOD 2^128]) :
    ∃ k ∈ Finset.Icc (-4 : ℤ) 3, (a : ℤ) - b = g + k * 2^128 := by
  obtain ⟨k, hk⟩ := Int.modEq_iff_dvd.mp h.symm
  -- The difference is between `-2^130` and `2^130`, which is four times `2^128` on either side.
  rw [modulus] at ha hb
  refine ⟨k, Finset.mem_Icc.mpr ⟨?_, ?_⟩, ?_⟩ <;> omega

/-- The polynomials of different messages do not differ by a constant. -/
theorem sub_sub_C_ne_zero {m m' : Bytes} (hne : m ≠ m') (c : ZMod modulus) :
    messagePolynomial m - messagePolynomial m' - C c ≠ 0 := by
  intro h
  -- Neither polynomial has a constant term, so that of their difference is zero.
  have hconstant : c = 0 := by
    have hcoeff := congrArg (coeff · 0) (sub_eq_zero.mp h)
    simpa [messagePolynomial, coeff_zero_blocksPolynomial] using hcoeff.symm
  rw [hconstant, C_0, sub_zero, sub_eq_zero] at h
  exact hne (messagePolynomial_injective h)

/-- For one difference there are at most as many points as the longer message has blocks. -/
theorem card_roots_le {m m' : Bytes} {L : ℕ} (hm : m.length ≤ 16 * L) (hm' : m'.length ≤ 16 * L)
    (c : ZMod modulus) :
    (messagePolynomial m - messagePolynomial m' - C c).roots.toFinset.card ≤ L := by
  refine (Multiset.toFinset_card_le _).trans ((card_roots' _).trans ?_)
  have hdifference := natDegree_sub_le_of_le (natDegree_messagePolynomial_le hm)
    (natDegree_messagePolynomial_le hm')
  rw [max_self] at hdifference
  refine (natDegree_sub_le_of_le hdifference (natDegree_C c).le).trans ?_
  rw [max_eq_left (Nat.zero_le L)]

/-- At most `8 L` clamped values give the tags of two messages of at most `L` blocks one
difference. -/
theorem encard_differing_le {m m' : Bytes} (hne : m ≠ m') {L : ℕ} (hm : m.length ≤ 16 * L)
    (hm' : m'.length ≤ 16 * L) (g s : Vector UInt8 16) :
    (differing m m' g s).encard ≤ 8 * L := by
  let residue (r : Vector UInt8 16) : ZMod modulus := number16 r
  let shifted (k : ℤ) : (ZMod modulus)[X] :=
    messagePolynomial m - messagePolynomial m' - C ((number16 g + k * 2^128 : ℤ) : ZMod modulus)
  let roots := (Finset.Icc (-4 : ℤ) 3).biUnion fun k => (shifted k).roots.toFinset
  have hresidue : Function.Injective residue := by
    intro r r' h
    have hlt (v : Vector UInt8 16) : number16 v < modulus := (number16_lt v).trans (by decide)
    rw [ZMod.natCast_eq_natCast_iff', Nat.mod_eq_of_lt (hlt r), Nat.mod_eq_of_lt (hlt r')] at h
    exact number16_injective h
  -- A clamped value that gives the difference is a root for one of the eight candidates.
  have himage : residue '' differing m m' g s ⊆ roots := by
    rintro _ ⟨r, hr, rfl⟩
    have hlt (message : Bytes) : Standard.polynomial message (number16 r) < modulus :=
      Nat.mod_lt _ prime_modulus.pos
    obtain ⟨k, hk, hdifference⟩ :=
      exists_candidate (hlt m) (hlt m') (number16_lt g) (mem_differing_iff.mp hr).2
    refine Finset.mem_biUnion.mpr ⟨k, hk, ?_⟩
    rw [Multiset.mem_toFinset, mem_roots (sub_sub_C_ne_zero hne _), IsRoot.def, eval_sub, eval_sub,
      eval_C, eval_messagePolynomial, eval_messagePolynomial, ← hdifference, Int.cast_sub,
      Int.cast_natCast, Int.cast_natCast, sub_self]
  have hcard : roots.card ≤ 8 * L :=
    Finset.card_biUnion_le_card_mul _ _ L fun k _ => card_roots_le hm hm' _
  calc (differing m m' g s).encard
      = (residue '' differing m m' g s).encard := (hresidue.encard_image _).symm
    _ ≤ (roots : Set (ZMod modulus)).encard := Set.encard_le_encard himage
    _ = roots.card := Set.encard_coe_eq_coe_finsetCard roots
    _ ≤ 8 * L := by exact_mod_cast hcard

/-- The authenticator is almost universal for differences: among the `2^106` clamped values, those
that give the tags of two different messages of at most `L` blocks a difference of `g` modulo `2^128`
are the same in number for every mask, and at most `8 L`. -/
theorem almost_delta_universal {m m' : Bytes} (hne : m ≠ m') {L : ℕ} (hm : m.length ≤ 16 * L)
    (hm' : m'.length ≤ 16 * L) (g : Vector UInt8 16) :
    clamped.encard = 2^106 ∧
      (∀ s s', (differing m m' g s).encard = (differing m m' g s').encard) ∧
      ∀ s, (differing m m' g s).encard ≤ 8 * L := by
  refine ⟨encard_clamped, fun s s' => ?_, encard_differing_le hne hm hm' g⟩
  have hsame : differing m m' g s = differing m m' g s' :=
    Set.ext fun r => mem_differing_iff.trans mem_differing_iff.symm
  rw [hsame]

/-- Two messages that differ by a zero at the end. -/
theorem almost_delta_universal_zero :
    let g : Vector UInt8 16 := Vector.replicate 16 3
    [1] ≠ ([1, 0] : Bytes) ∧ clamped.encard = 2^106 ∧
      (∀ s s', (differing [1] [1, 0] g s).encard = (differing [1] [1, 0] g s').encard) ∧
      ∀ s, (differing [1] [1, 0] g s).encard ≤ 8 * (1 : ℕ) :=
  ⟨by decide, almost_delta_universal (by decide) (by decide) (by decide) _⟩

end SymmetricCrypto.Poly1305
