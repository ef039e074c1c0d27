import Mathlib
import SymmetricCrypto.Proofs.Poly1305.Packing

/-!
# The clamped values

Clamping leaves the first half of a key as it is if all its bits are among those of the mask
(`mem_clamped_iff`). The numbers with this property are the sums of powers of two over the subsets
of the bits of the mask (`encard_submasks`). The mask has 106 bits, so there are `2^106` clamped
values (`encard_clamped`).
-/

namespace SymmetricCrypto.Poly1305

open LittleEndian

/-- The number of 16 bytes. -/
def number16 (v : Vector UInt8 16) : ℕ := decode v.toList

/-- The first halves of a key that clamping leaves as they are. -/
def clamped : Set (Vector UInt8 16) := {r | ∀ s : Vector UInt8 16, (point (r ++ s)).toNat = number16 r}

/-- The number of 16 bytes has 128 bits. -/
theorem number16_lt (v : Vector UInt8 16) : number16 v < 2^128 := by
  have hlt := decode_lt_two_pow v.toList
  rwa [Vector.length_toList] at hlt

/-- Different bytes have different numbers. -/
theorem number16_injective : Function.Injective number16 := by
  intro v w h
  have hv := encode_decode v.toList
  have hw := encode_decode w.toList
  rw [Vector.length_toList] at hv hw
  rw [← Vector.toList_inj, ← hv, ← hw]
  exact congrArg (encode 16) h

/-- The point of a key depends on its first half. -/
theorem r_append (r s : Vector UInt8 16) : Standard.r (r ++ s) = number16 r &&& Standard.clampMask := by
  rw [Standard.r, ← decode_eq_value, Vector.toList_append, List.take_left' (Vector.length_toList), number16]

/-- A half is clamped if its bits are among those of the mask. -/
theorem mem_clamped_iff {r : Vector UInt8 16} :
    r ∈ clamped ↔ number16 r &&& Standard.clampMask = number16 r := by
  have hpoint (s : Vector UInt8 16) : (point (r ++ s)).toNat = number16 r &&& Standard.clampMask := by
    rw [toNat_point, r_append]
  simp only [clamped, Set.mem_ofPred_eq, hpoint, forall_const]

/-- The numbers all of whose bits are among those of a mask. -/
def submasks (mask : ℕ) : Set ℕ := {x | x &&& mask = x}

/-- A number is a submask if its bits are a subset. -/
theorem mem_submasks_iff {mask x : ℕ} :
    x ∈ submasks mask ↔ x.bitIndices.toFinset ⊆ mask.bitIndices.toFinset := by
  simp only [submasks, Set.mem_ofPred_eq, Nat.eq_iff_testBit_eq, Finset.subset_iff,
    List.mem_toFinset, Nat.mem_bitIndices, Nat.testBit_and, Bool.and_eq_left_iff_imp]

/-- There are as many submasks as there are sets of bits of the mask. -/
theorem encard_submasks (mask : ℕ) : (submasks mask).encard = 2^mask.bitIndices.length := by
  have hsubsets : submasks mask =
      Set.preimage Finset.equivBitIndices mask.bitIndices.toFinset.powerset := by
    ext x
    rw [mem_submasks_iff, Set.mem_preimage, Finset.mem_coe, Finset.mem_powerset,
      Finset.equivBitIndices_apply]
  rw [← Finset.equivBitIndices.injective.encard_image, hsubsets,
    Set.image_preimage_eq _ Finset.equivBitIndices.surjective, Set.encard_coe_eq_coe_finsetCard,
    Finset.card_powerset, List.toFinset_card_of_nodup Nat.bitIndices_nodup]
  norm_cast

/-- The numbers of the clamped halves are the submasks of the mask. -/
theorem image_number16_clamped : number16 '' clamped = submasks Standard.clampMask := by
  ext x
  constructor
  · rintro ⟨r, hr, rfl⟩
    exact mem_clamped_iff.mp hr
  · intro hx
    -- It is at most the mask, so 16 bytes have it as their number.
    have hlt : x < 256^16 := by
      have hle : x ≤ Standard.clampMask := hx ▸ Nat.and_le_right
      exact hle.trans_lt (by decide)
    let r : Vector UInt8 16 := ⟨(encode 16 x).toArray, by simp⟩
    have hr : number16 r = x := (decode_encode 16 x).trans (Nat.mod_eq_of_lt hlt)
    exact ⟨r, mem_clamped_iff.mpr (by rw [hr]; exact hx), hr⟩

/-- There are `2^106` clamped values. -/
theorem encard_clamped : clamped.encard = 2^106 := by
  have hbits : Standard.clampMask.bitIndices.length = 106 := rfl
  rw [← number16_injective.encard_image, image_number16_clamped, encard_submasks, hbits]

end SymmetricCrypto.Poly1305
