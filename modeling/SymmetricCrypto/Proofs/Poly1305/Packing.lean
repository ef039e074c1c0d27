import Mathlib
import SymmetricCrypto.Proofs.Bytes.Words
import SymmetricCrypto.Proofs.Poly1305.Standard
import SymmetricCrypto.Proofs.Word

/-!
# Words and limbs

Five 32-bit words are regrouped into five limbs of 26 bits, and back. Each new word is the low bits
of one old word and, above them, the high bits of another, so an `or` is a sum
(`Word.toNat_or_shiftLeft`), and the numbers before and after agree up to the bits that are cut off:
`toNat_ofWords` for limbs, `decode_toWords` for words. From there the number of a block
(`toNat_ofBytes_number`) and the clamped point of a key (`toNat_point`).
-/

namespace SymmetricCrypto.Poly1305

open LittleEndian Word

/-- Every limb has 26 bits. -/
structure Limbs.Tight (a : Limbs) : Prop where
  l0 : a.l0.toNat < 2^26
  l1 : a.l1.toNat < 2^26
  l2 : a.l2.toNat < 2^26
  l3 : a.l3.toNat < 2^26
  l4 : a.l4.toNat < 2^26

/-! ## Words -/

/-- The mask keeps 26 bits. -/
theorem toNat_and_mask (x : UInt32) : (x &&& mask).toNat = x.toNat % 2^26 := by
  rw [UInt32.toNat_and]
  exact Nat.and_two_pow_sub_one_eq_mod x.toNat 26

/-- A masked word has 26 bits. -/
theorem toNat_and_mask_lt (x : UInt32) : (x &&& mask).toNat < 2^26 := by
  rw [toNat_and_mask]
  exact Nat.mod_lt _ (by decide)

/-- What is above the 26 bits of a limb. -/
theorem toNat_shiftRight_26 (x : UInt32) : (x >>> 26).toNat = x.toNat / 2^26 :=
  toNat_shiftRight x (by decide : 26 < 32)

/-- A limb with the carry out of another one, if it fits. -/
theorem toNat_add_shiftRight_26 {x y : UInt32} (h : x.toNat + y.toNat / 2^26 < 2^32) :
    (x + (y >>> 26)).toNat = x.toNat + y.toNat / 2^26 := by
  rw [UInt32.toNat_add, toNat_shiftRight_26]
  exact Nat.mod_eq_of_lt h

/-! ## Limbs of words -/

namespace Limbs

/-- Limbs that were cut out of words have 26 bits each. -/
theorem tight_ofWords (t0 t1 t2 t3 t4 : UInt32) : (ofWords t0 t1 t2 t3 t4).Tight where
  l0 := toNat_and_mask_lt _
  l1 := toNat_and_mask_lt _
  l2 := toNat_and_mask_lt _
  l3 := toNat_and_mask_lt _
  l4 := toNat_and_mask_lt _

/-- The limbs of five words hold the low 130 bits of their number. -/
theorem toNat_ofWords (t0 t1 t2 t3 t4 : UInt32) :
    (ofWords t0 t1 t2 t3 t4).toNat =
      (t0.toNat + 2^32 * (t1.toNat + 2^32 * (t2.toNat + 2^32 * (t3.toNat + 2^32 * t4.toNat)))) %
        2^130 := by
  -- Each limb is cut out of one word or of two neighbours.
  have h0 : (t0 &&& mask).toNat = t0.toNat % 2^26 := toNat_and_mask t0
  have h1 : ((t0 >>> 26 ||| t1 <<< 6) &&& mask).toNat =
      (t0.toNat / 2^26 + 2^6 * (t1.toNat % 2^26)) % 2^26 :=
    (toNat_and_mask _).trans (congrArg (· % 2^26)
      (toNat_shiftRight_or_shiftLeft t0 t1 (by decide : 0 < 26) (by decide : 0 < 6) rfl))
  have h2 : ((t1 >>> 20 ||| t2 <<< 12) &&& mask).toNat =
      (t1.toNat / 2^20 + 2^12 * (t2.toNat % 2^20)) % 2^26 :=
    (toNat_and_mask _).trans (congrArg (· % 2^26)
      (toNat_shiftRight_or_shiftLeft t1 t2 (by decide : 0 < 20) (by decide : 0 < 12) rfl))
  have h3 : ((t2 >>> 14 ||| t3 <<< 18) &&& mask).toNat =
      (t2.toNat / 2^14 + 2^18 * (t3.toNat % 2^14)) % 2^26 :=
    (toNat_and_mask _).trans (congrArg (· % 2^26)
      (toNat_shiftRight_or_shiftLeft t2 t3 (by decide : 0 < 14) (by decide : 0 < 18) rfl))
  have h4 : ((t3 >>> 8 ||| t4 <<< 24) &&& mask).toNat =
      (t3.toNat / 2^8 + 2^24 * (t4.toNat % 2^8)) % 2^26 :=
    (toNat_and_mask _).trans (congrArg (· % 2^26)
      (toNat_shiftRight_or_shiftLeft t3 t4 (by decide : 0 < 8) (by decide : 0 < 24) rfl))
  have b0 := t0.toNat_lt
  have b1 := t1.toNat_lt
  have b2 := t2.toNat_lt
  have b3 := t3.toNat_lt
  have b4 := t4.toNat_lt
  simp only [toNat, ofWords, h0, h1, h2, h3, h4]
  omega

/-- Up to 17 bytes become the low 130 bits of their number. -/
theorem toNat_ofBytes {data : Bytes} (h : data.length ≤ 20) :
    (ofBytes data).toNat = decode data % 2^130 := by
  rw [ofBytes, toNat_ofWords, ← decode_eq_wordAt_add h]

/-- A block with a one after its last byte becomes its number. -/
theorem toNat_ofBytes_number {block : Bytes} (h : block.length ≤ 16) :
    (ofBytes (block ++ [1])).toNat = Standard.number block := by
  have hnumber : decode (block ++ [1]) = Standard.number block := by
    have hpow : 256^block.length = 2^(8 * block.length) := by
      rw [Nat.pow_mul]
    rw [decode_append, Standard.number, ← decode_eq_value, hpow]
    simp [decode]
  have hlt : decode (block ++ [1]) < 2^130 := by
    have hpow : 2^(8 * block.length) ≤ 2^(8 * 16) :=
      Nat.pow_le_pow_right (by decide) (Nat.mul_le_mul_left 8 h)
    have hvalue : decode block < 2^(8 * block.length) := decode_lt_two_pow block
    rw [hnumber, Standard.number, ← decode_eq_value]
    omega
  have hlength : (block ++ [1]).length ≤ 20 := by
    rw [List.length_append, List.length_singleton]
    omega
  rw [toNat_ofBytes hlength, Nat.mod_eq_of_lt hlt, hnumber]

/-- The words of a number below `2^130` are its low 128 bits. -/
theorem decode_toWords {h : Limbs} (tight : h.Tight) :
    decode (LittleEndian.ofWords h.toWords).toList = h.toNat % 2^128 := by
  obtain ⟨b0, b1, b2, b3, b4⟩ := tight
  -- Each word: the limb below, without the bits of the word before, and the limb above.
  have h0 : (h.l0 ||| h.l1 <<< 26).toNat = h.l0.toNat + 2^26 * (h.l1.toNat % 2^6) :=
    toNat_or_shiftLeft h.l0 h.l1 (by decide : 26 < 32) b0
  have s1 : (h.l1 >>> 6).toNat = h.l1.toNat / 2^6 := toNat_shiftRight h.l1 (by decide : 6 < 32)
  have h1 : (h.l1 >>> 6 ||| h.l2 <<< 20).toNat = h.l1.toNat / 2^6 + 2^20 * (h.l2.toNat % 2^12) :=
    (toNat_or_shiftLeft _ h.l2 (by decide : 20 < 32) (by omega)).trans (by rw [s1])
  have s2 : (h.l2 >>> 12).toNat = h.l2.toNat / 2^12 := toNat_shiftRight h.l2 (by decide : 12 < 32)
  have h2 : (h.l2 >>> 12 ||| h.l3 <<< 14).toNat = h.l2.toNat / 2^12 + 2^14 * (h.l3.toNat % 2^18) :=
    (toNat_or_shiftLeft _ h.l3 (by decide : 14 < 32) (by omega)).trans (by rw [s2])
  have s3 : (h.l3 >>> 18).toNat = h.l3.toNat / 2^18 := toNat_shiftRight h.l3 (by decide : 18 < 32)
  have h3 : (h.l3 >>> 18 ||| h.l4 <<< 8).toNat = h.l3.toNat / 2^18 + 2^8 * (h.l4.toNat % 2^24) :=
    (toNat_or_shiftLeft _ h.l4 (by decide : 8 < 32) (by omega)).trans (by rw [s3])
  have hwords : h.toWords.toList = [h.l0 ||| h.l1 <<< 26, h.l1 >>> 6 ||| h.l2 <<< 20,
      h.l2 >>> 12 ||| h.l3 <<< 14, h.l3 >>> 18 ||| h.l4 <<< 8] := rfl
  rw [toList_ofWords, hwords, decode_flatMap_wordBytes, decode_flatMap_wordBytes,
    decode_flatMap_wordBytes, decode_flatMap_wordBytes, h0, h1, h2, h3]
  simp only [toNat, List.flatMap_nil, decode]
  omega

end Limbs

/-! ## The key -/

/-- A conjunction of two numbers in base `2^32` is one digit by digit. -/
theorem and_add_mul (a b c d : ℕ) (ha : a < 2^32) (hc : c < 2^32) :
    (a + 2^32 * b) &&& (c + 2^32 * d) = (a &&& c) + 2^32 * (b &&& d) := by
  have hlow : ((a + 2^32 * b) &&& (c + 2^32 * d)) % 2^32 = a &&& c := by
    rw [Nat.and_mod_two_pow, Nat.add_mul_mod_self_left, Nat.add_mul_mod_self_left,
      Nat.mod_eq_of_lt ha, Nat.mod_eq_of_lt hc]
  have hhigh : ((a + 2^32 * b) &&& (c + 2^32 * d)) / 2^32 = b &&& d := by
    rw [Nat.and_div_two_pow, Nat.add_mul_div_left _ _ (by decide),
      Nat.add_mul_div_left _ _ (by decide), Nat.div_eq_of_lt ha, Nat.div_eq_of_lt hc,
      Nat.zero_add, Nat.zero_add]
  rw [← hlow, ← hhigh, Nat.mod_add_div]

/-- The words of the first 16 bytes are those of the whole. -/
theorem wordAt_take (data : Bytes) {start : ℕ} (h : start + 4 ≤ 16) :
    wordAt (data.take 16) start = wordAt data start := by
  rw [wordAt, wordAt, List.drop_take, List.take_take, Nat.min_eq_left (by omega)]

/-- The clamped point has limbs of 26 bits. -/
theorem tight_point (key : Key) : (point key).Tight := Limbs.tight_ofWords _ _ _ _ _

/-- The point of a key is its clamped first half. -/
theorem toNat_point (key : Key) : (point key).toNat = Standard.r key := by
  have hlength : (key.toList.take 16).length = 16 := by
    rw [List.length_take, Vector.length_toList]
    decide
  -- The first half of the key in words.
  have hhalf : decode (key.toList.take 16) = _ := decode_eq_wordAt_add (by omega)
  have hlast : wordAt (key.toList.take 16) 16 = 0 := by
    rw [wordAt, List.drop_of_length_le hlength.le]
    rfl
  rw [wordAt_take _ (by decide), wordAt_take _ (by decide), wordAt_take _ (by decide),
    wordAt_take _ (by decide), hlast] at hhalf
  -- The mask in words.
  have hmask : Standard.clampMask = 0x0fffffff + 2^32 * (0x0ffffffc + 2^32 * (0x0ffffffc +
      2^32 * (0x0ffffffc + 2^32 * 0))) := by decide
  have hclamp : ∀ w m : UInt32, (w &&& m).toNat = w.toNat &&& m.toNat := UInt32.toNat_and
  have hpoint : (point key).toNat =
      ((wordAt key.toList 0 &&& 0x0fffffff).toNat +
        2^32 * ((wordAt key.toList 4 &&& 0x0ffffffc).toNat +
          2^32 * ((wordAt key.toList 8 &&& 0x0ffffffc).toNat +
            2^32 * ((wordAt key.toList 12 &&& 0x0ffffffc).toNat + 2^32 * 0)))) % 2^130 :=
    Limbs.toNat_ofWords _ _ _ _ _
  have b0 := UInt32.toNat_lt (wordAt key.toList 0 &&& 0x0fffffff)
  have b1 := UInt32.toNat_lt (wordAt key.toList 4 &&& 0x0ffffffc)
  have b2 := UInt32.toNat_lt (wordAt key.toList 8 &&& 0x0ffffffc)
  have b3 := UInt32.toNat_lt (wordAt key.toList 12 &&& 0x0ffffffc)
  rw [hpoint, Nat.mod_eq_of_lt (by omega), Standard.r, ← decode_eq_value, hhalf, hmask,
    and_add_mul _ _ _ _ (UInt32.toNat_lt _) (by decide),
    and_add_mul _ _ _ _ (UInt32.toNat_lt _) (by decide),
    and_add_mul _ _ _ _ (UInt32.toNat_lt _) (by decide),
    and_add_mul _ _ _ _ (UInt32.toNat_lt _) (by decide), Nat.and_zero,
    hclamp, hclamp, hclamp, hclamp]
  rfl

end SymmetricCrypto.Poly1305
