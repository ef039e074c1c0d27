import Mathlib
import SymmetricCrypto.Proofs.Bytes.Regrouping
import SymmetricCrypto.Proofs.Poly1305.Arithmetic

/-!
# The authenticator computes the standard tag

The authenticator evaluates the polynomial by Horner's rule: one block adds its number and
multiplies by the point (`absorbBlock_modEq`), so after `k` blocks the limbs hold the polynomial of
these blocks, modulo the prime (`foldl_absorbBlock`). In which parts the message came does not
matter, since an authenticator that has read a message has absorbed its whole blocks and keeps the
rest (`Reads`, `reads_foldl`). The tag at the end reduces the value and adds the other half of the
key (`tagOfParts_eq_standard`).
-/

namespace SymmetricCrypto.Poly1305

open Standard (modulus number block blockCount)

/-! ## The blocks -/

/-- One block adds its number and multiplies by the point. -/
theorem absorbBlock_modEq {r h : Limbs} (tight : r.Tight) (bounded : h.Bounded) {data : Bytes}
    (hdata : data.length ≤ 16) :
    (absorbBlock r h data).toNat ≡ (h.toNat + number data) * r.toNat [MOD modulus] := by
  have hblock : (Limbs.ofBytes (data ++ [1])).Tight := Limbs.tight_ofWords _ _ _ _ _
  have wide := Limbs.wide_add bounded hblock
  calc (absorbBlock r h data).toNat
      ≡ ((h.add (Limbs.ofBytes (data ++ [1]))).mul r).toNat [MOD modulus] :=
        Columns.toNat_carry_modEq (Limbs.fits_mul wide tight)
    _ ≡ (h.add (Limbs.ofBytes (data ++ [1]))).toNat * r.toNat [MOD modulus] :=
        Limbs.toNat_mul_modEq wide tight
    _ = (h.toNat + number data) * r.toNat := by
        rw [Limbs.toNat_add bounded hblock, Limbs.toNat_ofBytes_number hdata]

/-- The polynomial of the first `k` blocks of a message. -/
def partialSum (message : Bytes) (x k : ℕ) : ℕ :=
  ∑ i ∈ Finset.Icc 1 k, number (block message i) * x^(k - i + 1)

/-- One block more: Horner's rule. -/
theorem partialSum_succ (message : Bytes) (x k : ℕ) :
    partialSum message x (k + 1) =
      (partialSum message x k + number (block message (k + 1))) * x := by
  have hterm : ∀ i ∈ Finset.Icc 1 k, number (block message i) * x^(k + 1 - i + 1) =
      number (block message i) * x^(k - i + 1) * x := by
    intro i hi
    have hexponent : k + 1 - i + 1 = k - i + 1 + 1 := by
      have := (Finset.mem_Icc.mp hi).2
      omega
    rw [hexponent, pow_succ, mul_assoc]
  rw [partialSum, Finset.sum_Icc_succ_top (by omega), Finset.sum_congr rfl hterm,
    ← Finset.sum_mul, Nat.sub_self, pow_one, partialSum]
  ring

/-- After `k` blocks the limbs are bounded and hold the polynomial of these blocks. -/
theorem foldl_absorbBlock (key : Key) (message : Bytes) (k : ℕ) :
    let h := ((List.range k).map fun i => block message (i + 1)).foldl (absorbBlock (point key))
      Limbs.zero
    h.Bounded ∧ h.toNat ≡ partialSum message (Standard.r key) k [MOD modulus] := by
  induction k with
  | zero => exact ⟨Limbs.bounded_zero, rfl⟩
  | succ k ih =>
    obtain ⟨bounded, hvalue⟩ := ih
    rw [List.range_succ, List.map_append, List.foldl_append]
    refine ⟨Columns.bounded_carry _, ?_⟩
    have hlength : (block message (k + 1)).length ≤ 16 := List.length_take_le 16 _
    have hstep := absorbBlock_modEq (tight_point key) bounded hlength
    rw [toNat_point] at hstep
    rw [partialSum_succ]
    exact hstep.trans ((hvalue.add_right _).mul_right _)

/-! ## The parts -/

/-- Data with its padding is filled up to whole blocks. -/
theorem append_padding (data : Bytes) :
    data ++ padding data = data.rightpad (16 * ((data.length + 15) / 16)) 0 := by
  have hzeros : (16 - data.length % 16) % 16 = 16 * ((data.length + 15) / 16) - data.length := by
    omega
  rw [padding, hzeros, List.rightpad]

/-- An authenticator has read a message under a key. -/
structure Authenticator.Reads (key : Key) (message : Bytes) (a : Authenticator) : Prop where
  /-- The clamped half of the key is the point. -/
  r : a.r = point key
  /-- The whole blocks have been absorbed. -/
  h : a.h = (Chunker.blocks 16 message).foldl (fun h b => absorbBlock (point key) h b.toList)
    Limbs.zero
  /-- The other half of the key is kept for the end. -/
  s : a.s = trailing 16 16 key
  /-- The rest of the message is pending. -/
  pending : a.pending.pending = Chunker.remainder 16 message

namespace Authenticator

variable {key : Key} {message : Bytes} {a : Authenticator}

/-- A new authenticator has read nothing. -/
theorem reads_ofKey (key : Key) : Reads key [] (ofKey key) where
  r := rfl
  h := by rw [Chunker.blocks_of_lt (by decide)]; rfl
  s := rfl
  pending := rfl

/-- One more part makes the message longer. -/
theorem Reads.update (reads : Reads key message a) (data : Bytes) :
    Reads key (message ++ data) (a.update data) := by
  obtain ⟨hr, hh, hs, hpending⟩ := reads
  obtain ⟨hfold, hrest⟩ := Chunker.feed_eq (by decide)
    (fun h b => absorbBlock a.r h b.toList) a.h a.pending data
  rw [hpending] at hfold hrest
  refine ⟨hr, ?_, hs, ?_⟩
  · rw [Chunker.blocks_append (by decide), List.foldl_append, ← hh, ← hr]
    exact hfold
  · rw [← Chunker.remainder_append (by decide)]
    exact hrest

/-- However the message is cut, it is read. -/
theorem reads_foldl (key : Key) (parts : List Bytes) :
    Reads key parts.flatten (parts.foldl Authenticator.update (ofKey key)) := by
  induction parts using List.reverseRecOn with
  | nil => exact reads_ofKey key
  | append_singleton parts data ih =>
    rw [List.foldl_append, List.flatten_append, List.flatten_singleton]
    exact ih.update data

/-- The value at the end, where an incomplete block is a block too. -/
def value (a : Authenticator) : Limbs :=
  if a.pending.pending = [] then a.h else absorbBlock a.r a.h a.pending.pending

/-- The value is reduced, and the mask is added. -/
theorem toList_tag (a : Authenticator) :
    a.tag.toList = LittleEndian.encode 16 (LittleEndian.decode
      (LittleEndian.ofWords a.value.settle.reduce.toWords).toList +
        LittleEndian.decode a.s.toList) := by
  rfl

/-- The blocks are absorbed one after the other, with the rest as the last one. -/
theorem Reads.value_eq_foldl (reads : Reads key message a) :
    a.value =
      ((List.range (blockCount message)).map fun i => block message (i + 1)).foldl
        (absorbBlock (point key)) Limbs.zero := by
  obtain ⟨hr, hh, -, hpending⟩ := reads
  have hpieces : ((List.range (blockCount message)).map fun i => block message (i + 1)) =
      Bytes.pieces 16 message := (Bytes.pieces_eq_map_range (by decide) message).symm
  rw [value, hpieces, Bytes.pieces_eq_blocks (by decide), List.foldl_append, List.foldl_map,
    ← hh, ← hr, hpending]
  split_ifs <;> rfl

/-- The tag of what was read is the standard one. -/
theorem Reads.tag (reads : Reads key message a) : a.tag.toList = Standard.tag key message := by
  obtain ⟨bounded, hvalue⟩ := foldl_absorbBlock key message (blockCount message)
  rw [← reads.value_eq_foldl] at bounded hvalue
  have tight := Limbs.tight_settle bounded
  -- The value at the end is that of the polynomial, but for the bits above `2^128`.
  have hpolynomial :
      LittleEndian.decode (LittleEndian.ofWords a.value.settle.reduce.toWords).toList =
        Standard.polynomial message (Standard.r key) % 2^128 := by
    rw [Limbs.decode_toWords (Limbs.tight_reduce tight), Limbs.toNat_reduce tight]
    exact congrArg (· % 2^128) ((Limbs.toNat_settle_modEq bounded).trans hvalue)
  have hs : LittleEndian.decode a.s.toList = Standard.s key := by
    rw [reads.s, toList_trailing, Standard.s, LittleEndian.decode_eq_value]
  have hrange : 256^16 = 2^128 := by norm_num
  rw [toList_tag, hpolynomial, hs, Standard.tag, ← LittleEndian.encode_eq_bytes,
    ← LittleEndian.encode_mod 16 (_ + _), hrange, Nat.mod_add_mod]

end Authenticator

/-- The tag of a message that comes in parts, empty ones included, is the standard tag of the whole
message. -/
theorem tagOfParts_eq_standard (key : Key) (parts : List Bytes) :
    (tagOfParts key parts).toList = Standard.tag key parts.flatten :=
  (Authenticator.reads_foldl key parts).tag

end SymmetricCrypto.Poly1305
