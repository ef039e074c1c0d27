import Mathlib
import SymmetricCrypto.Proofs.Checked
import SymmetricCrypto.Proofs.Digest.Stretch

/-!
# Digests into buffers

A digest of any length is put together in a buffer, range by range. `Stretch.fillChecked` does this over
the bytes that are there, with every range checked, and with the length that is asked of BLAKE2b checked
for each call; `Stretch.digestChecked` does it over zeros. For a buffer of at least one byte whose length
fits 32 bits nothing fails, and no byte of the buffer is left as it was (`fillChecked_eq`,
`digestChecked_eq`): the ranges are consecutive and end with the buffer, and between 33 and 64 bytes are
left for the last call.
-/

namespace SymmetricCrypto

open Checked

/-- A BLAKE2b digest of a length that has to be legal. -/
def Blake2b.digestChecked (n : ℕ) (data : Bytes) : Checked Bytes :=
  match Blake2b.digest? n data with
  | .ok digest => pure digest
  | .error _ => throw .digestLength

namespace Stretch

open Standard

/-- One more link of a chain: the digest of the link before, and its half in the buffer. -/
def linkChecked (s : Bytes × Bytes) (i : ℕ) : Checked (Bytes × Bytes) := do
  let v ← Blake2b.digestChecked 64 s.1
  let half ← slice v 0 32
  let out ← overwrite s.2 (i * 32) ((i + 1) * 32) half
  return (v, out)

/-- A digest of any length that fits 32 bits, with its operations checked. -/
def digestChecked (n : ℕ) (data : Bytes) : Checked Bytes :=
  let input := LittleEndian.encode 4 n ++ data
  if n = 0 ∨ UInt32.size ≤ n then throw .digestLength
  else if n ≤ 64 then Blake2b.digestChecked n input
  else do
    let rounds ← sub ((n + 31) / 32) 2
    let v ← Blake2b.digestChecked 64 input
    let half ← slice v 0 32
    let out ← overwrite (List.replicate n 0) 0 32 half
    let s ← (List.range' 1 (rounds - 1)).foldlM linkChecked (v, out)
    let rest ← sub n (rounds * 32)
    let last ← Blake2b.digestChecked rest s.1
    overwrite s.2 (rounds * 32) n last

/-- A digest as long as a buffer, of input that comes in parts, written over the bytes of the buffer. -/
def fillChecked (out : Bytes) (parts : List Bytes) : Checked Bytes :=
  let n := out.length
  let input := (LittleEndian.encode 4 n :: parts).flatten
  if n = 0 ∨ UInt32.size ≤ n then throw .digestLength
  else if n ≤ 64 then do
    let digest ← Blake2b.digestChecked n input
    overwrite out 0 n digest
  else do
    let rounds ← sub ((n + 31) / 32) 2
    let v ← Blake2b.digestChecked 64 input
    let half ← slice v 0 32
    let out ← overwrite out 0 32 half
    let s ← (List.range' 1 (rounds - 1)).foldlM linkChecked (v, out)
    let rest ← sub n (rounds * 32)
    let last ← Blake2b.digestChecked rest s.1
    overwrite s.2 (rounds * 32) n last

/-- A legal length gives the hash. -/
theorem blake2b_digestChecked_eq {n : ℕ} (h : 1 ≤ n ∧ n ≤ 64) (data : Bytes) :
    Blake2b.digestChecked n data = pure (hash n data) := by
  rw [Blake2b.digestChecked, Blake2b.digest?, dif_pos h, hash_eq n h]

/-- The longest digest is the hash that the chain is made of. -/
theorem blake2b_digestChecked_sixtyFour (data : Bytes) :
    Blake2b.digestChecked 64 data = pure (hash 64 data) :=
  blake2b_digestChecked_eq (by decide) data

/-- A hash has the length that is asked for. -/
theorem length_hash {n : ℕ} (h : 1 ≤ n ∧ n ≤ 64) (data : Bytes) : (hash n data).length = n := by
  rw [hash_eq n h, Vector.length_toList]

/-- The halves of the first links of a chain. -/
def halves (v : Bytes) (n : ℕ) : Bytes := (List.range n).flatMap fun i => (link v i).take 32

/-- A link is the hash of the one before. -/
theorem link_succ_eq_hash_link (v : Bytes) (i : ℕ) : link v (i + 1) = hash 64 (link v i) :=
  Function.iterate_succ_apply' _ _ _

/-- Every link has 64 bytes if the first one does. -/
theorem length_link {v : Bytes} (hv : v.length = 64) (i : ℕ) : (link v i).length = 64 := by
  cases i with
  | zero => exact hv
  | succ i => rw [link_succ_eq_hash_link, length_hash (by decide)]

/-- One more link adds its half. -/
theorem halves_succ (v : Bytes) (n : ℕ) : halves v (n + 1) = halves v n ++ (link v n).take 32 := by
  rw [halves, List.range_succ, List.flatMap_append, List.flatMap_singleton, halves]

/-- Each link adds 32 bytes. -/
theorem length_halves {v : Bytes} (hv : v.length = 64) (n : ℕ) : (halves v n).length = n * 32 := by
  induction n with
  | zero => rfl
  | succ n ih =>
    rw [halves_succ, List.length_append, ih, List.length_take, length_link hv]
    omega

/-- A half is written after the halves before it. -/
theorem overwrite_halves {v : Bytes} (hv : v.length = 64) {rest : Bytes} (h : 32 ≤ rest.length)
    (i : ℕ) :
    overwrite (halves v i ++ rest) (i * 32) ((i + 1) * 32) ((link v i).take 32) =
      pure (halves v (i + 1) ++ rest.drop 32) := by
  have hhalf : ((link v i).take 32).length = 32 := by
    rw [List.length_take, length_link hv]
    rfl
  have hover := overwrite_append (halves v i) (hhalf.trans_le h)
  have hstop : i * 32 + 32 = (i + 1) * 32 := by ring
  rwa [hhalf, length_halves hv, hstop, ← halves_succ] at hover

/-- The first half of a link. -/
theorem slice_link {v : Bytes} (hv : v.length = 64) (i : ℕ) :
    slice (link v i) 0 32 = pure ((link v i).take 32) := by
  refine slice_zero_eq ?_
  rw [length_link hv]
  decide

/-- One more link puts one more half into the buffer. -/
theorem linkChecked_eq {v : Bytes} (hv : v.length = 64) {rest : Bytes} (h : 32 ≤ rest.length)
    (i : ℕ) :
    linkChecked (link v i, halves v (i + 1) ++ rest) (i + 1) =
      pure (link v (i + 1), halves v (i + 2) ++ rest.drop 32) := by
  rw [linkChecked, blake2b_digestChecked_sixtyFour, pure_bind, ← link_succ_eq_hash_link, slice_link hv,
    pure_bind, overwrite_halves hv h, pure_bind]

/-- The loop over the links fills the buffer with their halves. -/
theorem foldlM_linkChecked {v : Bytes} (hv : v.length = 64) {rest : Bytes} {r : ℕ}
    (h : r * 32 ≤ rest.length) :
    (List.range' 1 r).foldlM linkChecked (v, halves v 1 ++ rest) =
      pure (link v r, halves v (r + 1) ++ rest.drop (r * 32)) := by
  induction r with
  | zero => rw [List.range'_zero, List.foldlM_nil, link_zero, Nat.zero_mul, List.drop_zero]
  | succ r ih =>
    have hindex : 1 + 1 * r = r + 1 := by rw [Nat.one_mul, Nat.add_comm]
    have hbefore : r * 32 ≤ rest.length := (Nat.mul_le_mul_right 32 (Nat.le_succ _)).trans h
    have hleft : 32 ≤ (rest.drop (r * 32)).length := by
      rw [List.length_drop]
      omega
    rw [List.range'_concat, List.foldlM_append, ih hbefore, pure_bind, List.foldlM_cons, hindex,
      linkChecked_eq hv hleft, pure_bind, List.foldlM_nil, List.drop_drop, Nat.succ_mul]

/-- Between 33 and 64 bytes are left for the last digest of a chain, and there is a first link. -/
theorem links_bounds {n : ℕ} (h : 64 < n) :
    1 ≤ links n ∧ 33 ≤ n - 32 * links n ∧ n - 32 * links n ≤ 64 := by
  unfold links
  omega

/-- The last digest of a chain is written to the end of the buffer. -/
theorem overwrite_last {v : Bytes} (hv : v.length = 64) {rest : Bytes} {r n : ℕ}
    (hrest : rest.length = n - (r + 1) * 32) (h : 33 ≤ n - (r + 1) * 32 ∧ n - (r + 1) * 32 ≤ 64) :
    overwrite (halves v (r + 1) ++ rest) ((r + 1) * 32) n
        (hash (n - (r + 1) * 32) (link v r)) =
      pure (halves v (r + 1) ++ hash (n - (r + 1) * 32) (link v r)) := by
  have hlength : (hash (n - (r + 1) * 32) (link v r)).length = rest.length := by
    rw [length_hash ⟨by omega, h.2⟩, hrest]
  have hover := overwrite_append (halves v (r + 1)) hlength.le
  have hend : (r + 1) * 32 + (n - (r + 1) * 32) = n := by omega
  rwa [hlength, List.drop_length, List.append_nil, length_halves hv, hrest, hend] at hover

/-- A buffer of at most 64 bytes is filled with one digest. -/
theorem fillChecked_of_le {out : Bytes} (h : 1 ≤ out.length) (hn : out.length ≤ 64)
    (parts : List Bytes) :
    fillChecked out parts = pure (hash out.length (le32 out.length ++ parts.flatten)) := by
  have hlegal : ¬(out.length = 0 ∨ UInt32.size ≤ out.length) := by
    have hsize : 64 < UInt32.size := by decide
    omega
  rw [fillChecked, if_neg hlegal, if_pos hn, le32_eq_encode, List.flatten_cons]
  generalize LittleEndian.encode 4 out.length ++ parts.flatten = input
  have hlength := length_hash ⟨h, hn⟩ input
  have hover := overwrite_append [] hlength.le
  rw [List.nil_append, List.length_nil, Nat.zero_add, hlength, List.drop_length] at hover
  rw [blake2b_digestChecked_eq ⟨h, hn⟩, pure_bind, hover, List.append_nil, List.nil_append]

/-- A longer buffer is filled with a chain. -/
theorem fillChecked_of_lt {out : Bytes} (hn : 64 < out.length) (hfits : out.length < UInt32.size)
    (parts : List Bytes) :
    fillChecked out parts =
      pure (linked out.length (hash 64 (le32 out.length ++ parts.flatten))) := by
  have hlegal : ¬(out.length = 0 ∨ UInt32.size ≤ out.length) := by omega
  rw [fillChecked, if_neg hlegal, if_neg (Nat.not_le.mpr hn), le32_eq_encode,
    List.flatten_cons]
  generalize LittleEndian.encode 4 out.length ++ parts.flatten = input
  obtain ⟨hfirst, htail⟩ := links_bounds hn
  obtain ⟨r, hr⟩ : ∃ r, links out.length = r + 1 := ⟨links out.length - 1, by omega⟩
  rw [hr, Nat.mul_comm] at htail
  have hlinks : (out.length + 31) / 32 - 2 = r + 1 := hr
  -- The numbers of links and of bytes that are left.
  have hrounds : sub ((out.length + 31) / 32) 2 = pure (r + 1) := by
    rw [sub_eq (show 2 ≤ (out.length + 31) / 32 by omega) rfl, hlinks]
  have hleft : sub out.length ((r + 1) * 32) = pure (out.length - (r + 1) * 32) :=
    sub_eq (show (r + 1) * 32 ≤ out.length by omega) rfl
  -- The first half of the first digest.
  have hv : (hash 64 input).length = 64 := length_hash (by decide) input
  have hslice : slice (hash 64 input) 0 32 = pure ((hash 64 input).take 32) := slice_link hv 0
  have hbuffer : overwrite out 0 32 ((hash 64 input).take 32) =
      pure (halves (hash 64 input) 1 ++ out.drop 32) :=
    overwrite_halves hv (by omega) 0
  -- The loop over the links, and the last digest in what is left of the buffer.
  have hloop : r * 32 ≤ (out.drop 32).length := by
    rw [List.length_drop]
    omega
  have hrest : ((out.drop 32).drop (r * 32)).length = out.length - (r + 1) * 32 := by
    rw [List.length_drop, List.length_drop]
    omega
  rw [hrounds, pure_bind, blake2b_digestChecked_sixtyFour, pure_bind, hslice, pure_bind, hbuffer,
    pure_bind, Nat.add_sub_cancel, foldlM_linkChecked hv hloop, pure_bind, hleft, pure_bind,
    blake2b_digestChecked_eq ⟨by omega, by omega⟩, pure_bind, overwrite_last hv hrest htail, linked,
    hr, Nat.add_sub_cancel, Nat.mul_comm 32]
  rfl

/-- A buffer of at least one byte whose length fits is filled without a fault, whatever is in it. -/
theorem fillChecked_eq {out : Bytes} (h : 1 ≤ out.length) (hfits : out.length < UInt32.size)
    (parts : List Bytes) :
    fillChecked out parts = pure (digest out.length h parts.flatten) := by
  rw [digest_eq_standard, stretch]
  by_cases hn : out.length ≤ 64
  · rw [if_pos hn, fillChecked_of_le h hn]
  · rw [if_neg hn, fillChecked_of_lt (Nat.lt_of_not_le hn) hfits]

/-- A digest of at least one byte whose length fits meets no fault. -/
theorem digestChecked_eq {n : ℕ} (h : 1 ≤ n) (hfits : n < UInt32.size) (data : Bytes) :
    digestChecked n data = pure (digest n h data) := by
  have hlegal : ¬(n = 0 ∨ UInt32.size ≤ n) := by omega
  rw [digest_eq_standard, digestChecked, if_neg hlegal, stretch, le32_eq_encode]
  by_cases hn : n ≤ 64
  · rw [if_pos hn, if_pos hn, blake2b_digestChecked_eq ⟨h, hn⟩]
  · -- A chain over zeros is the one that fills a buffer of zeros.
    have hlength : (List.replicate n (0 : UInt8)).length = n := List.length_replicate
    have hlong : 64 < (List.replicate n (0 : UInt8)).length := by omega
    have hfill := fillChecked_of_lt hlong (by rwa [hlength]) [data]
    rw [fillChecked, hlength, if_neg hlegal, if_neg hn, List.flatten_cons,
      List.flatten_singleton] at hfill
    rw [if_neg hn, if_neg hn, hfill, le32_eq_encode]

/-! ## Any length -/

/-- The links of a chain, numbered from one, with the last digest as the one after them. -/
def linkOrLast (n : ℕ) (v : Bytes) (i : ℕ) : Bytes :=
  if i ≤ links n then link v (i - 1) else hash (n - 32 * links n) (link v (links n - 1))

/-- The chain is the halves of the first links and then the whole of the one after them. -/
theorem linked_eq_linkOrLast (n : ℕ) (v : Bytes) :
    linked n v = ((List.range (links n)).flatMap fun i => (linkOrLast n v (i + 1)).take 32) ++
      linkOrLast n v (links n + 1) := by
  rw [linked, linkOrLast, if_neg (Nat.not_succ_le_self _)]
  congr 1
  refine List.flatMap_congr fun i hi => ?_
  rw [linkOrLast, if_pos (Nat.succ_le_of_lt (List.mem_range.mp hi)), Nat.add_sub_cancel]

/-- The link after another one is the hash of it, as long as it is not the last digest. -/
theorem linkOrLast_succ {n i : ℕ} (v : Bytes) (hpos : 1 ≤ i) (hi : i < links n) :
    linkOrLast n v (i + 1) = hash 64 (linkOrLast n v i) := by
  obtain ⟨j, rfl⟩ : ∃ j, i = j + 1 := ⟨i - 1, by omega⟩
  rw [linkOrLast, linkOrLast, if_pos (Nat.succ_le_of_lt hi), if_pos hi.le, Nat.add_sub_cancel,
    Nat.add_sub_cancel, link_succ_eq_hash_link]

/-- The last digest is one of the last link. -/
theorem linkOrLast_last (n : ℕ) (v : Bytes) :
    linkOrLast n v (links n + 1) = hash (n - 32 * links n) (linkOrLast n v (links n)) := by
  rw [linkOrLast, linkOrLast, if_neg (Nat.not_succ_le_self _), if_pos le_rfl]

/-- A buffer of `n` bytes, for `n` from 1 to `2^32 - 1`, is filled with a digest of `n` bytes of the parts,
whatever is in it. No call of BLAKE2b and no range fails. For `n` up to 64 the digest is the hash of the
length and the parts. Otherwise it is the first halves of `V 1`, …, `V r` and the whole of `V (r + 1)`, with
`r = ⌈n / 32⌉ - 2`, where `V 1` is the hash of 64 bytes of the length and the parts, each later one up to
`V r` is that of the one before, and `V (r + 1)` is the hash of the remaining 33 to 64 bytes. -/
theorem fills_any_length (out : Bytes) (parts : List Bytes) (h : 1 ≤ out.length)
    (hfits : out.length ≤ 2^32 - 1) :
    let n := out.length
    let input := le32 n ++ parts.flatten
    let r := (n + 31) / 32 - 2
    ∃ digest : Bytes, fillChecked out parts = pure digest ∧
      Stretch.digest? n parts.flatten = .ok digest ∧ digest.length = n ∧
      (n ≤ 64 → digest = hash n input) ∧
      (64 < n → 1 ≤ r ∧ (33 ≤ n - 32 * r ∧ n - 32 * r ≤ 64) ∧
        ∃ V : ℕ → Bytes, V 1 = hash 64 input ∧
          (∀ i, 1 ≤ i → i < r → V (i + 1) = hash 64 (V i)) ∧
          V (r + 1) = hash (n - 32 * r) (V r) ∧
          digest = ((List.range r).flatMap fun i => (V (i + 1)).take 32) ++ V (r + 1)) := by
  intro n input r
  have hsize : out.length < UInt32.size := Nat.lt_of_le_sub_one (by decide) hfits
  refine ⟨digest n h parts.flatten, fillChecked_eq h hsize parts, ?_, length_digest _ _ _,
    fun hshort => ?_, fun hlong => ?_⟩
  · rw [digest?, dif_neg (Nat.ne_of_gt h), if_neg (Nat.not_le.mpr hsize)]
  · rw [digest_eq_standard, stretch, if_pos hshort]
  · obtain ⟨hfirst, htail⟩ := links_bounds hlong
    -- The chain is that of the links, with the last digest at its end.
    refine ⟨hfirst, htail, linkOrLast n (hash 64 input), ?_, fun i => linkOrLast_succ _,
      linkOrLast_last _ _, ?_⟩
    · rw [linkOrLast, if_pos hfirst, Nat.sub_self, link_zero]
    · rw [digest_eq_standard, stretch, if_neg (Nat.not_le.mpr hlong)]
      exact linked_eq_linkOrLast n _

/-- A buffer of 97 bytes, the shortest that takes three digests, and input in three parts. -/
theorem fills_any_length_three_digests :
    let out : Bytes := List.replicate 97 7
    let parts : List Bytes := [[1], [], [2, 3]]
    1 ≤ out.length ∧ out.length ≤ 2^32 - 1 ∧
      ∃ V : ℕ → Bytes, V 1 = hash 64 [97, 0, 0, 0, 1, 2, 3] ∧ V 2 = hash 64 (V 1) ∧
        V 3 = hash 33 (V 2) ∧
        fillChecked out parts = pure ((V 1).take 32 ++ (V 2).take 32 ++ V 3) := by
  intro out parts
  have hlength : out.length = 97 := List.length_replicate
  have hinput : le32 out.length ++ parts.flatten = [97, 0, 0, 0, 1, 2, 3] := by
    rw [hlength]
    decide
  obtain ⟨digest, hfill, -, -, -, hlong⟩ := fills_any_length out parts (by decide) (by decide)
  rw [hlength] at hlong
  obtain ⟨-, -, V, hfirst, hnext, hlast, hdigest⟩ := hlong (by decide)
  rw [← hlength, hinput] at hfirst
  refine ⟨by decide, by decide, V, hfirst, hnext 1 le_rfl (by decide), hlast, ?_⟩
  rw [hfill, hdigest, show (97 + 31) / 32 - 2 = 2 from rfl, List.range_succ, List.range_one,
    List.flatMap_append, List.flatMap_singleton, List.flatMap_singleton]

end Stretch

end SymmetricCrypto
