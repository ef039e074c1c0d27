import Mathlib
import SymmetricCrypto.Digest.Stretch
import SymmetricCrypto.Proofs.Bytes.Digits

/-!
# The chain is the hash of any length of RFC 9106

Section 3.3 of RFC 9106 defines `H'^T` by the number of its links: with `r = ⌈T / 32⌉ - 2`, the
result is the first halves of `V_1`, …, `V_r` and then the whole of `V_(r+1)`, where each `V_i` is
the hash of the one before. `Standard.stretch` is that definition. The digest instead goes on from
link to link until at most 64 bytes are left; `digest_eq_standard` shows that it gives the same
bytes.

The proof is an induction along the chain. A link takes 32 bytes off the length and so one off `r`,
and what follows it is the same chain from its hash.
-/

namespace SymmetricCrypto.Stretch

namespace Standard

/-- `H^n`: BLAKE2b with a digest of `n` bytes, for `n` from 1 to 64. -/
def hash (n : Nat) (data : Bytes) : Bytes :=
  if h : 1 ≤ n ∧ n ≤ 64 then (Blake2b.digest n h data).toList else []

/-- `LE32`: the four bytes of a number below `2^32`, least significant first. -/
def le32 (n : Nat) : Bytes := Digits.bytes 4 n

/-- The digest writes a length as the standard does. -/
theorem le32_eq_encode (n : Nat) : le32 n = LittleEndian.encode 4 n :=
  (LittleEndian.encode_eq_bytes 4 n).symm

/-- `V_(i+1)` of the chain whose `V_1` is given. -/
def link (v : Bytes) (i : Nat) : Bytes := (hash 64)^[i] v

/-- The number of links of a chain of `n` bytes that give only their first half. -/
def links (n : Nat) : Nat := (n + 31) / 32 - 2

/-- The chain of `n` bytes whose `V_1` is given: `W_1`, …, `W_r`, and `V_(r+1)`. -/
def linked (n : Nat) (v : Bytes) : Bytes :=
  (List.range (links n)).flatMap (fun i => (link v i).take 32) ++
    hash (n - 32 * links n) (link v (links n - 1))

/-- `H'^n`: the hash of `n` bytes. -/
def stretch (n : Nat) (data : Bytes) : Bytes :=
  if n ≤ 64 then hash n (le32 n ++ data) else linked n (hash 64 (le32 n ++ data))

/-- The hash of a length in range is BLAKE2b. -/
theorem hash_eq (n : Nat) (h : 1 ≤ n ∧ n ≤ 64) (data : Bytes) :
    hash n data = (Blake2b.digest n h data).toList := dif_pos h

/-- The hash of 64 bytes is BLAKE2b with its longest digest. -/
theorem hash_sixtyFour (data : Bytes) : hash 64 data = (Blake2b.digest64 data).toList :=
  hash_eq 64 (by decide) data

/-- The first link is the given one. -/
theorem link_zero (v : Bytes) : link v 0 = v := rfl

/-- A later link is a link of the chain from the next one. -/
theorem link_succ (v : Bytes) (i : Nat) : link v (i + 1) = link (hash 64 v) i :=
  Function.iterate_succ_apply _ _ _

/-- A chain of at most 96 bytes has one half and a last hash. -/
theorem linked_of_le (n : Nat) (h : 64 < n) (hn : n - 32 ≤ 64) (v : Bytes) :
    linked n v = v.take 32 ++ hash (n - 32) v := by
  have hlinks : links n = 1 := by unfold links; omega
  unfold linked
  rw [hlinks]
  rw [List.range_one, List.flatMap_singleton, Nat.sub_self, link_zero, Nat.mul_one]

/-- A longer chain has the half of its first link and then the chain from the hash of it. -/
theorem linked_of_lt (n : Nat) (hn : 64 < n - 32) (v : Bytes) :
    linked n v = v.take 32 ++ linked (n - 32) (hash 64 v) := by
  have hlinks : links n = links (n - 32) + 1 := by unfold links; omega
  have hone : 1 ≤ links (n - 32) := by unfold links; omega
  unfold linked
  rw [hlinks]
  generalize links (n - 32) = r at hone ⊢
  obtain ⟨r, rfl⟩ : ∃ r', r = r' + 1 := ⟨r - 1, by omega⟩
  -- The half of the first link stands before those of the chain from the next one.
  have hhalves : (List.range (r + 1 + 1)).flatMap (fun i => (link v i).take 32) =
      v.take 32 ++ (List.range (r + 1)).flatMap (fun i => (link (hash 64 v) i).take 32) := by
    rw [List.range_succ_eq_map, List.flatMap_cons, List.flatMap_map]
    simp only [Nat.succ_eq_add_one, link_succ, link_zero]
  have hlast : n - 32 * (r + 1 + 1) = n - 32 - 32 * (r + 1) := by omega
  rw [hhalves, hlast, List.append_assoc, Nat.add_sub_cancel, Nat.add_sub_cancel, link_succ]

end Standard

open Standard

/-- The chain is the standard's, which counts its links. -/
theorem chain_eq_linked (n : Nat) (h : 64 < n) (v : Vector UInt8 64) :
    chain n h v = linked n v.toList := by
  fun_induction chain n h v with
  | case1 n h v ih =>
    by_cases hn : n - 32 ≤ 64
    · rw [dif_pos hn, linked_of_le n h hn, hash_eq]
    · rw [dif_neg hn, ih hn, linked_of_lt n (by omega), hash_sixtyFour]

/-- The digest of `n` bytes is the standard's `H'^n`. -/
theorem digest_eq_standard (n : Nat) (h : 1 ≤ n) (data : Bytes) :
    digest n h data = stretch n data := by
  unfold digest stretch
  rw [le32_eq_encode]
  by_cases hn : n ≤ 64
  · rw [if_pos hn, dif_pos hn, hash_eq n ⟨h, hn⟩]
  · rw [if_neg hn, dif_neg hn, chain_eq_linked, hash_sixtyFour]

end SymmetricCrypto.Stretch
