import Mathlib
import SymmetricCrypto.Proofs.Argon2.CheckedFill
import SymmetricCrypto.Proofs.Argon2.Conformance
import SymmetricCrypto.Proofs.Digest.Checked

/-!
# Deriving meets no fault

The whole derivation with its operations checked, from the bound on the memory to the digest that is
the tag. For parameters in range and enough memory it is what it is without the checks, for every
password and every salt (`derive_total`). So no sum, difference or product goes around, no index is
outside, no divisor is zero, and BLAKE2b is asked for one to 64 bytes only. What remains are the
refusals: a salt below eight bytes, and a password or a salt whose length does not fit 32 bits.
-/

namespace SymmetricCrypto.Argon2

open Checked Standard Stretch.Standard

/-- `Hasher.ofParams` with the bound on the memory checked. -/
def Hasher.ofParamsChecked (p : Params) : Checked (Except Error Hasher) := do
  let _ ← mul 8 p.lanes.toUInt64
  return Hasher.ofParams p

namespace Plan

/-- A given block is put into its place, with the operations checked. -/
def giveBlockChecked (f : Plan) (digest : Bytes) (lane : UInt32) (m : Memory) (column : UInt32) :
    Checked Memory := do
  let block ← Stretch.digestChecked 1024
    (digest ++ LittleEndian.wordBytes column ++ LittleEndian.wordBytes lane)
  let place ← f.layout.indexChecked lane column
  replace m place (Block.ofBytes block)

/-- `initialMemory` with its operations checked. -/
def initialMemoryChecked (f : Plan) (digest : Bytes) : Checked Memory :=
  f.laneList.foldlM (fun m lane => [0, 1].foldlM (f.giveBlockChecked digest lane) m)
    (Array.replicate f.layout.total.toNat Block.zero)

/-- The last block of a lane is summed, with the operations checked. -/
def addLastChecked (f : Plan) (m : Memory) (sum : Block) (lane : UInt32) : Checked Block := do
  let column ← sub f.layout.laneLength 1
  let place ← f.layout.indexChecked lane column
  let last ← lookup m place
  return sum.xor last

/-- `lastColumn` with its operations checked. -/
def lastColumnChecked (f : Plan) (m : Memory) : Checked Block :=
  f.laneList.foldlM (f.addLastChecked m) Block.zero

/-- The tag for the input of the initial digest, with the operations checked. -/
def tagChecked (f : Plan) (tagLength : ℕ) (input : Bytes) : Checked Bytes := do
  let digest ← Blake2b.digestChecked 64 input
  let initial ← f.initialMemoryChecked digest
  let filled ← f.fillChecked initial
  let sum ← f.lastColumnChecked filled
  Stretch.digestChecked tagLength sum.toBytes

end Plan

/-- `Hasher.derive` with its operations checked. -/
def Hasher.deriveChecked (a : Hasher) (available : ℕ) (password salt : Bytes) :
    Checked (Except Error Bytes) :=
  if salt.length < minSaltLength then return .error (.invalidParameter .shortSalt)
  else do
    let layout ← Layout.ofMemoryChecked a.params.memory a.params.lanes
    if available < layout.total.toNat then return .error (.outOfMemory layout.total.toNat)
    else
      match initialInput a.params password salt with
      | .error e => return .error e
      | .ok input => do
        let tag ← Plan.tagChecked { a.plan with layout } a.params.tagLength input
        return .ok tag

/-- `derive` with its operations checked. -/
def deriveChecked (available : ℕ) (p : Params) (password salt : Bytes) :
    Checked (Except Error Bytes) := do
  match ← Hasher.ofParamsChecked p with
  | .error e => return .error e
  | .ok a => a.deriveChecked available password salt

/-! ## No fault -/

/-- The bound on the memory fits. -/
theorem Hasher.ofParamsChecked_eq (p : Params) : ofParamsChecked p = pure (ofParams p) := by
  have hlanes := p.lanes.toNat_lt
  have height : (8 : UInt64).toNat = 8 := rfl
  have hproduct : (8 * p.lanes.toUInt64).toNat = (8 : UInt64).toNat * p.lanes.toUInt64.toNat := by
    rw [UInt64.toNat_mul, UInt32.toNat_toUInt64, height, Nat.mod_eq_of_lt (by omega)]
  rw [ofParamsChecked, mul_eq hproduct, pure_bind]

namespace Plan

variable {f : Plan} (hf : f.layout.Regular) {m : Memory}
include hf

/-- The given blocks are in the memory. -/
theorem giveBlockChecked_eq (hm : m.size = f.layout.total.toNat) (digest : Vector UInt8 64)
    {lane column : UInt32} (hlane : lane.toNat < f.setting.lanes) (hcolumn : column.toNat < 2) :
    f.giveBlockChecked digest.toList lane m column =
      pure (m.setIfInBounds (f.layout.index lane column) (givenBlock digest lane column)) := by
  have hlength : column.toNat < f.layout.laneLength.toNat := by
    have htwo := hf.two_le_segment
    rw [hf.laneLength_eq]
    omega
  have hplace := Layout.index_lt hf hlane hlength
  rw [← hm] at hplace
  rw [giveBlockChecked, Stretch.digestChecked_eq (by decide) (by decide), pure_bind,
    Layout.indexChecked_eq, pure_bind, replace_eq hplace, givenBlock]

/-- The memory before the first pass is made without a fault. -/
theorem initialMemoryChecked_eq (digest : Vector UInt8 64) :
    f.initialMemoryChecked digest.toList = pure (initialMemory f digest) ∧
      (initialMemory f digest).size = f.layout.total.toNat := by
  refine foldlM_eq_pure (fun m : Memory => m.size = f.layout.total.toNat)
    (fun m hm lane hlane => ?_) Array.size_replicate
  have hlane' := mem_laneList.mp hlane
  have hfirst : (m.setIfInBounds (f.layout.index lane 0) (givenBlock digest lane 0)).size =
      f.layout.total.toNat := by
    rw [Array.size_setIfInBounds, hm]
  refine ⟨?_, by rw [Array.size_setIfInBounds, hfirst]⟩
  rw [List.foldlM_cons, giveBlockChecked_eq hf hm digest hlane' (by decide), pure_bind,
    List.foldlM_cons, giveBlockChecked_eq hf hfirst digest hlane' (by decide), pure_bind,
    List.foldlM_nil]

/-- The last blocks are summed without a fault. -/
theorem lastColumnChecked_eq (hm : m.size = f.layout.total.toNat) :
    f.lastColumnChecked m = pure (lastColumn f m) := by
  have hlength := hf.laneLength_pos
  have hlast := toNat_sub_one hlength
  have hstep : ∀ sum : Block, True → ∀ lane ∈ f.laneList, f.addLastChecked m sum lane =
      pure (sum.xor (m.getD (f.layout.index lane (f.layout.laneLength - 1)) Block.zero)) ∧
        True := by
    intro sum _ lane hlane
    have hcolumn : (f.layout.laneLength - 1).toNat < f.layout.laneLength.toNat := by omega
    rw [addLastChecked, sub_eq hlength hlast, pure_bind, Layout.indexChecked_eq, pure_bind,
      lookup_index_eq hf hm (mem_laneList.mp hlane) hcolumn, pure_bind]
    exact ⟨rfl, trivial⟩
  exact (foldlM_eq_pure (fun _ => True) hstep trivial).1

/-- The tag is made without a fault. -/
theorem tagChecked_eq {n : ℕ} (hn : 1 ≤ n) (hfits : n < UInt32.size) (input : Bytes) :
    f.tagChecked n input = pure (Stretch.digest n hn
      (lastColumn f (f.fill (initialMemory f (Blake2b.digest64 input)))).toBytes) := by
  obtain ⟨hinitial, hsize⟩ := initialMemoryChecked_eq hf (Blake2b.digest64 input)
  obtain ⟨hfill, hsize'⟩ := fillChecked_eq hf hsize
  rw [tagChecked, Stretch.blake2b_digestChecked_sixtyFour, pure_bind, hash_sixtyFour, hinitial,
    pure_bind, hfill, pure_bind, lastColumnChecked_eq hf hsize', pure_bind,
    Stretch.digestChecked_eq hn hfits]

end Plan

/-- A hasher derives without a fault. -/
theorem Hasher.deriveChecked_eq (a : Hasher) (available : ℕ) (password salt : Bytes) :
    a.deriveChecked available password salt = pure (a.derive available password salt) := by
  have hlayout :=
    Layout.ofMemoryChecked_eq a.lanes_pos_and_memory_le.1 a.lanes_pos_and_memory_le.2
  have hplan : a.plan.layout = Layout.ofMemory a.params.memory a.params.lanes := rfl
  unfold deriveChecked derive
  by_cases hshort : salt.length < minSaltLength
  · rw [if_pos hshort, if_pos hshort]
  · rw [if_neg hshort, if_neg hshort, hlayout, pure_bind, ← hplan]
    by_cases hmemory : available < a.plan.layout.total.toNat
    · rw [if_pos hmemory, if_pos hmemory]
    · rw [if_neg hmemory, if_neg hmemory]
      cases initialInput a.params password salt with
      | error e => rfl
      | ok input =>
        have htag := Plan.tagChecked_eq a.regular a.one_le_tagLength
          (tagLength_lt a.sound) input
        show (do
          let tag ← a.plan.tagChecked a.params.tagLength input
          return Except.ok tag) = _
        rw [htag, pure_bind]
        rfl

/-! ## The refusals -/

/-- A password or a salt whose length does not fit is refused. -/
theorem initialInput_eq_error {p : Params} (hp : p.fault? = none) {password salt : Bytes}
    (h : ¬(password.length < UInt32.size ∧ salt.length < UInt32.size)) :
    initialInput p password salt = .error (.invalidParameter .longInput) := by
  have htag : p.tagLength < 2^32 := tagLength_lt hp
  rw [initialInput_eq, if_neg (Nat.not_le.mpr htag),
    if_neg fun hshort => h ((forall_strings_iff hp password salt).mp hshort)]

/-- With enough memory, a hasher gives a tag of the length that is asked for, or it refuses a salt
that is short or a password or a salt that is long. -/
theorem Hasher.derive_cases (a : Hasher) {available : ℕ}
    (havailable : a.plan.layout.total.toNat ≤ available) (password salt : Bytes) :
    if 8 ≤ salt.length ∧ password.length ≤ 2^32 - 1 ∧ salt.length ≤ 2^32 - 1 then
      ∃ tag, a.derive available password salt = .ok tag ∧ tag.length = a.params.tagLength
    else ∃ cause, a.derive available password salt = .error (.invalidParameter cause) := by
  have hmemory : ¬available < a.plan.layout.total.toNat := by omega
  have hsize : UInt32.size = 2^32 := rfl
  unfold derive minSaltLength
  split_ifs with h hshort hshort
  · omega
  · rw [initialInput_eq_standard a.sound (by omega) (by omega)]
    exact ⟨_, rfl, Stretch.length_digest _ _ _⟩
  · exact ⟨.shortSalt, rfl⟩
  · rw [initialInput_eq_error a.sound (by omega)]
    exact ⟨.longInput, rfl⟩

/-- For all parameters in range, every password and every salt, with memory for all blocks:

* the derivation meets no fault, so that with its operations checked it is the same;
* it gives a tag, which has the length that is asked for, exactly if the salt has at least eight
  bytes and the lengths of the password and of the salt fit 32 bits;
* otherwise it refuses a parameter. -/
theorem derive_total (available : ℕ) (p : Params) (password salt : Bytes) (hp : p.fault? = none)
    (havailable : (Layout.ofParams p).total.toNat ≤ available) :
    deriveChecked available p password salt = pure (derive available p password salt) ∧
      ((∃ tag, derive available p password salt = .ok tag ∧ tag.length = p.tagLength) ↔
        8 ≤ salt.length ∧ password.length ≤ 2^32 - 1 ∧ salt.length ≤ 2^32 - 1) ∧
      (¬(8 ≤ salt.length ∧ password.length ≤ 2^32 - 1 ∧ salt.length ≤ 2^32 - 1) →
        ∃ cause, derive available p password salt = .error (.invalidParameter cause)) := by
  have hasher := Hasher.ofParams_eq_ok hp
  have hderive : derive available p password salt =
      Hasher.derive ⟨p, hp⟩ available password salt := by
    rw [derive, hasher]
    rfl
  -- Of a hasher, the two cases exclude each other.
  have hcases := Hasher.derive_cases ⟨p, hp⟩ havailable password salt
  rw [hderive]
  refine ⟨?_, ?_⟩
  · rw [deriveChecked, Hasher.ofParamsChecked_eq, hasher, pure_bind]
    exact Hasher.deriveChecked_eq _ available password salt
  · split_ifs at hcases with h
    · exact ⟨iff_of_true hcases h, fun hnot => absurd h hnot⟩
    · refine ⟨iff_of_false ?_ h, fun _ => hcases⟩
      rintro ⟨tag, htag, -⟩
      obtain ⟨cause, hcause⟩ := hcases
      rw [hcause] at htag
      cases htag

/-- The largest memory, the most lanes and the most passes, with the longest tag and the shortest
salt. -/
theorem derive_total_most_lanes :
    let p : Params := ⟨0xffffffff, 0xffffffff, 0xffffff, 1024, none, none, .argon2i⟩
    let salt : Bytes := List.replicate 8 2
    p.fault? = none ∧ (Layout.ofParams p).total.toNat ≤ 2^32 - 1 ∧
      deriveChecked (2^32 - 1) p [] salt = pure (derive (2^32 - 1) p [] salt) ∧
      ((∃ tag, derive (2^32 - 1) p [] salt = .ok tag ∧ tag.length = 1024) ↔
        8 ≤ salt.length ∧ ([] : Bytes).length ≤ 2^32 - 1 ∧ salt.length ≤ 2^32 - 1) ∧
      (¬(8 ≤ salt.length ∧ ([] : Bytes).length ≤ 2^32 - 1 ∧ salt.length ≤ 2^32 - 1) →
        ∃ cause, derive (2^32 - 1) p [] salt = .error (.invalidParameter cause)) :=
  ⟨by decide, by decide, derive_total (2^32 - 1) _ [] _ (by decide) (by decide)⟩

end SymmetricCrypto.Argon2
