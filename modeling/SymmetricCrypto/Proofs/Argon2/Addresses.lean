import Mathlib
import SymmetricCrypto.Proofs.Argon2.Window

/-!
# The address stream is the list of address blocks

The standard takes the word for the block at `index` from the address block with number
`index / 128 + 1`. The stream instead keeps one address block and makes the next one when the index
begins another 128, or at its first use, which is at index zero or two. Read in order, it gives the
same words (`next_reached`): the state before an index is a function of the index alone (`reached`),
and both reasons for a new block lead to the number that the standard computes. -/

namespace SymmetricCrypto.Argon2

open Standard

/-- The number of a variant is the standard's. -/
theorem toNat_id_eq_typeNumber (v : Variant) : v.id.toNat = typeNumber v := by
  cases v <;> rfl

namespace AddressStream

/-- The stream that was read from index `first` on, up to `index`. -/
def reached (origin : Vector UInt64 6) (first index : Nat) : AddressStream :=
  if index = first then ⟨origin, 0, none⟩
  else
    let counter := UInt64.ofNat ((index - 1) / 128 + 1)
    ⟨origin, counter, some (addressBlock origin counter)⟩

/-- The word of the address block with the standard's number. -/
def wordAt (origin : Vector UInt64 6) (index : Nat) : UInt64 :=
  (addressBlock origin (UInt64.ofNat (index / 128 + 1))).getD (index % 128) 0

/-- A stream is read from its first index on. -/
theorem start_eq_reached (l : Layout) (p : Position) (passes : UInt32) (v : Variant) (first : Nat) :
    start l p passes v = reached (start l p passes v).origin first first := (if_pos rfl).symm

/-- Reading the next index gives the word of the standard's block. -/
theorem next_reached (origin : Vector UInt64 6) (first : Nat) (index : UInt32)
    (hfirst : first < 128) (hle : first ≤ index.toNat) :
    (reached origin first index.toNat).next index =
      (wordAt origin index.toNat, reached origin first (index.toNat + 1)) := by
  have hafter : reached origin first (index.toNat + 1) =
      ⟨origin, UInt64.ofNat (index.toNat / 128 + 1),
        some (addressBlock origin (UInt64.ofNat (index.toNat / 128 + 1)))⟩ := by
    unfold reached
    rw [if_neg (by omega), Nat.add_sub_cancel]
  have hsucc : ∀ n : Nat, UInt64.ofNat n + 1 = UInt64.ofNat (n + 1) := fun n =>
    (UInt64.ofNat_add n 1).symm
  rw [hafter]
  unfold next wordAt
  by_cases hstart : index.toNat = first
  · -- The first use makes the first block.
    have hzero : index.toNat / 128 = 0 := by omega
    have hreached : reached origin first index.toNat = ⟨origin, 0, none⟩ := if_pos hstart
    rw [hreached, hzero]
    rfl
  · have hreached : reached origin first index.toNat =
        ⟨origin, UInt64.ofNat ((index.toNat - 1) / 128 + 1),
          some (addressBlock origin (UInt64.ofNat ((index.toNat - 1) / 128 + 1)))⟩ := if_neg hstart
    rw [hreached]
    dsimp only
    by_cases hslot : index.toNat % 128 = 0
    · -- The index begins another 128, so the number goes up by one.
      have hnumber : (index.toNat - 1) / 128 + 1 = index.toNat / 128 := by omega
      rw [if_pos hslot]
      unfold refill
      dsimp only
      rw [hsucc, hnumber]
    · -- The block is still the one of the index before.
      have hnumber : (index.toNat - 1) / 128 = index.toNat / 128 := by omega
      rw [if_neg hslot, hnumber]

/-- A stream is never read so often that its counter does not fit. -/
theorem toNat_counter_reached_le (origin : Vector UInt64 6) (first index : ℕ) :
    (reached origin first index).counter.toNat ≤ index + 1 := by
  unfold reached
  split_ifs
  · exact Nat.zero_le _
  · have hle : (UInt64.ofNat ((index - 1) / 128 + 1)).toNat ≤ (index - 1) / 128 + 1 := by
      rw [UInt64.toNat_ofNat']
      exact Nat.mod_le _ _
    dsimp only
    omega

/-- An address block of a segment is the standard's. -/
theorem addressBlock_eq_standard (f : Plan) (p : Position) (n : Nat) :
    addressBlock (start f.layout p f.passes f.variant).origin (UInt64.ofNat n) =
      f.setting.addressBlock p.pass.toNat p.lane.toNat p.slice.toNat n := by
  have hword : ∀ x : UInt32, x.toUInt64 = UInt64.ofNat x.toNat := fun x => by
    apply UInt64.toNat_inj.mp
    rw [UInt32.toNat_toUInt64, UInt64.toNat_ofNat', Nat.mod_eq_of_lt]
    have := x.toNat_lt
    omega
  have htype := toNat_id_eq_typeNumber f.variant
  -- Six numbers, the counter and zeros, on both sides.
  have hinput : ((start f.layout p f.passes f.variant).origin ++ #v[UInt64.ofNat n] ++
      Vector.replicate 121 (0 : UInt64) : Block) =
        Vector.ofFn fun i => UInt64.ofNat <|
          [p.pass.toNat, p.lane.toNat, p.slice.toNat, f.setting.blocks, f.setting.passes,
            typeNumber f.setting.variant, n].getD i.val 0 := by
    refine Vector.ext fun i hi => ?_
    rw [Vector.getElem_ofFn]
    unfold start
    rcases Nat.lt_or_ge i 7 with hsmall | hlarge
    · rw [Vector.getElem_append_left (by omega)]
      simp only [hword, htype]
      interval_cases i <;> rfl
    · -- The rest is zero.
      rw [Vector.getElem_append_right hi hlarge, Vector.getElem_replicate,
        List.getD_eq_default _ _ (by exact hlarge)]
      rfl
  unfold addressBlock Setting.addressBlock
  dsimp only
  rw [hinput, mix_eq_compress, mix_eq_compress, zeros_eq_zero]

/-- The words of a segment are the standard's. -/
theorem wordAt_eq_standard (f : Plan) (p : Position) (index : UInt32) :
    wordAt (start f.layout p f.passes f.variant).origin index.toNat =
      f.setting.addressWord (p.place index) := by
  unfold wordAt Setting.addressWord
  rw [addressBlock_eq_standard]
  rfl

end AddressStream

end SymmetricCrypto.Argon2
