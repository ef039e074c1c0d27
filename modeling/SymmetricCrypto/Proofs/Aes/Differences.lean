import Mathlib
import SymmetricCrypto.Proofs.Aes.Chaining

/-!
# What a changed block does to a plaintext

The units of a ciphertext are the initial block, as unit 0, and its blocks. Block `i` of the plaintext
is the decryption of unit `i`, summed with unit `i - 1`. So a change of unit `j` stays in the blocks `j`
and `j + 1`: block `j` becomes another one, and the change of block `j + 1` is the change of the unit
(`differences_stay_local`). One who can change the unit before the last one chooses in this way what
the last byte of the plaintext becomes, before the padding is looked at.
-/

namespace SymmetricCrypto.Aes

namespace Cbc

open Session (Taken)
open Standard (blockAt sum chain plainBlock cbcDecrypt)

/-! ## Changes of a sum -/

/-- A change of the second summand changes the sum in the same way. -/
theorem sum_change (a b c : Block) : sum a c = sum (sum a b) (sum c b) := by
  have hbyte : ∀ x y z : UInt8, x ^^^ z = (x ^^^ y) ^^^ (z ^^^ y) := by
    intro x y z
    rw [UInt8.xor_comm z y, ← UInt8.xor_assoc, UInt8.xor_assoc x y y, UInt8.xor_self,
      UInt8.xor_zero]
  rw [sum_eq_xor, sum_eq_xor, sum_eq_xor, sum_eq_xor]
  refine Vector.ext fun i hi => ?_
  simp only [Block.xor, Vector.getElem_zipWith]
  exact hbyte _ _ _

/-- Sums with one block are equal if the other summands are. -/
theorem sum_left_inj (a b c : Block) : sum a c = sum b c ↔ a = b := by
  rw [sum_eq_xor, sum_eq_xor]
  constructor
  · intro h
    rw [← Block.xor_xor_cancel a c, h, Block.xor_xor_cancel]
  · exact congrArg (Block.xor · c)

/-- A byte of a sum. -/
theorem getD_sum (a b : Block) {i : ℕ} (hi : i < 16) :
    (sum a b).getD i 0 = a.getD i 0 ^^^ b.getD i 0 := by
  rw [getD_eq_getElem _ hi, getD_eq_getElem _ hi, getD_eq_getElem _ hi, sum_eq_xor, Block.xor,
    Vector.getElem_zipWith]

/-! ## Two ciphertexts -/

/-- Two ciphertexts of whole blocks, of one length, whose units are the same but for unit `j`. -/
structure DifferAt (j : ℕ) (initial initial' : Block) (data data' : Bytes) : Prop where
  /-- The first text is whole blocks. -/
  aligned : data.length % 16 = 0
  /-- The second one is as long. -/
  length_eq : data'.length = data.length
  /-- They have the same units, the initial block being unit 0, but for unit `j`. -/
  unit_eq : ∀ i ≤ data.length / 16, i ≠ j → chain initial' data' i = chain initial data i

variable {E : Equiv.Perm Block} {initial initial' : Block} {data data' : Bytes} {i j : ℕ}

/-- A block that comes from two unchanged units is unchanged. -/
theorem DifferAt.plainBlock_eq (differ : DifferAt j initial initial' data data')
    (hi : i < data.length / 16) (hnext : i + 1 ≠ j) (hne : i ≠ j) :
    plainBlock E initial' data' (i + 1) = plainBlock E initial data (i + 1) := by
  rw [plainBlock, plainBlock, Nat.add_sub_cancel, differ.unit_eq (i + 1) hi hnext,
    differ.unit_eq i hi.le hne]

/-- The block after a changed unit changes as the unit does. -/
theorem DifferAt.plainBlock_succ (differ : DifferAt j initial initial' data data')
    (hj : j < data.length / 16) :
    plainBlock E initial' data' (j + 1) =
      sum (plainBlock E initial data (j + 1))
        (sum (chain initial' data' j) (chain initial data j)) := by
  rw [plainBlock, plainBlock, Nat.add_sub_cancel,
    differ.unit_eq (j + 1) hj (Nat.succ_ne_self j)]
  exact sum_change _ _ _

/-- The block of a changed unit is another one. -/
theorem DifferAt.plainBlock_eq_iff (differ : DifferAt (i + 1) initial initial' data data')
    (hi : i < data.length / 16) :
    plainBlock E initial' data' (i + 1) = plainBlock E initial data (i + 1) ↔
      chain initial' data' (i + 1) = chain initial data (i + 1) := by
  rw [plainBlock, plainBlock, Nat.add_sub_cancel, differ.unit_eq i hi.le (Nat.succ_ne_self i).symm,
    sum_left_inj]
  exact E.symm.injective.eq_iff

/-! ## The plaintext before its padding is taken off -/

/-- What a decrypting session has made of the pieces of a ciphertext, before its finalizer. -/
def rawPlaintext (key : Key) (initial : Block) (pieces : List Bytes) : Bytes :=
  ((Session.start mode key .decrypting initial).addAll mode pieces).2.output.toList

/-- It is the plaintext of the standard, however the ciphertext is cut. -/
theorem rawPlaintext_eq (key : Key) (initial : Block) (pieces : List Bytes) :
    rawPlaintext key initial pieces = cbcDecrypt key.permutation initial pieces.flatten := by
  obtain ⟨s, hadd, htaken⟩ := Session.taken_addAll total_mode key .decrypting initial pieces
  rw [rawPlaintext, hadd]
  exact output_of_taken htaken

/-- It is as long as the whole blocks of the ciphertext. -/
theorem length_rawPlaintext (key : Key) (initial : Block) (pieces : List Bytes) :
    (rawPlaintext key initial pieces).length = 16 * (pieces.flatten.length / 16) := by
  rw [rawPlaintext_eq, length_cbcDecrypt]

/-- Its blocks are those of the standard, which are counted from 1. -/
theorem blockAt_rawPlaintext (key : Key) (initial : Block) (pieces : List Bytes)
    (hi : i < pieces.flatten.length / 16) :
    blockAt (rawPlaintext key initial pieces) i =
      plainBlock key.permutation initial pieces.flatten (i + 1) := by
  rw [rawPlaintext_eq, cbcDecrypt_eq]
  exact blockAt_flatMap (fun i => plainBlock key.permutation initial pieces.flatten (i + 1)) hi

/-- The finalizer takes the padding off, if there are whole blocks. -/
theorem completeAll_decrypt_eq_strip (key : Key) (initial : Block) {pieces : List Bytes}
    (aligned : pieces.flatten.length % 16 = 0) :
    ((Session.start mode key .decrypting initial).completeAll mode pieces decrypt).1 =
      Padding.strip (rawPlaintext key initial pieces) := by
  obtain ⟨s, hadd, htaken⟩ := Session.taken_addAll total_mode key .decrypting initial pieces
  have hnone : s.pending.pending = [] := by
    rw [htaken.pending_eq, ← List.length_eq_zero_iff, Chunker.length_remainder, aligned]
  rw [Session.completeAll, rawPlaintext, hadd]
  dsimp only
  rw [decrypt, htaken.refusal_eq]
  exact if_neg (not_not.mpr hnone)

/-- The last byte of whole blocks is that of the last block. -/
theorem getLast?_eq_getD_blockAt {n : ℕ} (h : data.length = 16 * (n + 1)) :
    data.getLast? = some ((blockAt data n).getD 15 0) := by
  have hplace : data.length - 1 = 16 * n + 15 := by omega
  have hlast : 16 * n + 15 < data.length := by omega
  rw [List.getLast?_eq_getElem?, hplace, getD_eq_getElem _ (by decide) 0, blockAt,
    Vector.getElem_ofFn, List.getElem?_eq_getElem hlast, List.getD_eq_getElem _ _ hlast]

/-! ## The change of a plaintext -/

/-- Two ciphertexts of one length with the same units but for unit `j` have plaintexts with the same
blocks but for the blocks `j` and `j + 1`. Block `j + 1` changes as unit `j` does, and block `j` is the
same only if unit `j` is. Blocks are counted from 1, so block `i + 1` is at index `i`. This is the
plaintext from which the finalizer takes the padding off: if the last byte of the unit before the last
one changes by `d`, then so does the last byte of this plaintext. -/
theorem differences_stay_local (key : Key) {j : ℕ} {initial initial' : Block}
    {pieces pieces' : List Bytes}
    (differ : DifferAt j initial initial' pieces.flatten pieces'.flatten) :
    let n := pieces.flatten.length / 16
    let unit := chain initial pieces.flatten
    let unit' := chain initial' pieces'.flatten
    let plaintext := rawPlaintext key initial pieces
    let plaintext' := rawPlaintext key initial' pieces'
    (plaintext.length = 16 * n ∧ plaintext'.length = 16 * n) ∧
    (∀ i < n, i + 1 ≠ j → i ≠ j → blockAt plaintext' i = blockAt plaintext i) ∧
    (j < n → blockAt plaintext' j = sum (blockAt plaintext j) (sum (unit' j) (unit j))) ∧
    (∀ i < n, i + 1 = j → (blockAt plaintext' i = blockAt plaintext i ↔ unit' j = unit j)) ∧
    (((Session.start mode key .decrypting initial).completeAll mode pieces decrypt).1 =
        Padding.strip plaintext ∧
      ((Session.start mode key .decrypting initial').completeAll mode pieces' decrypt).1 =
        Padding.strip plaintext') ∧
    ∀ d, j + 1 = n → unit' j = (unit j).setIfInBounds 15 ((unit j).getD 15 0 ^^^ d) →
      ∃ last, plaintext.getLast? = some last ∧ plaintext'.getLast? = some (last ^^^ d) := by
  intro n unit unit' plaintext plaintext'
  have hlength : pieces'.flatten.length = pieces.flatten.length := differ.length_eq
  -- Both plaintexts are block by block what the standard says.
  have hblock : ∀ i < n, blockAt plaintext i =
      plainBlock key.permutation initial pieces.flatten (i + 1) := fun i hi =>
    blockAt_rawPlaintext key initial pieces hi
  have hblock' : ∀ i < n, blockAt plaintext' i =
      plainBlock key.permutation initial' pieces'.flatten (i + 1) := fun i hi =>
    blockAt_rawPlaintext key initial' pieces' (hlength ▸ hi)
  have hplaintext : plaintext.length = 16 * n := length_rawPlaintext key initial pieces
  have hplaintext' : plaintext'.length = 16 * n := by
    rw [length_rawPlaintext, hlength]
  -- The block after the unit changes as the unit does; the last byte needs this too.
  have hnext : j < n →
      blockAt plaintext' j = sum (blockAt plaintext j) (sum (unit' j) (unit j)) := by
    intro hj
    rw [hblock j hj, hblock' j hj]
    exact differ.plainBlock_succ hj
  refine ⟨⟨hplaintext, hplaintext'⟩, ?_, hnext, ?_, ⟨?_, ?_⟩, ?_⟩
  · intro i hi hprevious hne
    rw [hblock i hi, hblock' i hi]
    exact differ.plainBlock_eq hi hprevious hne
  · rintro i hi rfl
    rw [hblock i hi, hblock' i hi]
    exact differ.plainBlock_eq_iff hi
  · exact completeAll_decrypt_eq_strip key initial differ.aligned
  · exact completeAll_decrypt_eq_strip key initial' (hlength ▸ differ.aligned)
  · -- The last byte is in block `j + 1`, which changes as the unit does.
    intro d hj hunit
    have hchange : (sum (unit' j) (unit j)).getD 15 0 = d := by
      have hlast : (unit' j).getD 15 0 = (unit j).getD 15 0 ^^^ d := by
        rw [hunit, getD_eq_getElem _ (by decide) 0, Vector.getElem_setIfInBounds_self]
      rw [getD_sum _ _ (by decide), hlast, UInt8.xor_comm _ d, UInt8.xor_assoc,
        UInt8.xor_self, UInt8.xor_zero]
    refine ⟨_, getLast?_eq_getD_blockAt (hj ▸ hplaintext), ?_⟩
    rw [getLast?_eq_getD_blockAt (hj ▸ hplaintext'), hnext (by omega),
      getD_sum _ _ (by decide), hchange]

/-- A ciphertext of two blocks, in two pieces and in one, with a change of the last byte of its first
block. -/
theorem differences_stay_local_last_byte :
    let key : Key := ⟨.aes128, Vector.replicate 16 7⟩
    let initial : Block := Vector.replicate 16 9
    let pieces : List Bytes := [List.replicate 16 1, List.replicate 16 2]
    let pieces' : List Bytes := [List.replicate 15 1 ++ 4 :: List.replicate 16 2]
    let plaintext := rawPlaintext key initial pieces
    let plaintext' := rawPlaintext key initial pieces'
    DifferAt 1 initial initial pieces.flatten pieces'.flatten ∧
      blockAt plaintext' 0 ≠ blockAt plaintext 0 ∧
      ∃ last, plaintext.getLast? = some last ∧ plaintext'.getLast? = some (last ^^^ 5) := by
  intro key initial pieces pieces' plaintext plaintext'
  have differ : DifferAt 1 initial initial pieces.flatten pieces'.flatten :=
    ⟨by decide, by decide, by decide⟩
  obtain ⟨-, -, -, hsame, -, hlast⟩ := differences_stay_local key differ
  refine ⟨differ, ?_, hlast 5 (by decide) (by decide)⟩
  rw [ne_eq, hsame 0 (by decide) rfl]
  decide

end Cbc

end SymmetricCrypto.Aes
