import Mathlib
import SymmetricCrypto.ChaCha.Block
import SymmetricCrypto.Proofs.Bytes.Words
import SymmetricCrypto.Proofs.ChaCha.Standard
import SymmetricCrypto.Proofs.Word

/-!
# Blocks and subkeys are the standard ones

The cipher computes with 32-bit words, and the standard with numbers. `numbers` takes a state to its
numbers, and each operation on the one side is that on the other: the quarter round
(`numbers_quarterRound`), the rounds (`numbers_permute`) and the layout of the state
(`numbers_keyed`). So the keystream of a state is the standard's (`toList_keystream`), and with it a
block (`toList_block`), and so is a subkey (`toList_subkey`).
-/

namespace SymmetricCrypto.ChaCha

open LittleEndian Word

/-! ## The rounds -/

/-- The words of a state as numbers. -/
def numbers (s : State) : Standard.State := s.toList.map UInt32.toNat

/-- A word that is written. -/
theorem numbers_setIfInBounds (s : State) (i : ℕ) (w : UInt32) :
    numbers (s.setIfInBounds i w) = (numbers s).set i w.toNat := by
  rw [numbers, Vector.toList_setIfInBounds, List.map_set, numbers]

/-- A word that is read. -/
theorem toNat_getD (s : State) (i : ℕ) : (s.getD i 0).toNat = (numbers s).getD i 0 := by
  rcases Nat.lt_or_ge i 16 with hi | hi
  · rw [getD_eq_getElem s hi, numbers, List.getD_eq_getElem _ _ (by simpa using hi),
      List.getElem_map, Vector.getElem_toList]
  · rw [numbers, List.getD_eq_default _ _ (by simpa using hi), Vector.getD, Array.getD,
      dif_neg (by simpa using hi)]
    rfl

/-- A quarter round is one of numbers. -/
theorem numbers_quarterRound (s : State) (x y z w : ℕ) :
    numbers (quarterRound s x y z w) = Standard.quarterRound (numbers s) x y z w := by
  have hadd (a b : UInt32) : (a + b).toNat = Standard.add a.toNat b.toNat := UInt32.toNat_add a b
  have h16 (a : UInt32) : (rotl32 a 16).toNat = Standard.rotate a.toNat 16 :=
    toNat_rotl32 a (by decide) (by decide : 16 < 32)
  have h12 (a : UInt32) : (rotl32 a 12).toNat = Standard.rotate a.toNat 12 :=
    toNat_rotl32 a (by decide) (by decide : 12 < 32)
  have h8 (a : UInt32) : (rotl32 a 8).toNat = Standard.rotate a.toNat 8 :=
    toNat_rotl32 a (by decide) (by decide : 8 < 32)
  have h7 (a : UInt32) : (rotl32 a 7).toNat = Standard.rotate a.toNat 7 :=
    toNat_rotl32 a (by decide) (by decide : 7 < 32)
  unfold quarterRound Standard.quarterRound Standard.quarter
  simp only [numbers_setIfInBounds, toNat_getD, hadd, UInt32.toNat_xor, h16, h12, h8, h7]

/-- A double round is the inner block. -/
theorem numbers_doubleRound (s : State) :
    numbers (doubleRound s) = Standard.innerBlock (numbers s) := by
  unfold Standard.innerBlock
  dsimp only
  rw [← numbers_quarterRound, ← numbers_quarterRound, ← numbers_quarterRound,
    ← numbers_quarterRound, ← numbers_quarterRound, ← numbers_quarterRound,
    ← numbers_quarterRound, ← numbers_quarterRound]
  rfl

/-- The rounds are those of the standard. -/
theorem numbers_permute (s : State) : numbers (permute s) = Standard.rounds (numbers s) := by
  have hiterate : ∀ n,
      numbers (Nat.repeat doubleRound n s) = Standard.innerBlock^[n] (numbers s) := by
    intro n
    induction n with
    | zero => rfl
    | succ n ih => rw [Nat.repeat, numbers_doubleRound, ih, Function.iterate_succ_apply']
  exact hiterate 10

/-! ## The layout -/

/-- A word of a vector is that of the standard. -/
theorem toNat_getElem_words (n : ℕ) (bs : Vector UInt8 (4 * n)) {i : ℕ} (hi : i < n) :
    (words n bs)[i].toNat = decode ((bs.toList.drop (4 * i)).take 4) := by
  rw [getElem_words, toNat_wordAt]

/-- The words of a vector are those of the standard. -/
theorem map_toNat_words (n : ℕ) (bs : Vector UInt8 (4 * n)) :
    (words n bs).toList.map UInt32.toNat = Standard.words bs.toList := by
  have hlength : bs.toList.length / 4 = n := by
    rw [Vector.length_toList, Nat.mul_div_cancel_left _ (by decide)]
  unfold Standard.words
  rw [hlength]
  refine List.ext_getElem (by simp) fun i hi _ => ?_
  rw [List.getElem_map, List.getElem_map, List.getElem_range, Vector.getElem_toList,
    toNat_getElem_words, decode_eq_value]

/-- The state of a key is that of the standard. -/
theorem numbers_keyed (key : Key) (tail : Vector UInt32 4) :
    numbers (State.keyed key tail) =
      Standard.initial key.toList (tail.toList.map UInt32.toNat) := by
  rw [numbers, State.keyed, Vector.toList_append, Vector.toList_append, List.map_append,
    List.map_append, map_toNat_words]
  rfl

/-- The bytes of words. -/
theorem toList_ofWords_eq_serialize {n : ℕ} (ws : Vector UInt32 n) :
    (ofWords ws).toList = Standard.serialize (ws.toList.map UInt32.toNat) := by
  rw [toList_ofWords, Standard.serialize, List.flatMap_map]
  exact List.flatMap_congr fun w _ => encode_eq_bytes 4 w.toNat

/-- Sums word by word. -/
theorem numbers_zipWith_add (s t : State) :
    numbers (Vector.zipWith (· + ·) s t) = List.zipWith Standard.add (numbers s) (numbers t) := by
  rw [numbers, Vector.toList_zipWith, List.map_zipWith, numbers, numbers, List.zipWith_map]
  simp only [UInt32.toNat_add]
  rfl

/-- The keystream of a state is that of the standard. -/
theorem toList_keystream (s : State) : s.keystream.toList = Standard.keystream (numbers s) := by
  rw [State.keystream, toList_ofWords_eq_serialize, Standard.keystream, ← numbers_permute,
    ← numbers_zipWith_add]
  rfl

/-- A keystream block is that of the standard. -/
theorem toList_block (key : Key) (counter : UInt32) (nonce : Nonce) :
    (block key counter nonce).toList =
      Standard.block key.toList counter.toNat nonce.toList := by
  have hinitial : numbers (State.keyed key (#v[counter] ++ words 3 nonce)) =
      Standard.initial key.toList (counter.toNat :: Standard.words nonce.toList) := by
    rw [numbers_keyed, Vector.toList_append, List.map_append, map_toNat_words]
    rfl
  rw [block, toList_keystream, hinitial, Standard.block]

/-- A subkey is that of the standard. -/
theorem toList_subkey (key : Key) (nonce : Vector UInt8 16) :
    (subkey key nonce).toList = Standard.subkey key.toList nonce.toList := by
  unfold subkey Standard.subkey
  dsimp only
  rw [toList_ofWords_eq_serialize, ← map_toNat_words 4, ← numbers_keyed, ← numbers_permute]
  rw [Vector.toList_append, toList_leading, toList_trailing, List.map_append, List.map_take,
    List.map_drop]
  rfl

end SymmetricCrypto.ChaCha
