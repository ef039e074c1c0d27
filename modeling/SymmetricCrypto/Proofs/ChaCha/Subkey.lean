import Mathlib
import SymmetricCrypto.ChaCha.Block
import SymmetricCrypto.Proofs.Bytes.Words

/-!
# A subkey is a block without the addition

A keystream block is the permuted state with the state added, and a subkey is the outer rows of a
permuted state. The state of a block has the counter and the nonce in its last row, and a nonce of
128 bits that starts with the counter fills the row in the same way (`words_counter_append`). So the
two go through one permutation, and where the constants, the counter and the nonce are taken away
from the outer rows of the block, the subkey is left (`words_subkey_eq_sub`).

What is taken away is public, so a known keystream block tells the subkey for its counter and nonce.
-/

namespace SymmetricCrypto.ChaCha

open LittleEndian

/-! ## The outer rows -/

/-- The first and the last row of a state. -/
def outerRows (s : State) : Vector UInt32 8 := leading 4 12 s ++ trailing 12 4 s

/-- The outer rows of a state that is laid out: the constants, and the four words after the key. -/
theorem outerRows_keyed (key : Key) (tail : Vector UInt32 4) :
    outerRows (State.keyed key tail) = constants ++ tail := by
  have hfirst : leading 4 12 (State.keyed key tail) = constants := by
    apply Vector.toList_inj.mp
    rw [toList_leading, State.keyed, Vector.toList_append, Vector.toList_append,
      List.append_assoc]
    exact List.take_left' constants.length_toList
  have hlast : trailing 12 4 (State.keyed key tail) = tail := by
    apply Vector.toList_inj.mp
    rw [toList_trailing, State.keyed, Vector.toList_append]
    exact List.drop_left' (constants ++ words 8 key).length_toList
  rw [outerRows, hfirst, hlast]

/-- Of two states that are combined word by word, the outer rows are combined. -/
theorem outerRows_zipWith (f : UInt32 → UInt32 → UInt32) (s t : State) :
    outerRows (Vector.zipWith f s t) = Vector.zipWith f (outerRows s) (outerRows t) := by
  refine Vector.ext fun i hi => ?_
  unfold outerRows
  rw [Vector.getElem_zipWith, Vector.getElem_append, Vector.getElem_append, Vector.getElem_append]
  split
  case isTrue hfirst => simp only [getElem_leading, Vector.getElem_zipWith]
  case isFalse hlast => simp only [getElem_trailing, Vector.getElem_zipWith]

/-- What was added to words is taken away again. -/
theorem zipWith_sub_zipWith_add {n : ℕ} (s t : Vector UInt32 n) :
    Vector.zipWith (· - ·) (Vector.zipWith (· + ·) s t) t = s := by
  refine Vector.ext fun i hi => ?_
  rw [Vector.getElem_zipWith, Vector.getElem_zipWith, UInt32.add_sub_cancel]

/-! ## The words that come out -/

/-- The words of a keystream block are those of the permuted state with the state added. -/
theorem words_keystream (s : State) :
    words 16 s.keystream = Vector.zipWith (· + ·) (permute s) s :=
  words_ofWords _

/-- The words of a subkey are the outer rows of the permuted state, with nothing added. -/
theorem words_subkey (key : Key) (nonce : Vector UInt8 16) :
    words 8 (subkey key nonce) = outerRows (permute (State.keyed key (words 4 nonce))) :=
  words_ofWords _

/-- A counter and a nonce, one after the other, make up the last row of the state of a block. -/
theorem words_counter_append (counter : UInt32) (nonce : Nonce) :
    words 4 (ofWords #v[counter] ++ nonce) = #v[counter] ++ words 3 nonce := by
  have hparts : (ofWords #v[counter] ++ nonce).toList =
      (ofWords #v[counter]).toList ++ nonce.toList := Vector.toList_append
  have hwords := words_append (m := 1) (n := 3) _ _ hparts
  rwa [words_ofWords] at hwords

/-- The subkey for a counter and a nonce of 96 bits is made of the block at this counter: its words
are those of the outer rows of the block without what the block has added to them, which is the
constants, the counter and the nonce. -/
theorem words_subkey_eq_sub (key : Key) (counter : UInt32) (nonce : Nonce) :
    words 8 (subkey key (ofWords #v[counter] ++ nonce)) =
      Vector.zipWith (· - ·) (outerRows (words 16 (block key counter nonce)))
        (constants ++ (#v[counter] ++ words 3 nonce)) := by
  let tail := #v[counter] ++ words 3 nonce
  let s := State.keyed key tail
  have hblock : words 16 (block key counter nonce) = Vector.zipWith (· + ·) (permute s) s :=
    words_keystream s
  calc words 8 (subkey key (ofWords #v[counter] ++ nonce))
      = outerRows (permute s) := by rw [words_subkey, words_counter_append]
    _ = Vector.zipWith (· - ·)
          (Vector.zipWith (· + ·) (outerRows (permute s)) (outerRows s)) (outerRows s) :=
        (zipWith_sub_zipWith_add _ _).symm
    _ = Vector.zipWith (· - ·) (outerRows (words 16 (block key counter nonce)))
          (constants ++ tail) := by
        rw [hblock, outerRows_zipWith, outerRows_keyed]

end SymmetricCrypto.ChaCha
