import Mathlib
import SymmetricCrypto.Aes.Cipher
import SymmetricCrypto.Proofs.Aes.Residues

/-!
# Decryption undoes encryption

Under any schedule, with any number of rounds and any round keys, decryption is the inverse of the
encryption of a block, so a schedule is a permutation of the blocks (`Schedule.permutation`,
`Schedule.blocks_inverted`).

Each step of a round has its inverse. The substitution is undone byte by byte, since the field
inverse undoes itself. The rows are rotated back. Mixing the columns is the product with a circulant
matrix, and the product of two such matrices is circulant again (`mixWith_mixWith`); those of the two
directions have the product one.

A round of decryption does its steps in another order than the inverse of a round would: it takes off
the key of a round after the substitution of the next one. So what the rounds keep is the relation
between a state after its substitution and shift (`scramble`) and before (`unscramble`).
-/

namespace SymmetricCrypto.Aes

/-! ## The substitution -/

namespace Substitution

/-- The substitution inverts in the field and then applies the affine map. -/
theorem forward_eq (a : UInt8) : forward a = affine (Field.inverse a) := by
  simp [forward, box]

/-- Its inverse undoes the affine map first. -/
theorem backward_eq (a : UInt8) : backward a = Field.inverse (affineInverse a) := by
  simp [backward, inverseBox]

/-- The affine map and its inverse, tried on all bytes. -/
theorem affineInverse_affine (a : UInt8) : affineInverse (affine a) = a := by
  have hall : ∀ i : Fin 256, affineInverse (affine (UInt8.ofNat i)) = UInt8.ofNat i := by
    decide +kernel
  simpa using hall ⟨a.toNat, a.toNat_lt⟩

/-- The affine map undoes its inverse. -/
theorem affine_affineInverse (a : UInt8) : affine (affineInverse a) = a := by
  have hall : ∀ i : Fin 256, affine (affineInverse (UInt8.ofNat i)) = UInt8.ofNat i := by
    decide +kernel
  simpa using hall ⟨a.toNat, a.toNat_lt⟩

/-- The substitution is undone, since both the field inverse and the affine map are. -/
theorem backward_forward (a : UInt8) : backward (forward a) = a := by
  rw [forward_eq, backward_eq, affineInverse_affine, Field.inverse_inverse]

/-- The inverse substitution is undone in the same way. -/
theorem forward_backward (a : UInt8) : forward (backward a) = a := by
  rw [backward_eq, forward_eq, Field.inverse_inverse, affine_affineInverse]

end Substitution

/-! ## The steps on blocks -/

namespace Block

/-- What is added twice cancels. -/
theorem xor_xor_cancel (s t : Block) : (s.xor t).xor t = s := by
  apply Vector.ext
  intro i hi
  simp [xor]

/-- The substitution of a block is undone byte by byte. -/
theorem substituteBack_substitute (s : Block) : s.substitute.substituteBack = s := by
  apply Vector.ext
  intro i hi
  simp [substituteBack, substitute, Substitution.backward_forward]

/-- The inverse substitution of a block is undone byte by byte. -/
theorem substitute_substituteBack (s : Block) : s.substituteBack.substitute = s := by
  apply Vector.ext
  intro i hi
  simp [substituteBack, substitute, Substitution.forward_backward]

/-- Rows that were moved are moved back. -/
theorem shiftRowsBack_shiftRows (s : Block) : s.shiftRows.shiftRowsBack = s := by
  apply Vector.ext
  intro i hi
  have hplace : ((i + 12 * (i % 4)) % 16 + 4 * ((i + 12 * (i % 4)) % 16 % 4)) % 16 = i := by omega
  simp only [shiftRowsBack, shiftRows, Vector.getElem_ofFn, hplace]

/-- Rows that were moved back are moved again. -/
theorem shiftRows_shiftRowsBack (s : Block) : s.shiftRowsBack.shiftRows = s := by
  apply Vector.ext
  intro i hi
  have hplace : ((i + 4 * (i % 4)) % 16 + 12 * ((i + 4 * (i % 4)) % 16 % 4)) % 16 = i := by omega
  simp only [shiftRowsBack, shiftRows, Vector.getElem_ofFn, hplace]

/-- A mixed byte is the sum of four bytes of its column, each times its factor. -/
theorem residue_mixWith (a b c d : UInt8) (s : Block) (i : ℕ) (hi : i < 16) :
    Field.residue (mixWith a b c d s)[i] =
      Field.residue a * Field.residue s[i / 4 * 4 + (i + 0) % 4] +
        Field.residue b * Field.residue s[i / 4 * 4 + (i + 1) % 4] +
        Field.residue c * Field.residue s[i / 4 * 4 + (i + 2) % 4] +
        Field.residue d * Field.residue s[i / 4 * 4 + (i + 3) % 4] := by
  simp only [mixWith, Vector.getElem_ofFn, Field.residue_xor, Field.residue_mul]

/-- Mixing with two circulant matrices is mixing with their product. -/
theorem mixWith_mixWith (a b c d a' b' c' d' : UInt8) (s : Block) :
    mixWith a b c d (mixWith a' b' c' d' s) =
      mixWith
        (Field.mul a a' ^^^ Field.mul b d' ^^^ Field.mul c c' ^^^ Field.mul d b')
        (Field.mul a b' ^^^ Field.mul b a' ^^^ Field.mul c d' ^^^ Field.mul d c')
        (Field.mul a c' ^^^ Field.mul b b' ^^^ Field.mul c a' ^^^ Field.mul d d')
        (Field.mul a d' ^^^ Field.mul b c' ^^^ Field.mul c b' ^^^ Field.mul d a') s := by
  apply Vector.ext
  intro i hi
  -- Two steps down a column are one step, around the column.
  have hcolumn : ∀ k, (i / 4 * 4 + (i + k) % 4) / 4 * 4 = i / 4 * 4 := by omega
  have hrow : ∀ k l, (i / 4 * 4 + (i + k) % 4 + l) % 4 = (i + (k + l) % 4) % 4 := by omega
  apply Field.residue_injective
  simp only [residue_mixWith, Field.residue_xor, Field.residue_mul, hcolumn, hrow, Nat.reduceAdd,
    Nat.reduceMod]
  ring

/-- To mix with one and zeros leaves a block as it is. -/
theorem mixWith_one (s : Block) : mixWith 1 0 0 0 s = s := by
  apply Vector.ext
  intro i hi
  have hplace : i / 4 * 4 + i % 4 = i := by omega
  apply Field.residue_injective
  simp only [residue_mixWith, hplace, Field.residue_one, Field.residue_zero, one_mul, zero_mul,
    add_zero]

/-- Mixed columns are unmixed, since the two matrices are inverse. -/
theorem mixColumnsBack_mixColumns (s : Block) : s.mixColumns.mixColumnsBack = s := by
  rw [mixColumnsBack, mixColumns, mixWith_mixWith]
  exact mixWith_one s

/-- Unmixed columns are mixed again. -/
theorem mixColumns_mixColumnsBack (s : Block) : s.mixColumnsBack.mixColumns = s := by
  rw [mixColumnsBack, mixColumns, mixWith_mixWith]
  exact mixWith_one s

/-- The state that the rows of a substituted block are shifted to. -/
def scramble (s : Block) : Block := s.substitute.shiftRows

/-- The state before its substitution and the shift of its rows. -/
def unscramble (s : Block) : Block := s.shiftRowsBack.substituteBack

/-- Scrambling is undone step by step, in the other order. -/
theorem unscramble_scramble (s : Block) : s.scramble.unscramble = s := by
  rw [scramble, unscramble, shiftRowsBack_shiftRows, substituteBack_substitute]

/-- Unscrambling is undone in the same way. -/
theorem scramble_unscramble (s : Block) : s.unscramble.scramble = s := by
  rw [scramble, unscramble, substitute_substituteBack, shiftRows_shiftRowsBack]

end Block

/-! ## The rounds -/

namespace Schedule

open Block

variable (k : Schedule)

/-- A round scrambles, mixes the columns and adds a round key. -/
theorem round_eq (s : Block) (r : ℕ) : k.round s r = s.scramble.mixColumns.xor (k.roundKey r) := rfl

/-- A round back unscrambles, adds the round key and unmixes the columns. -/
theorem roundBack_eq (s : Block) (r : ℕ) :
    k.roundBack s r = (s.unscramble.xor (k.roundKey r)).mixColumnsBack := rfl

/-- After rounds, and the same rounds back, a scrambled state is the one before. -/
theorem foldl_roundBack (rounds : List ℕ) (s : Block) :
    rounds.reverse.foldl k.roundBack (rounds.foldl k.round s).scramble = s.scramble := by
  induction rounds generalizing s with
  | nil => rfl
  | cons r rounds ih =>
    rw [List.reverse_cons, List.foldl_append, List.foldl_cons, List.foldl_cons, ih, List.foldl_nil,
      roundBack_eq, unscramble_scramble, round_eq, xor_xor_cancel, mixColumnsBack_mixColumns]

/-- After rounds back, and the same rounds, an unscrambled state is the one before. -/
theorem foldl_round (rounds : List ℕ) (s : Block) :
    rounds.foldl k.round (rounds.reverse.foldl k.roundBack s).unscramble = s.unscramble := by
  induction rounds using List.reverseRecOn generalizing s with
  | nil => rfl
  | append_singleton rounds r ih =>
    rw [List.reverse_append, List.reverse_singleton, List.singleton_append, List.foldl_cons,
      List.foldl_append, ih, List.foldl_cons, List.foldl_nil, round_eq, scramble_unscramble,
      roundBack_eq, mixColumns_mixColumnsBack, xor_xor_cancel]

/-- Encryption in terms of rounds and scrambling. -/
theorem encrypt_eq (x : Block) :
    k.encrypt x = (k.innerRounds.foldl k.round (x.xor (k.roundKey 0))).scramble.xor
      (k.roundKey k.rounds) := rfl

/-- Decryption in terms of rounds back and unscrambling. -/
theorem decrypt_eq (y : Block) :
    k.decrypt y = (k.innerRounds.reverse.foldl k.roundBack (y.xor (k.roundKey k.rounds))).unscramble.xor
      (k.roundKey 0) := rfl

/-- Decryption undoes encryption. -/
theorem decrypt_encrypt (x : Block) : k.decrypt (k.encrypt x) = x := by
  rw [decrypt_eq, encrypt_eq, xor_xor_cancel, foldl_roundBack, unscramble_scramble, xor_xor_cancel]

/-- Encryption undoes decryption. -/
theorem encrypt_decrypt (y : Block) : k.encrypt (k.decrypt y) = y := by
  rw [encrypt_eq, decrypt_eq, xor_xor_cancel, foldl_round, scramble_unscramble, xor_xor_cancel]

/-- The permutation of the blocks that a schedule is. -/
def permutation : Equiv.Perm Block where
  toFun := k.encrypt
  invFun := k.decrypt
  left_inv := k.decrypt_encrypt
  right_inv := k.encrypt_decrypt

/-- A block is transformed in a cipher state of its own, which was not used before. -/
theorem encryptBlock_eq (x : Block) : k.encryptBlock x = .ok (k.encrypt x) := rfl

/-- No block is refused. -/
theorem decryptBlock_eq (y : Block) : k.decryptBlock y = .ok (k.decrypt y) := rfl

/-- Under any number of rounds from 0 to 14 and any round keys, every block is encrypted and every block
is decrypted, each undoes the other, and so the two are a permutation of the blocks and its inverse. -/
theorem blocks_inverted :
    (∀ x, (k.encryptBlock x >>= k.decryptBlock) = .ok x) ∧
    (∀ y, (k.decryptBlock y >>= k.encryptBlock) = .ok y) ∧
    ∃ E : Equiv.Perm Block,
      (∀ x, k.encryptBlock x = .ok (E x)) ∧ ∀ y, k.decryptBlock y = .ok (E.symm y) := by
  refine ⟨fun x => ?_, fun y => ?_, k.permutation, k.encryptBlock_eq, k.decryptBlock_eq⟩
  · rw [encryptBlock_eq]
    exact congrArg Except.ok (k.decrypt_encrypt x)
  · rw [decryptBlock_eq]
    exact congrArg Except.ok (k.encrypt_decrypt y)

end Schedule

/-- The permutation of the blocks that a key stands for. -/
def Key.permutation (key : Key) : Equiv.Perm Block := (Schedule.ofKey key).permutation

end SymmetricCrypto.Aes
