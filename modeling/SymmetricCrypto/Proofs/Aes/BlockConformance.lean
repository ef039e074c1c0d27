import Mathlib
import SymmetricCrypto.Proofs.Aes.Inverse
import SymmetricCrypto.Proofs.Aes.Rijndael

/-!
# The block cipher is the one of its definition

Under every key, the encryption of a block is that of `Rijndael.cipher`
(`Schedule.encryptBlock_eq_cipher`).

The proof goes step by step, each on the state of a block (`stateOf`) or the word of a column
(`Schedule.wordOf`). The rotations of the affine map are its sums of bits (`coefficient_rotl8`), so the
substitution is that of the definition (`Substitution.forward_eq_subByte`). The product of a column with
a polynomial modulo `Y^4 + 1` is a sum of four products in each row (`mul_modByMonic_column`), and these
are the ones that `mixWith` takes. The expanded key grows by one word at a time, and each has the value
that the recursion gives (`wordOf_expand`). With the round keys, the rounds follow by induction on their
number (`stateOf_foldl_round`).
-/

namespace SymmetricCrypto.Aes

open SymmetricCrypto.Aes.Field Polynomial
open Rijndael (stateOf blockOf)

/-! ## The substitution -/

namespace Field

/-- A residue is the sum of the powers of `X` at the bits of its byte. -/
theorem residue_eq_sum (a : UInt8) :
    residue a = ∑ i ∈ Finset.range 8, AdjoinRoot.of modulus (coefficient a i) * root^i := by
  simp only [residue, lowResidue, lowPolynomial, map_sum, map_mul, map_pow, AdjoinRoot.mk_C,
    AdjoinRoot.mk_X]
  rfl

/-- Rotated to the left by `k`, a byte has for bit `i` the bit that was `8 - k` places further on. -/
theorem coefficient_rotl8 (a : UInt8) {k i : ℕ} (hk0 : 0 < k) (hk : k < 8) (hi : i < 8) :
    coefficient (Word.rotl8 a (UInt8.ofNat k)) i = coefficient a ((i + (8 - k)) % 8) := by
  have hleft : (UInt8.ofNat k).toNat % 8 = k := by simp; omega
  have hright : (8 - UInt8.ofNat k).toNat % 8 = 8 - k := by
    rw [UInt8.toNat_sub_of_le _ _ (by rw [UInt8.le_iff_toNat_le]; simp; omega)]
    simp
    omega
  -- The amounts of both shifts are taken modulo 8, and there are no bits past the eighth.
  have hhigh : ∀ j, 8 ≤ j → a.toNat.testBit j = false := fun j hj =>
    Nat.testBit_eq_false_of_lt (a.toNat_lt.trans_le (Nat.pow_le_pow_right (by decide) hj))
  have hbit : (Word.rotl8 a (UInt8.ofNat k)).toNat.testBit i = a.toNat.testBit ((i + (8 - k)) % 8) := by
    rw [Word.rotl8, UInt8.toNat_or, UInt8.toNat_shiftLeft, UInt8.toNat_shiftRight, Nat.testBit_or,
      Nat.testBit_mod_two_pow, Nat.testBit_shiftLeft, Nat.testBit_shiftRight, hleft, hright]
    rcases lt_or_ge i k with hik | hik
    · -- The bit comes around from the other end.
      have hplace : (i + (8 - k)) % 8 = 8 - k + i := by omega
      simp [hi, Nat.not_le.mpr hik, hplace]
    · -- The bit was moved up by `k` places.
      have hplace : (i + (8 - k)) % 8 = i - k := by omega
      rw [hhigh (8 - k + i) (by omega), hplace]
      simp [hi, hik]
  rw [coefficient, hbit, coefficient]

end Field

namespace Substitution

/-- The affine map of the substitution, bit by bit. -/
theorem residue_affine (b : UInt8) : residue (affine b) = Rijndael.affine b := by
  rw [residue_eq_sum, Rijndael.affine]
  apply Finset.sum_congr rfl
  intro i hi
  have hi8 := Finset.mem_range.mp hi
  have h1 : coefficient (Word.rotl8 b 1) i = coefficient b ((i + 7) % 8) :=
    coefficient_rotl8 b (k := 1) (by decide) (by decide) hi8
  have h2 : coefficient (Word.rotl8 b 2) i = coefficient b ((i + 6) % 8) :=
    coefficient_rotl8 b (k := 2) (by decide) (by decide) hi8
  have h3 : coefficient (Word.rotl8 b 3) i = coefficient b ((i + 5) % 8) :=
    coefficient_rotl8 b (k := 3) (by decide) (by decide) hi8
  have h4 : coefficient (Word.rotl8 b 4) i = coefficient b ((i + 4) % 8) :=
    coefficient_rotl8 b (k := 4) (by decide) (by decide) hi8
  have hbits : coefficient (affine b) i = Rijndael.affineBit b i := by
    simp only [affine, Rijndael.affineBit, coefficient_xor, h1, h2, h3, h4]
    ring
  rw [hbits]

/-- The byte substitution is `SubBytes` on one byte: the inverse in the field and then the affine
map. -/
theorem forward_eq_subByte (b : UInt8) : forward b = Rijndael.subByte b := by
  -- Both sides are the byte of one residue.
  apply residue_injective
  rw [forward_eq, Rijndael.subByte, residue_ofResidue, residue_affine, ← residue_inverse_eq_inv,
    ofResidue_residue]

end Substitution

/-! ## The product with a polynomial -/

/-- The product of a column with a polynomial modulo `Y^4 + 1`, coefficient by coefficient. -/
theorem mul_modByMonic_column (d₀ d₁ d₂ d₃ : Residue) (a : Fin 4 → Residue) :
    (C d₃ * X^3 + C d₂ * X^2 + C d₁ * X + C d₀) * (∑ r : Fin 4, C (a r) * X^r.val) %ₘ (X^4 + 1) =
      ∑ r : Fin 4, C (d₀ * a r + d₃ * a (r + 1) + d₂ * a (r + 2) + d₁ * a (r + 3)) * X^r.val := by
  have hdegree : (X^4 + 1 : Residue[X]).degree = 4 := degree_X_pow_add_C (by decide) 1
  have hmonic : (X^4 + 1 : Residue[X]).Monic := monic_X_pow_add_C 1 (by decide)
  have htwo : (2 : Residue[X]) = 0 := CharTwo.two_eq_zero
  have hthree : (3 : Fin 4).val = 3 := rfl
  -- The terms from `Y^4` on come back four places lower, and this is what the division gives.
  have hdivision :
      ∑ r : Fin 4, C (d₀ * a r + d₃ * a (r + 1) + d₂ * a (r + 2) + d₁ * a (r + 3)) * X^r.val +
          (X^4 + 1) * (C (d₃ * a 1 + d₂ * a 2 + d₁ * a 3) + C (d₃ * a 2 + d₂ * a 3) * X +
            C (d₃ * a 3) * X^2) =
        (C d₃ * X^3 + C d₂ * X^2 + C d₁ * X + C d₀) * (∑ r : Fin 4, C (a r) * X^r.val) := by
    simp only [Fin.sum_univ_four, Fin.val_zero, Fin.val_one, Fin.val_two, hthree, zero_add,
      Fin.reduceAdd, C_add, C_mul]
    -- They stand on the left twice, once in the remainder and once in the product with `Y^4 + 1`.
    linear_combination (C d₃ * C (a 1) + C d₂ * C (a 2) + C d₁ * C (a 3) +
      (C d₃ * C (a 2) + C d₂ * C (a 3)) * X + C d₃ * C (a 3) * X^2) * htwo
  have hlow : (∑ r : Fin 4, C (d₀ * a r + d₃ * a (r + 1) + d₂ * a (r + 2) + d₁ * a (r + 3)) *
      X^r.val).degree < (X^4 + 1 : Residue[X]).degree := by
    rw [hdegree]
    exact degree_sum_fin_lt _
  exact (div_modByMonic_unique _ _ hmonic ⟨hdivision, hlow⟩).2

/-- A coefficient of a column. -/
theorem coeff_column (a : Fin 4 → Residue) (r : Fin 4) :
    (∑ i : Fin 4, C (a i) * X^i.val).coeff r.val = a r := by
  simp [coeff_X_pow, Fin.val_inj]

/-! ## The steps of a round -/

namespace Block

/-- Row `r` of column `c` is byte `r + 4 c`. -/
theorem stateOf_apply (x : Block) (r c : Fin 4) : stateOf x r c = x[r.val + 4 * c.val] := by
  rw [stateOf, getD_eq_getElem]

/-- A block is put together again from its state. -/
theorem blockOf_stateOf (x : Block) : blockOf (stateOf x) = x := by
  apply Vector.ext
  intro i hi
  have hplace : (Fin.ofNat 4 i).val + 4 * (Fin.ofNat 4 (i / 4)).val = i := by
    simp only [Fin.ofNat_eq_cast, Fin.val_natCast]
    omega
  simp only [blockOf, Vector.getElem_ofFn, stateOf_apply, hplace]

/-- The sum of two blocks is the sum of their states. -/
theorem stateOf_xor (x y : Block) (r c : Fin 4) :
    stateOf (x.xor y) r c = stateOf x r c ^^^ stateOf y r c := by
  simp only [stateOf_apply, xor, Vector.getElem_zipWith]

/-- Substituting the bytes of a block is `SubBytes`. -/
theorem stateOf_substitute (x : Block) : stateOf x.substitute = Rijndael.subBytes (stateOf x) := by
  funext r c
  simp only [stateOf_apply, substitute, Rijndael.subBytes, Vector.getElem_map,
    Substitution.forward_eq_subByte]

/-- Moving the bytes of a block is `ShiftRows`. -/
theorem stateOf_shiftRows (x : Block) : stateOf x.shiftRows = Rijndael.shiftRows (stateOf x) := by
  funext r c
  have hplace : (r.val + 4 * c.val + 4 * ((r.val + 4 * c.val) % 4)) % 16 =
      r.val + 4 * (c + r).val := by
    rw [Fin.val_add]
    omega
  simp only [stateOf_apply, shiftRows, Rijndael.shiftRows, Vector.getElem_ofFn, hplace]

/-- Mixing the bytes of a block is `MixColumns`. -/
theorem stateOf_mixColumns (x : Block) : stateOf x.mixColumns = Rijndael.mixColumns (stateOf x) := by
  funext r c
  -- In block order, the byte `k` rows below, around the column, is that of row `r + k`.
  have hcolumn : ∀ k : Fin 4, (r.val + 4 * c.val) / 4 * 4 + (r.val + 4 * c.val + k.val) % 4 =
      (r + k).val + 4 * c.val := by
    intro k
    rw [Fin.val_add]
    omega
  have h0 : (r.val + 4 * c.val) / 4 * 4 + (r.val + 4 * c.val + 0) % 4 = r.val + 4 * c.val := by omega
  have h1 : (r.val + 4 * c.val) / 4 * 4 + (r.val + 4 * c.val + 1) % 4 = (r + 1).val + 4 * c.val :=
    hcolumn 1
  have h2 : (r.val + 4 * c.val) / 4 * 4 + (r.val + 4 * c.val + 2) % 4 = (r + 2).val + 4 * c.val :=
    hcolumn 2
  have h3 : (r.val + 4 * c.val) / 4 * 4 + (r.val + 4 * c.val + 3) % 4 = (r + 3).val + 4 * c.val :=
    hcolumn 3
  apply residue_injective
  rw [Rijndael.mixColumns, residue_ofResidue, Rijndael.mixPolynomial, Rijndael.columnPolynomial,
    mul_modByMonic_column, coeff_column]
  simp only [stateOf_apply, mixColumns, residue_mixWith, h0, h1, h2, h3]

end Block

/-! ## The expanded key -/

namespace Field

/-- Doubled `n` times, the byte one stands for a power of `X`. -/
theorem residue_repeat_double (n : ℕ) : residue (Nat.repeat double n 1) = root^n := by
  induction n with
  | zero => exact residue_one
  | succ n ih => rw [Nat.repeat, residue_double, ih, pow_succ, mul_comm]

end Field

namespace Schedule

/-- The word of a column. -/
def wordOf (w : Column) : Rijndael.Word := fun r => w[r]

/-- The sum of two columns is the sum of their words. -/
theorem wordOf_xorColumn (a b : Column) (r : Fin 4) :
    wordOf (xorColumn a b) r = wordOf a r ^^^ wordOf b r := by
  simp [wordOf, xorColumn]

/-- Substituting the bytes of a column is `SubWord`. -/
theorem wordOf_substitute (w : Column) : wordOf (substitute w) = Rijndael.subWord (wordOf w) := by
  funext r
  simp [wordOf, substitute, Rijndael.subWord, Substitution.forward_eq_subByte]

/-- Rotating a column is `RotWord`. -/
theorem wordOf_rotate (w : Column) : wordOf (rotate w) = Rijndael.rotWord (wordOf w) := by
  funext r
  fin_cases r <;> rfl

/-- A constant that was doubled step by step is a power of `x` in the field. -/
theorem wordOf_roundConstant (j : ℕ) : wordOf (roundConstant (j - 1)) = Rijndael.rcon j := by
  have hpower : Nat.repeat double (j - 1) 1 = ofResidue (root^(j - 1)) := by
    rw [← residue_repeat_double, ofResidue_residue]
  funext r
  fin_cases r
  · exact hpower
  · rfl
  · rfl
  · rfl

/-- The first words of a schedule are those of the key. -/
theorem wordOf_keyWord (key : Key) {i : ℕ} (hi : i < key.size.words) :
    wordOf (keyWord key i) = Rijndael.word key i := by
  rw [Rijndael.word_of_lt key hi]
  funext r
  simp [wordOf, keyWord, Vector.getD]

/-- Only the longest keys have more than six words, and they have eight. -/
theorem wordOf_derive (size : KeySize) (i : ℕ) (before : Column) :
    wordOf (derive size.words i before) = Rijndael.derived size.words i (wordOf before) := by
  have hlongest : (6 < size.words ∧ i % size.words = 4) ↔ (size.words = 8 ∧ i % 8 = 4) := by
    cases size <;> simp [KeySize.words]
  simp only [derive, Rijndael.derived, hlongest]
  split_ifs
  · funext r
    rw [wordOf_xorColumn, wordOf_substitute, wordOf_rotate, wordOf_roundConstant]
  · exact wordOf_substitute before
  · rfl

/-- The expansion has as many words as are asked for. -/
theorem size_expand (key : Key) (n : ℕ) : (expand key n).size = n := by
  induction n with
  | zero => rfl
  | succ n ih => rw [expand, Array.size_push, ih]

/-- A word of the expanded key stays as another one is added. -/
theorem getD_expand_of_lt (key : Key) {n i : ℕ} (hi : i < n) (default : Column) :
    (expand key (n + 1)).getD i default = (expand key n).getD i default := by
  simp [expand, Array.getD, size_expand, hi, Nat.lt_succ_of_lt hi, Array.getElem_push_lt]

/-- The word that is added. -/
theorem getD_expand_last (key : Key) (i : ℕ) (default : Column) :
    (expand key (i + 1)).getD i default =
      if i < key.size.words then keyWord key i
      else
        xorColumn ((expand key i).getD (i - key.size.words) (Vector.replicate 4 0))
          (derive key.size.words i ((expand key i).getD (i - 1) (Vector.replicate 4 0))) := by
  have hsize : i < (expand key (i + 1)).size := by
    rw [size_expand]
    exact Nat.lt_succ_self i
  rw [Array.getD, dif_pos hsize]
  simp [expand, size_expand, Array.getElem_push]

/-- The words of the expanded key are those of the recursion, however many there are. -/
theorem wordOf_expand (key : Key) (n : ℕ) : ∀ i < n,
    wordOf ((expand key n).getD i (Vector.replicate 4 0)) = Rijndael.word key i := by
  induction n with
  | zero => simp
  | succ n ih =>
    intro i hi
    rcases Nat.lt_succ_iff_lt_or_eq.mp hi with hlt | rfl
    · rw [getD_expand_of_lt key hlt]
      exact ih i hlt
    · rw [getD_expand_last]
      split_ifs with hkey
      · exact wordOf_keyWord key hkey
      · -- The two words that the last one is made of came before it.
        have hpos := Rijndael.words_pos key
        have hback := ih (i - key.size.words) (by omega)
        have hbefore := ih (i - 1) (by omega)
        rw [Rijndael.word_of_ge key (Nat.not_lt.mp hkey)]
        funext r
        rw [wordOf_xorColumn, wordOf_derive, hback, hbefore]

/-- Up to the last round, a round key is an entry of the schedule. -/
theorem roundKey_eq_getElem (k : Schedule) {round : ℕ} (hround : round < 15) :
    k.roundKey round = k.roundKeys[round] := by
  simp [roundKey, hround]

/-- A round key has four words of the expanded key for its columns. -/
theorem stateOf_roundKey (key : Key) {round : ℕ} (hround : round ≤ key.size.rounds) (r c : Fin 4) :
    stateOf ((ofKey key).roundKey round) r c = Rijndael.word key (4 * round + c.val) r := by
  have hplace : round < 15 := hround.trans_lt (ofKey key).rounds.isLt
  -- Byte `r + 4 c` of a round key is byte `r` of its word `c`.
  have hcolumn : (r.val + 4 * c.val) / 4 = c.val := by omega
  have hrow : (r.val + 4 * c.val) % 4 = r.val := by omega
  rw [Block.stateOf_apply, roundKey_eq_getElem _ hplace,
    ← wordOf_expand key (4 * (key.size.rounds + 1)) (4 * round + c.val) (by omega)]
  simp only [ofKey, Vector.getElem_ofFn, hcolumn, hrow, Fin.eta]
  rfl

/-! ## The rounds -/

variable (key : Key) (x : Block)

/-- Adding a round key to a block is `AddRoundKey`. -/
theorem stateOf_xor_roundKey {round : ℕ} (hround : round ≤ key.size.rounds) :
    stateOf (x.xor ((ofKey key).roundKey round)) = Rijndael.addRoundKey key round (stateOf x) := by
  funext r c
  rw [Block.stateOf_xor, stateOf_roundKey key hround, Rijndael.addRoundKey]

/-- The last round without its key is `SubBytes` and then `ShiftRows`. -/
theorem stateOf_scramble :
    stateOf x.scramble = Rijndael.shiftRows (Rijndael.subBytes (stateOf x)) := by
  rw [Block.scramble, Block.stateOf_shiftRows, Block.stateOf_substitute]

/-- The state after rounds that mix the columns. -/
theorem stateOf_foldl_round (n : ℕ) (hn : n ≤ key.size.rounds) :
    stateOf ((List.range' 1 n).foldl (ofKey key).round (x.xor ((ofKey key).roundKey 0))) =
      Rijndael.afterRound key x n := by
  induction n with
  | zero => exact stateOf_xor_roundKey key x (Nat.zero_le _)
  | succ n ih =>
    rw [List.range'_1_concat, List.foldl_append, List.foldl_cons, List.foldl_nil, Nat.add_comm 1 n,
      round_eq, stateOf_xor_roundKey key _ hn, Block.stateOf_mixColumns, stateOf_scramble,
      ih (Nat.le_of_succ_le hn), Rijndael.afterRound]

/-- Under every key of 16, 24 or 32 bytes, the encryption of a block succeeds and gives the block of the
definition. -/
theorem encryptBlock_eq_cipher :
    (ofKey key).encryptBlock x = .ok (Rijndael.cipher key x) := by
  have hrounds : ((ofKey key).rounds : ℕ) = key.size.rounds := rfl
  have hstate : stateOf ((ofKey key).encrypt x) =
      Rijndael.addRoundKey key key.size.rounds
        (Rijndael.shiftRows (Rijndael.subBytes (Rijndael.afterRound key x (key.size.rounds - 1)))) := by
    rw [encrypt_eq, innerRounds, hrounds, stateOf_xor_roundKey key _ le_rfl, stateOf_scramble,
      stateOf_foldl_round key x _ (Nat.sub_le _ _)]
  rw [encryptBlock_eq, ← Block.blockOf_stateOf ((ofKey key).encrypt x), hstate]
  rfl

end Schedule

end SymmetricCrypto.Aes
