import Mathlib
import SymmetricCrypto.Aes.Cipher
import SymmetricCrypto.Proofs.Aes.ByteField

/-!
# The block cipher by its definition

The definition of the cipher (FIPS-197) in terms of algebra: a byte is a residue of polynomials over two
elements modulo `X^8 + X^4 + X^3 + X + 1`, which are a field, and a column is a polynomial over this
field modulo `Y^4 + 1`. The substitution takes the inverse in the field and then an affine map of the
bits, given bit by bit; mixing multiplies a column with a fixed polynomial; the words of the expanded key
follow a recursion over their numbers (`word`); and the state after a round follows one over the rounds
(`afterRound`). Nothing is shared with the program but the types of blocks and keys.
-/

namespace SymmetricCrypto.Aes.Rijndael

open SymmetricCrypto.Aes.Field Polynomial

/-- The state: its byte in row `r` and column `c`. -/
abbrev State := Fin 4 → Fin 4 → UInt8

/-- A word of four bytes, from the first on. -/
abbrev Word := Fin 4 → UInt8

/-- The state of a block, which fills it column by column. -/
def stateOf (x : Block) : State := fun r c => x.getD (r.val + 4 * c.val) 0

/-- The block of a state. -/
def blockOf (s : State) : Block := Vector.ofFn fun i => s (Fin.ofNat 4 i.val) (Fin.ofNat 4 (i.val / 4))

/-! ## The steps of a round -/

/-- Bit `i` of the affine image of a byte: the sum of its bits `i`, `i + 4`, `i + 5`, `i + 6` and
`i + 7`, counted around the byte, and of bit `i` of the constant `{63}`. -/
def affineBit (b : UInt8) (i : ℕ) : ZMod 2 :=
  coefficient b i + coefficient b ((i + 4) % 8) + coefficient b ((i + 5) % 8) +
    coefficient b ((i + 6) % 8) + coefficient b ((i + 7) % 8) + coefficient 0x63 i

/-- The residue that has these bits. -/
noncomputable def affine (b : UInt8) : Residue :=
  ∑ i ∈ Finset.range 8, AdjoinRoot.of modulus (affineBit b i) * root^i

/-- The substitution of a byte: the inverse in the field, which is zero for zero, and then the affine
map. -/
noncomputable def subByte (b : UInt8) : UInt8 := ofResidue (affine (ofResidue (residue b)⁻¹))

/-- Each byte substituted. -/
noncomputable def subBytes (s : State) : State := fun r c => subByte (s r c)

/-- Row `r` rotated to the left by `r` columns. -/
def shiftRows (s : State) : State := fun r c => s r (c + r)

/-- A column as a polynomial in `Y`, with its byte in row `r` for the coefficient of `Y^r`. -/
noncomputable def columnPolynomial (s : State) (c : Fin 4) : Residue[X] :=
  ∑ r : Fin 4, C (residue (s r c)) * X^r.val

/-- `{03} Y^3 + {01} Y^2 + {01} Y + {02}`. -/
noncomputable def mixPolynomial : Residue[X] :=
  C (residue 0x03) * X^3 + C (residue 0x01) * X^2 + C (residue 0x01) * X + C (residue 0x02)

/-- Each column multiplied with `{03} Y^3 + {01} Y^2 + {01} Y + {02}` modulo `Y^4 + 1`. -/
noncomputable def mixColumns (s : State) : State := fun r c =>
  ofResidue ((mixPolynomial * columnPolynomial s c %ₘ (X^4 + 1)).coeff r.val)

/-! ## The round keys -/

/-- Each byte of a word substituted. -/
noncomputable def subWord (w : Word) : Word := fun r => subByte (w r)

/-- A word rotated by one byte. -/
def rotWord (w : Word) : Word := fun r => w (r + 1)

/-- Round constant `j`, counted from 1: the power `X^(j-1)` and three zeros. -/
noncomputable def rcon (j : ℕ) : Word := fun r => if r = 0 then ofResidue (root^(j - 1)) else 0

/-- What word `i` adds to the word one key length back, where `nk` is the number of words of the key. It
is the word before, which is rotated, substituted and given a round constant at the multiples of the key
length, and substituted halfway between them under a key of eight words. -/
noncomputable def derived (nk i : ℕ) (before : Word) : Word :=
  if i % nk = 0 then fun r => subWord (rotWord before) r ^^^ rcon (i / nk) r
  else if nk = 8 ∧ i % 8 = 4 then subWord before
  else before

/-- A key has words. -/
theorem words_pos (key : Key) : 0 < key.size.words := by
  cases key.size <;> decide

/-- Word `i` of the expanded key. -/
noncomputable def word (key : Key) (i : ℕ) : Word :=
  let nk := key.size.words
  if _h : i < nk then fun r => key.bytes.getD (4 * i + r.val) 0
  else fun r => word key (i - nk) r ^^^ derived nk i (word key (i - 1)) r
termination_by i
-- Both words before are earlier, since a key has words.
decreasing_by
  all_goals
    have := words_pos key
    omega

/-- The first words are those of the key. -/
theorem word_of_lt (key : Key) {i : ℕ} (hi : i < key.size.words) :
    word key i = fun r => key.bytes.getD (4 * i + r.val) 0 := by
  rw [word, dif_pos hi]

/-- A word behind the key is the sum of the word one key before it and of the derived one. -/
theorem word_of_ge (key : Key) {i : ℕ} (hi : key.size.words ≤ i) :
    word key i = fun r =>
      word key (i - key.size.words) r ^^^ derived key.size.words i (word key (i - 1)) r := by
  rw [word, dif_neg (Nat.not_lt.mpr hi)]

/-! ## The cipher -/

/-- The key of a round added: column `c` is added to word `4 round + c`. -/
noncomputable def addRoundKey (key : Key) (round : ℕ) (s : State) : State := fun r c =>
  s r c ^^^ word key (4 * round + c.val) r

/-- The state after a round; round 0 only adds its key. -/
noncomputable def afterRound (key : Key) (x : Block) : ℕ → State
  | 0 => addRoundKey key 0 (stateOf x)
  | round + 1 =>
    addRoundKey key (round + 1) (mixColumns (shiftRows (subBytes (afterRound key x round))))

/-- The encryption of a block, in six more rounds than the key has words, the last of which does not mix
the columns. -/
noncomputable def cipher (key : Key) (x : Block) : Block :=
  let nr := key.size.words + 6
  blockOf (addRoundKey key nr (shiftRows (subBytes (afterRound key x (nr - 1)))))

end SymmetricCrypto.Aes.Rijndael
