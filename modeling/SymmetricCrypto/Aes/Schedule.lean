import SymmetricCrypto.Aes.Key
import SymmetricCrypto.Aes.Substitution

/-!
# The AES key schedule

The key is expanded to the words of all round keys (FIPS-197). The first words are those of the key;
each later one is the sum of the word one key length back and of the word before it, which is rotated,
substituted and given a round constant at the multiples of the key length, and substituted halfway
between them for the longest keys.
-/

namespace SymmetricCrypto.Aes

/-- A block of 16 bytes, column by column. -/
abbrev Block := Vector UInt8 16

/-- A word of four bytes, a column of a block. -/
abbrev Column := Vector UInt8 4

namespace Schedule

/-- The sum of two words. -/
def xorColumn (a b : Column) : Column := Vector.zipWith (· ^^^ ·) a b

/-- The word with each byte substituted. -/
def substitute (w : Column) : Column := w.map Substitution.forward

/-- The word rotated by one byte. -/
def rotate (w : Column) : Column := #v[w[1], w[2], w[3], w[0]]

/-- The round constant: a power of `X` in the first byte. -/
def roundConstant (n : Nat) : Column := #v[Nat.repeat Field.double n 1, 0, 0, 0]

/-- What is made of the word before word `i`, under a key of `nk` words. -/
def derive (nk i : Nat) (before : Column) : Column :=
  if i % nk = 0 then xorColumn (substitute (rotate before)) (roundConstant (i / nk - 1))
  else if 6 < nk ∧ i % nk = 4 then substitute before
  else before

/-- Word `i` of the key. -/
def keyWord (key : Key) (i : Nat) : Column :=
  Vector.ofFn fun j => key.bytes.toList.getD (4 * i + j.val) 0

/-- The first words of the expanded key. -/
def expand (key : Key) : Nat → Array Column
  | 0 => #[]
  | i + 1 =>
    let w := expand key i
    let nk := key.size.words
    let zero := Vector.replicate 4 0
    w.push <|
      if i < nk then keyWord key i
      else xorColumn (w.getD (i - nk) zero) (derive nk i (w.getD (i - 1) zero))

end Schedule

/-- The round keys of a cipher with up to 14 rounds; those past the last round are not used. -/
structure Schedule where
  /-- The number of rounds. -/
  rounds : Fin 15
  /-- The key of each round, from the one before the first round on. -/
  roundKeys : Vector Block 15

namespace Schedule

/-- The round keys of a key. -/
def ofKey (key : Key) : Schedule where
  rounds := ⟨key.size.rounds, by cases key.size <;> decide⟩
  roundKeys :=
    let words := expand key (4 * (key.size.rounds + 1))
    Vector.ofFn fun r => Vector.ofFn fun i =>
      (words.getD (4 * r.val + i.val / 4) (Vector.replicate 4 0)).get ⟨i.val % 4, by omega⟩

/-- The key of a round. -/
def roundKey (k : Schedule) (r : Nat) : Block := k.roundKeys.toArray.getD r (Vector.replicate 16 0)

/-- The schedule without its keys: they are zero, and there are no rounds. -/
def wiped : Schedule := ⟨0, Vector.replicate 15 (Vector.replicate 16 0)⟩

end Schedule

end SymmetricCrypto.Aes
