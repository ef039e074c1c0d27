import SymmetricCrypto.Aes.Schedule

/-!
# The AES block cipher

A block is a matrix of four rows and four columns, column by column: byte `4 c + r` is in row `r` of
column `c`. A round substitutes the bytes, shifts the rows, mixes the columns and adds the round key;
the last round does not mix. Decryption takes the inverses in the opposite order.

`Once` is a cipher state for one block: it transforms the block one time, in either direction, and
refuses to do so again. `Schedule.encryptBlock` and `Schedule.decryptBlock` give each block a state of
its own.
-/

namespace SymmetricCrypto.Aes

namespace Block

/-- The block of zeros. -/
def zero : Block := Vector.replicate 16 0

/-- The sum of two blocks. -/
def xor (a b : Block) : Block := Vector.zipWith (· ^^^ ·) a b

/-- Each byte substituted. -/
def substitute (s : Block) : Block := s.map Substitution.forward

/-- Each byte substituted back. -/
def substituteBack (s : Block) : Block := s.map Substitution.backward

/-- Row `r` rotated to the left by `r` columns. -/
def shiftRows (s : Block) : Block :=
  Vector.ofFn fun i => s[(i.val + 4 * (i.val % 4)) % 16]

/-- Row `r` rotated to the right by `r` columns. -/
def shiftRowsBack (s : Block) : Block :=
  Vector.ofFn fun i => s[(i.val + 12 * (i.val % 4)) % 16]

/-- Each column times the circulant matrix with this first row: a byte becomes the sum of itself and
the three bytes below it, around the column, each times its factor. -/
def mixWith (a b c d : UInt8) (s : Block) : Block :=
  Vector.ofFn fun i =>
    let below (k : Nat) : UInt8 := s[i.val / 4 * 4 + (i.val + k) % 4]
    Field.mul a (below 0) ^^^ Field.mul b (below 1) ^^^ Field.mul c (below 2) ^^^
      Field.mul d (below 3)

/-- The columns mixed. -/
def mixColumns : Block → Block := mixWith 2 3 1 1

/-- The columns unmixed. -/
def mixColumnsBack : Block → Block := mixWith 14 11 13 9

end Block

namespace Schedule

/-- The numbers of the rounds between the first key and the last round. -/
def innerRounds (k : Schedule) : List Nat := List.range' 1 (k.rounds.val - 1)

/-- A round that mixes the columns. -/
def round (k : Schedule) (s : Block) (r : Nat) : Block :=
  s.substitute.shiftRows.mixColumns.xor (k.roundKey r)

/-- The inverse of a round that mixes the columns, after the next round key was taken off. -/
def roundBack (k : Schedule) (s : Block) (r : Nat) : Block :=
  (s.shiftRowsBack.substituteBack.xor (k.roundKey r)).mixColumnsBack

/-- The encryption of a block. -/
def encrypt (k : Schedule) (x : Block) : Block :=
  let s := k.innerRounds.foldl k.round (x.xor (k.roundKey 0))
  s.substitute.shiftRows.xor (k.roundKey k.rounds)

/-- The decryption of a block. -/
def decrypt (k : Schedule) (y : Block) : Block :=
  let s := k.innerRounds.reverse.foldl k.roundBack (y.xor (k.roundKey k.rounds))
  s.shiftRowsBack.substituteBack.xor (k.roundKey 0)

end Schedule

/-- A cipher state for one block. -/
structure Once where
  /-- The round keys. -/
  schedule : Schedule
  /-- The block, before or after its transformation. -/
  block : Block
  /-- Whether the block was transformed. -/
  spent : Bool

namespace Once

/-- The state of a block that was not transformed. -/
def ofBlock (k : Schedule) (x : Block) : Once := ⟨k, x, false⟩

/-- Gives the transformed block the first time, and refuses afterwards. -/
def transform (f : Schedule → Block → Block) (o : Once) : Except Error Block × Once :=
  if o.spent then (.error (.misuse .blockSpent), o)
  else (.ok (f o.schedule o.block), { o with block := Block.zero, spent := true })

/-- Encrypts the block, once. -/
def encrypt (o : Once) : Except Error Block × Once := o.transform Schedule.encrypt

/-- Decrypts the block, once. -/
def decrypt (o : Once) : Except Error Block × Once := o.transform Schedule.decrypt

end Once

/-- The encryption of a block in a cipher state of its own. -/
def Schedule.encryptBlock (k : Schedule) (x : Block) : Except Error Block :=
  (Once.ofBlock k x).encrypt.1

/-- The decryption of a block in a cipher state of its own. -/
def Schedule.decryptBlock (k : Schedule) (y : Block) : Except Error Block :=
  (Once.ofBlock k y).decrypt.1

end SymmetricCrypto.Aes
