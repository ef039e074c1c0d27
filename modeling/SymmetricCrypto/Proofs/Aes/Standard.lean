import Mathlib
import SymmetricCrypto.Aes.Cipher

/-!
# The modes of operation by position

The definitions of cipher block chaining, of its padding and of counter mode on a message as a whole,
with every index written out, for any permutation `E` of the blocks. A message has no pieces here, and
a block or a byte of the output is given by its position: `cipherBlock` and `plainBlock` for chaining
(`cbcEncrypt`, `cbcDecrypt`), `keystream` for counting (`ctr`). No function is shared with the sessions:
blocks are cut out, summed (`sum`) and counted up by index.
-/

namespace SymmetricCrypto.Aes.Standard

/-- Block `i` of the data, counted from 0; bytes past its end are zero. -/
def blockAt (data : Bytes) (i : ℕ) : Block := Vector.ofFn fun j => data.getD (16 * i + j.val) 0

/-- The sum of two blocks, byte by byte. -/
def sum (x y : Block) : Block := Vector.ofFn fun j => x.get j ^^^ y.get j

/-! ## Chaining -/

/-- The number of bytes that are added to a message: as many as its last block lacks, and a whole
block if it lacks none. -/
def paddingLength (message : Bytes) : ℕ := 16 - message.length % 16

/-- The message with bytes added, each of which is their number. -/
def padded (message : Bytes) : Bytes :=
  message ++ List.replicate (paddingLength message) (UInt8.ofNat (paddingLength message))

/-- The initial block and then the blocks of the data, which are counted from 1. -/
def chain (initial : Block) (data : Bytes) : ℕ → Block
  | 0 => initial
  | i + 1 => blockAt data i

/-- `C_i`: `C_0` is the initial block, and `C_i` is the encryption of the sum of `P_i` and `C_{i-1}`. -/
def cipherBlock (E : Equiv.Perm Block) (initial : Block) (plaintext : Bytes) : ℕ → Block
  | 0 => initial
  | i + 1 => E (sum (blockAt plaintext i) (cipherBlock E initial plaintext i))

/-- `P_i`: the decryption of `C_i`, summed with `C_{i-1}`. -/
def plainBlock (E : Equiv.Perm Block) (initial : Block) (ciphertext : Bytes) (i : ℕ) : Block :=
  sum (E.symm (chain initial ciphertext i)) (chain initial ciphertext (i - 1))

/-- The ciphertext of a message: the blocks `C_1`, `C_2`, … of the padded message. -/
def cbcEncrypt (E : Equiv.Perm Block) (initial : Block) (message : Bytes) : Bytes :=
  (List.range' 1 (message.length / 16 + 1)).flatMap fun i =>
    (cipherBlock E initial (padded message) i).toList

/-- The plaintext of the whole blocks of a ciphertext, with its padding: the blocks `P_1`, `P_2`, ….
-/
def cbcDecrypt (E : Equiv.Perm Block) (initial : Block) (ciphertext : Bytes) : Bytes :=
  (List.range' 1 (ciphertext.length / 16)).flatMap fun i => (plainBlock E initial ciphertext i).toList

/-- What a ciphertext opens to. It has whole blocks, at least one, its last plaintext byte is a number
from 1 to 16, and as many bytes at the end are that number; else the first of these that does not hold
is the error. -/
def cbcOpen (E : Equiv.Perm Block) (initial : Block) (ciphertext : Bytes) : Except Error Bytes :=
  let plaintext := cbcDecrypt E initial ciphertext
  let last := plaintext.getLastD 0
  let kept := plaintext.length - last.toNat
  if ciphertext.length % 16 ≠ 0 then .error (.malformed .partialBlock)
  else if ciphertext = [] then .error (.malformed .noBlock)
  else if last = 0 ∨ 16 < last.toNat then .error (.malformed .paddingLength)
  else if ∃ byte ∈ plaintext.drop kept, byte ≠ last then .error (.malformed .paddingBytes)
  else .ok (plaintext.take kept)

/-! ## Counting -/

/-- The number in a block, most significant byte first. -/
def number (block : Block) : ℕ := ∑ j : Fin 16, (block.get j).toNat * 256^(15 - j.val)

/-- The block of a number, most significant byte first. -/
def bigEndian (n : ℕ) : Block := Vector.ofFn fun j => UInt8.ofNat (n / 256^(15 - j.val))

/-- The counter block that is `i` blocks after another one. -/
def counterBlock (initial : Block) (i : ℕ) : Block := bigEndian ((number initial + i) % 2^128)

/-- Byte `i` of the keystream from a counter block on. -/
def keystream (E : Equiv.Perm Block) (initial : Block) (i : ℕ) : UInt8 :=
  (E (counterBlock initial (i / 16)))[i % 16]

/-- The data, summed with the keystream byte by byte. -/
def ctr (E : Equiv.Perm Block) (initial : Block) (data : Bytes) : Bytes :=
  data.mapIdx fun i byte => byte ^^^ keystream E initial i

end SymmetricCrypto.Aes.Standard
