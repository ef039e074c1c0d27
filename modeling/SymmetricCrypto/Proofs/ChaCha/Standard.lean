import Mathlib
import SymmetricCrypto.Proofs.Bytes.Digits

/-!
# ChaCha20 as RFC 8439 defines it

The definitions of sections 2.1 to 2.3 of RFC 8439 on natural numbers, HChaCha20, which takes a
subkey from the same rounds, and the blocks of XChaCha20 under such a subkey. The words of a state are
numbers below `2^32`, so a sum is a remainder and a rotation is a product and a quotient. Keys, nonces
and blocks are byte strings of any length, and nothing is shared with the cipher.
-/

namespace SymmetricCrypto.ChaCha.Standard

open Digits

/-- The sixteen words of a state. -/
abbrev State := List ℕ

/-- The sum of two words. -/
def add (a b : ℕ) : ℕ := (a + b) % 2^32

/-- `a <<< n`: the bits that leave a word on the left come back on the right. -/
def rotate (a n : ℕ) : ℕ := a * 2^n % 2^32 + a / 2^(32 - n)

/-- The quarter round on four words. -/
def quarter (a b c d : ℕ) : ℕ × ℕ × ℕ × ℕ :=
  let a := add a b
  let d := rotate (d ^^^ a) 16
  let c := add c d
  let b := rotate (b ^^^ c) 12
  let a := add a b
  let d := rotate (d ^^^ a) 8
  let c := add c d
  let b := rotate (b ^^^ c) 7
  (a, b, c, d)

/-- `QUARTERROUND(x, y, z, w)`: the quarter round on the words at four places of a state. -/
def quarterRound (v : State) (x y z w : ℕ) : State :=
  let (a, b, c, d) := quarter (v.getD x 0) (v.getD y 0) (v.getD z 0) (v.getD w 0)
  (((v.set x a).set y b).set z c).set w d

/-- `inner_block`: the four columns, then the four diagonals. -/
def innerBlock (v : State) : State :=
  let v := quarterRound v 0 4 8 12
  let v := quarterRound v 1 5 9 13
  let v := quarterRound v 2 6 10 14
  let v := quarterRound v 3 7 11 15
  let v := quarterRound v 0 5 10 15
  let v := quarterRound v 1 6 11 12
  let v := quarterRound v 2 7 8 13
  quarterRound v 3 4 9 14

/-- Twenty rounds. -/
def rounds (v : State) : State := innerBlock^[10] v

/-- The words of a byte string, each of four bytes with the least significant first. -/
def words (data : Bytes) : List ℕ :=
  (List.range (data.length / 4)).map fun i => value ((data.drop (4 * i)).take 4)

/-- The state of a key with the words after it: the constants, the key, and those words. -/
def initial (key : Bytes) (tail : List ℕ) : State :=
  [0x61707865, 0x3320646e, 0x79622d32, 0x6b206574] ++ words key ++ tail

/-- The bytes of words. -/
def serialize (ws : List ℕ) : Bytes := ws.flatMap (bytes 4)

/-- The bytes of the state after the rounds, with the state before them added. -/
def keystream (v : State) : Bytes := serialize (List.zipWith add (rounds v) v)

/-- `chacha20_block`: the block at a counter of 32 bits. -/
def block (key : Bytes) (counter : ℕ) (nonce : Bytes) : Bytes :=
  keystream (initial key (counter :: words nonce))

/-- HChaCha20: the first and the last row of the state after the rounds. -/
def subkey (key nonce : Bytes) : Bytes :=
  let v := rounds (initial key (words nonce))
  serialize (v.take 4 ++ v.drop 12)

/-- XChaCha20: the block at a counter of 64 bits, under the subkey for the first 16 bytes of the nonce.
The low half of the counter is word 12 and the high half is word 13, and the rest of the nonce follows.
-/
def extendedBlock (key nonce : Bytes) (counter : ℕ) : Bytes :=
  keystream (initial (subkey key (nonce.take 16))
    (counter % 2^32 :: counter / 2^32 % 2^32 :: words (nonce.drop 16)))

end SymmetricCrypto.ChaCha.Standard
