import SymmetricCrypto.Word

/-!
# The ChaCha20 permutation

Sixteen 32-bit words, read as a four by four matrix, go through ten double rounds: a quarter round on
each column, then one on each diagonal.
-/

namespace SymmetricCrypto.ChaCha

open Word

/-- The sixteen words, row by row. -/
abbrev State := Vector UInt32 16

/-- Mixes four words of the state by additions, sums and rotations by 16, 12, 8 and 7 bits. -/
def quarterRound (s : State) (a b c d : Nat) : State :=
  let a₁ := s.getD a 0 + s.getD b 0
  let d₁ := rotl32 (s.getD d 0 ^^^ a₁) 16
  let c₁ := s.getD c 0 + d₁
  let b₁ := rotl32 (s.getD b 0 ^^^ c₁) 12
  let a₂ := a₁ + b₁
  let d₂ := rotl32 (d₁ ^^^ a₂) 8
  let c₂ := c₁ + d₂
  let b₂ := rotl32 (b₁ ^^^ c₂) 7
  (((s.setIfInBounds a a₂).setIfInBounds b b₂).setIfInBounds c c₂).setIfInBounds d d₂

/-- A quarter round on each column, then one on each diagonal. -/
def doubleRound (s : State) : State :=
  let s := quarterRound s 0 4 8 12
  let s := quarterRound s 1 5 9 13
  let s := quarterRound s 2 6 10 14
  let s := quarterRound s 3 7 11 15
  let s := quarterRound s 0 5 10 15
  let s := quarterRound s 1 6 11 12
  let s := quarterRound s 2 7 8 13
  quarterRound s 3 4 9 14

/-- The permutation: ten double rounds. -/
def permute (s : State) : State := Nat.repeat doubleRound 10 s

end SymmetricCrypto.ChaCha
