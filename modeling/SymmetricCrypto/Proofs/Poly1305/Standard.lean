import Mathlib
import SymmetricCrypto.Poly1305.Authenticator
import SymmetricCrypto.Proofs.Bytes.Digits

/-!
# Poly1305 as RFC 8439 defines it

The definitions of section 2.5 of RFC 8439 on natural numbers. The message is one byte string; its
blocks `1, …, q` are the coefficients of a polynomial without a constant term (`polynomial`), whose
value at the clamped half `r` of the key, plus the other half `s`, is the tag (`tag`). No function is
shared with the authenticator.
-/

namespace SymmetricCrypto.Poly1305.Standard

open Digits

/-- The prime `2^130 - 5`. -/
def modulus : ℕ := 2^130 - 5

/-- The bits of the first half of a key that stay. -/
def clampMask : ℕ := 0x0ffffffc0ffffffc0ffffffc0fffffff

/-- `r`: the first 16 bytes of a key, clamped. -/
def r (key : Key) : ℕ := value (key.toList.take 16) &&& clampMask

/-- `s`: the last 16 bytes of a key. -/
def s (key : Key) : ℕ := value (key.toList.drop 16)

/-- `q`: the number of blocks of a message, the last of which may be shorter than 16 bytes. -/
def blockCount (message : Bytes) : ℕ := (message.length + 15) / 16

/-- Block `i`, counted from 1. -/
def block (message : Bytes) (i : ℕ) : Bytes := (message.drop (16 * (i - 1))).take 16

/-- The number of a block: its bytes with a one after the last of them. -/
def number (block : Bytes) : ℕ := value block + 2^(8 * block.length)

/-- `c_1 x^q + c_2 x^(q-1) + ⋯ + c_q x` modulo the prime. -/
def polynomial (message : Bytes) (x : ℕ) : ℕ :=
  let q := blockCount message
  (∑ i ∈ Finset.Icc 1 q, number (block message i) * x^(q - i + 1)) % modulus

/-- The tag of a message under a one-time key. -/
def tag (key : Key) (message : Bytes) : Bytes :=
  bytes 16 ((polynomial message (r key) + s key) % 2^128)

end SymmetricCrypto.Poly1305.Standard
