import Mathlib
import SymmetricCrypto.Proofs.Poly1305.Standard

/-!
# The modulus is prime

Lucas's test proves a number prime from the factors of its predecessor and from a residue whose
powers are one at the predecessor and at no quotient of it by a factor. The factors of `2^130 - 6`
include one of 30 digits, which is proved prime in the same way from one of 19 digits.
-/

namespace SymmetricCrypto.Poly1305

/-- Lucas's test, with the factors of the predecessor as a list. -/
theorem prime_of_powers {p : ℕ} (a : ZMod p) (factors : List ℕ) (hprimes : ∀ q ∈ factors, q.Prime)
    (hprod : factors.prod = p - 1) (hfull : a^(p - 1) = 1)
    (hpart : ∀ q ∈ factors, a^((p - 1) / q) ≠ 1) : p.Prime := by
  refine lucas_primality p a hfull fun q hq hdvd => ?_
  rw [← hprod] at hdvd
  obtain ⟨f, hf, hqf⟩ := (Prime.dvd_prod_iff hq.prime).mp hdvd
  rw [(Nat.prime_dvd_prime_iff_eq hq (hprimes f hf)).mp hqf]
  exact hpart f hf

/-- The largest factor of the predecessor of the 30-digit factor. -/
theorem prime_4024685905107147541 : Nat.Prime 4024685905107147541 := by
  refine prime_of_powers 2 [2, 2, 3, 3, 5, 13, 43, 4889, 37003, 221101]
    ?primes ?product ?full ?part
  case primes => norm_num
  case product => norm_num
  case full =>
    norm_num
    reduce_mod_char
  case part =>
    norm_num
    reduce_mod_char
    decide

/-- The largest factor of the predecessor of the modulus. -/
theorem prime_897064739519922787230182993783 : Nat.Prime 897064739519922787230182993783 := by
  refine prime_of_powers 5 [2, 73, 487, 3134801, 4024685905107147541]
    ?primes ?product ?full ?part
  case primes =>
    simp only [List.forall_mem_cons, prime_4024685905107147541]
    norm_num
  case product => norm_num
  case full =>
    norm_num
    reduce_mod_char
  case part =>
    norm_num
    reduce_mod_char
    decide

/-- The modulus is prime. -/
theorem prime_modulus : Standard.modulus.Prime := by
  change (2^130 - 5).Prime
  refine prime_of_powers 2 [2, 23, 32985101, 897064739519922787230182993783]
    ?primes ?product ?full ?part
  case primes =>
    simp only [List.forall_mem_cons, prime_897064739519922787230182993783]
    norm_num
  case product => norm_num
  case full =>
    norm_num
    reduce_mod_char
  case part =>
    norm_num
    reduce_mod_char
    decide

end SymmetricCrypto.Poly1305
