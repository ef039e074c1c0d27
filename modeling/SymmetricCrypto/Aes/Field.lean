/-!
# The field of 256 elements

A byte stands for the polynomial over two elements whose coefficients are its bits, modulo
`X^8 + X^4 + X^3 + X + 1`. Addition is the bitwise sum. Multiplication adds a shifted copy of one factor
for each bit of the other (`mul`), and the inverse is the 254th power, which is zero for zero
(`inverse`).
-/

namespace SymmetricCrypto.Aes.Field

/-- The product with `X`. -/
def double (a : UInt8) : UInt8 := (a <<< 1) ^^^ (if a &&& 0x80 = 0 then 0 else 0x1b)

/-- The product of `a` with the low `k` bits of `b`. -/
def mulBits : Nat → UInt8 → UInt8 → UInt8
  | 0, _, _ => 0
  | k + 1, a, b => (if b &&& 1 = 0 then 0 else a) ^^^ mulBits k (double a) (b >>> 1)

/-- The product. -/
def mul (a b : UInt8) : UInt8 := mulBits 8 a b

/-- The product of the `k` powers `x^2`, `x^4`, …, each the square of the one before. -/
def squares : Nat → UInt8 → UInt8
  | 0, _ => 1
  | k + 1, x => mul (mul x x) (squares k (mul x x))

/-- The inverse, as the power with exponent `254 = 2 + 4 + … + 128`; zero for zero. -/
def inverse (x : UInt8) : UInt8 := squares 7 x

end SymmetricCrypto.Aes.Field
