import SymmetricCrypto.Bytes.Basic

/-!
# Little-endian numbers

One codec serves every width: `encode n v` writes the low `n` base-256 digits of `v`, least
significant first, and `decode` reads any number of digits. The 32-bit words of the ciphers are that
codec at width four, in three shapes: single words (`word`, `wordBytes`), words of a fixed number
(`words`, `ofWords`), and words that overwrite what is there as far as both sides last
(`overwriteWords`, `overwriteBytes`).

`increment` adds one to a number of any fixed width, by the carry from byte to byte.
-/

namespace SymmetricCrypto.LittleEndian

/-- The low `n` base-256 digits of a number, least significant first. -/
def encode : Nat → Nat → Bytes
  | 0, _ => []
  | n + 1, v => UInt8.ofNat v :: encode n (v / 256)

/-- The number with the given base-256 digits, least significant first. -/
def decode : Bytes → Nat
  | [] => 0
  | b :: bs => b.toNat + 256 * decode bs

/-- As many bytes are written as are asked for. -/
@[simp] theorem length_encode (n v : Nat) : (encode n v).length = n := by
  induction n generalizing v with
  | zero => rfl
  | succ n ih => simp [encode, ih]

/-- Every byte string is the encoding of its value. -/
theorem encode_decode (bs : Bytes) : encode bs.length (decode bs) = bs := by
  induction bs with
  | nil => rfl
  | cons b bs ih =>
    have hb := b.toNat_lt
    rw [List.length_cons, encode, decode, Nat.add_mul_div_left _ _ (by decide),
      Nat.div_eq_of_lt hb, Nat.zero_add, ih]
    congr 1
    apply UInt8.toNat_inj.mp
    rw [UInt8.toNat_ofNat', Nat.add_mul_mod_self_left, Nat.mod_eq_of_lt hb]

/-- The next number of the same width; the largest one is followed by zero. -/
def increment : Bytes → Bytes
  | [] => []
  | b :: bs => if b = 255 then 0 :: increment bs else (b + 1) :: bs

/-- The word of four bytes. -/
def word (a b c d : UInt8) : UInt32 := UInt32.ofNat (decode [a, b, c, d])

/-- The four bytes of a word. -/
def wordBytes (w : UInt32) : Bytes := encode 4 w.toNat

/-- The word that starts at a position, reading bytes past the end as zero. -/
def wordAt (data : Bytes) (start : Nat) : UInt32 :=
  UInt32.ofNat (decode ((data.drop start).take 4))

/-- The 32-bit word in the first four bytes, unless there are fewer. -/
def word32? (data : Bytes) : Option UInt32 :=
  if data.length < 4 then none else some (wordAt data 0)

/-- The 64-bit word in the first eight bytes, unless there are fewer. -/
def word64? (data : Bytes) : Option UInt64 :=
  if data.length < 8 then none else some (UInt64.ofNat (decode (data.take 8)))

/-- Writes the whole words of the data over the given ones, as far as both last. -/
def overwriteWords : Bytes → List UInt32 → List UInt32
  | a :: b :: c :: d :: rest, _ :: ws => word a b c d :: overwriteWords rest ws
  | _, ws => ws

/-- Writes the words over whole groups of four bytes, as far as both last. -/
def overwriteBytes : List UInt32 → Bytes → Bytes
  | w :: ws, _ :: _ :: _ :: _ :: rest => wordBytes w ++ overwriteBytes ws rest
  | _, data => data

/-- The `n` words of `4 n` bytes. -/
def words (n : Nat) (bs : Vector UInt8 (4 * n)) : Vector UInt32 n :=
  Vector.ofFn fun i => word bs[4 * i.val] bs[4 * i.val + 1] bs[4 * i.val + 2] bs[4 * i.val + 3]

/-- The bytes of `n` words. -/
def ofWords {n : Nat} (ws : Vector UInt32 n) : Vector UInt8 (4 * n) :=
  Vector.ofFn fun i => (ws[i.val / 4] >>> UInt32.ofNat (8 * (i.val % 4))).toUInt8

end SymmetricCrypto.LittleEndian
