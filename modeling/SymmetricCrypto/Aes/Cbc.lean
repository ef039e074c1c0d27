import SymmetricCrypto.Aes.Padding
import SymmetricCrypto.Aes.Session

/-!
# Cipher block chaining

Each plaintext block is summed with the ciphertext block before it and then encrypted; the first one is
summed with the initial block. The last block is padded. Decryption gives out nothing of a message whose
padding is wrong.
-/

namespace SymmetricCrypto.Aes.Cbc

/-- Chaining: the register is the last ciphertext block. -/
def mode : Mode Block where
  name := .cbc
  start := id
  step k d chained block :=
    match d with
    | .encrypting => (k.encryptBlock (block.xor chained)).map fun out => (out, out)
    | .decrypting => (k.decryptBlock block).map fun out => (out.xor chained, block)

/-- Pads and encrypts the last block, and gives the ciphertext. -/
def encrypt (s : Session Block) : Except Error Sealed × Session Block :=
  match s.refusal mode .encrypting with
  | some cause => (.error (.misuse cause), s)
  | none =>
    let last := Padding.fill s.pending.pending s.pending.length_le
    match Session.advance mode s.schedule s.direction (s.register, s.output) last with
    | .error (e, register, output) => (.error e, { s.finish register with output })
    | .ok (register, output) => (.ok ⟨output.toList, s.initial⟩, s.finish register)

/-- Takes off the padding, and gives the plaintext. -/
def decrypt (s : Session Block) : Except Error Bytes × Session Block :=
  match s.refusal mode .decrypting with
  | some cause => (.error (.misuse cause), s)
  | none =>
    let plaintext :=
      if s.pending.pending ≠ [] then .error (.malformed .partialBlock)
      else Padding.strip s.output.toList
    (plaintext, s.finish s.register)

/-- Encrypts a message under a random initial block. -/
def encryptMessage (key : Key) (message : Bytes) (g : Random.Generator) :
    Except Error Sealed × Random.Generator :=
  let (s, g) := Session.startRandom mode key g
  (s.complete mode message encrypt, g)

/-- Decrypts a message. -/
def decryptMessage (key : Key) (initial : Block) (ciphertext : Bytes) : Except Error Bytes :=
  (Session.start mode key .decrypting initial).complete mode ciphertext decrypt

end SymmetricCrypto.Aes.Cbc
