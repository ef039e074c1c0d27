import SymmetricCrypto.Aes.Session
import SymmetricCrypto.Bytes.LittleEndian

/-!
# Counter mode

Each block is summed with the encryption of a counter block. The counter is a big-endian number of 128
bits that goes up by one from block to block and wraps. The last block may be shorter, and uses as much
of its keystream block as it needs. Both directions are the same operation.
-/

namespace SymmetricCrypto.Aes.Ctr

/-- A block counter. -/
abbrev Counter := BitVec 128

namespace Counter

/-- The counter in a block, most significant byte first. -/
def ofBlock (b : Block) : Counter := BitVec.ofNat 128 (LittleEndian.decode b.toList.reverse)

/-- The block of a counter. -/
def toBlock (c : Counter) : Block :=
  ⟨(LittleEndian.encode 16 c.toNat).reverse.toArray, by simp⟩

end Counter

/-- Counting: the register is the counter of the next block. -/
def mode : Mode Counter where
  name := .ctr
  start := Counter.ofBlock
  step k _ counter block :=
    (k.encryptBlock counter.toBlock).map fun keystream => (block.xor keystream, counter + 1)

/-- The whole output, with that of an incomplete last block, and the session after it. -/
def flush (s : Session Counter) : Except Error Bytes × Session Counter :=
  if s.pending.pending = [] then (.ok s.output.toList, s.finish s.register)
  else
    match s.schedule.encryptBlock s.register.toBlock with
    | .error e => (.error e, { s with finished := true })
    | .ok keystream =>
      (.ok (s.output.toList ++ Bytes.xor s.pending.pending keystream.toList),
        s.finish (s.register + 1))

/-- Gives the ciphertext. -/
def encrypt (s : Session Counter) : Except Error Sealed × Session Counter :=
  match s.refusal mode .encrypting with
  | some cause => (.error (.misuse cause), s)
  | none =>
    let (output, after) := flush s
    (output.map (⟨·, s.initial⟩), after)

/-- Gives the plaintext. -/
def decrypt (s : Session Counter) : Except Error Bytes × Session Counter :=
  match s.refusal mode .decrypting with
  | some cause => (.error (.misuse cause), s)
  | none => flush s

/-- Encrypts a message from a random counter. -/
def encryptMessage (key : Key) (message : Bytes) (g : Random.Generator) :
    Except Error Sealed × Random.Generator :=
  let (s, g) := Session.startRandom mode key g
  (s.complete mode message encrypt, g)

/-- Decrypts a message. -/
def decryptMessage (key : Key) (initial : Block) (ciphertext : Bytes) : Except Error Bytes :=
  (Session.start mode key .decrypting initial).complete mode ciphertext decrypt

end SymmetricCrypto.Aes.Ctr
