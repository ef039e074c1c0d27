import Mathlib
import SymmetricCrypto.Bytes.LittleEndian.Range
import SymmetricCrypto.Proofs.ChaCha.Conformance
import SymmetricCrypto.Proofs.Random.Blocks

/-!
# What a run of requests gives

The law of the generator is on byte strings and natural numbers. With the key `k` and the counter `c`, byte
`i` of an output of `n` bytes is byte `i % 64` of the ChaCha20 block of RFC 8439 at `c + i / 64`, the next
key is the first half of the block at `c + ⌈n / 64⌉`, and the next counter is `c + ⌈n / 64⌉ + 1`, all modulo
`2^32`. Whatever is asked for, and in whatever order, is answered from these bytes (`Law.run`).

Each request follows the law (`serve_eq`), and so does a run of them from any generator
(`serveAll_eq_run`).
-/

namespace SymmetricCrypto.Random

open ChaCha LittleEndian

/-- What can be asked of a generator. -/
inductive Request
  /-- So many bytes. -/
  | fill (n : ℕ)
  /-- So many bytes, or a failure. -/
  | tryFill (n : ℕ)
  /-- A number of 32 bits. -/
  | word32
  /-- A number of 64 bits. -/
  | word64

/-- What a request is answered with. -/
inductive Answer (ε : Type)
  /-- Bytes. -/
  | bytes (data : Bytes)
  /-- Bytes or a failure. -/
  | tried (data : Except ε Bytes)
  /-- A number. -/
  | number (value : ℕ)

namespace Request

/-- The number of bytes that a request takes. -/
def size : Request → ℕ
  | fill n => n
  | tryFill n => n
  | word32 => 4
  | word64 => 8

/-- The answer to a request, from the bytes that it takes. -/
def answer {ε : Type} : Request → Bytes → Answer ε
  | fill _, data => .bytes data
  | tryFill _, data => .tried (.ok data)
  | word32, data => .number (decode data)
  | word64, data => .number (decode data)

end Request

namespace Generator

/-- Answers one request. -/
def serve {ε : Type} (g : Generator) : Request → Answer ε × Generator
  | .fill n => (.bytes (g.bytes n).1, (g.bytes n).2)
  | .tryFill n =>
    let tried : Except ε Bytes × Generator := g.tryBytes n
    (.tried tried.1, tried.2)
  | .word32 => (.number g.word32.1.toNat, g.word32.2)
  | .word64 => (.number g.word64.1.toNat, g.word64.2)

/-- Answers requests one after the other. -/
def serveAll {ε : Type} (g : Generator) : List Request → List (Answer ε) × Generator
  | [] => ([], g)
  | request :: requests =>
    let first : Answer ε × Generator := g.serve request
    let rest := first.2.serveAll requests
    (first.1 :: rest.1, rest.2)

end Generator

/-! ## The law -/

namespace Law

/-- The key and the counter. -/
structure State where
  /-- The 32 bytes of the key. -/
  key : Bytes
  /-- The number of the next block, without a bound. -/
  counter : ℕ

namespace State

/-- The block that is `k` after the next one. -/
def block (s : State) (k : ℕ) : Bytes :=
  ChaCha.Standard.block s.key ((s.counter + k) % 2^32) (List.replicate 12 0)

/-- The output of `n` bytes. -/
def output (s : State) (n : ℕ) : Bytes :=
  (List.range n).map fun i => (s.block (i / 64)).getD (i % 64) 0

/-- The state after an output of `n` bytes. -/
def next (s : State) (n : ℕ) : State :=
  ⟨(s.block (n ⌈/⌉ 64)).take 32, (s.counter + n ⌈/⌉ 64 + 1) % 2^32⟩

/-- The state of a generator. -/
def of (g : Generator) : State := ⟨g.key.toList, g.counter.toNat⟩

end State

/-- The answers to requests, and the state after them. -/
def run {ε : Type} (s : State) : List Request → List (Answer ε) × State
  | [] => ([], s)
  | request :: requests =>
    let rest := run (s.next request.size) requests
    (request.answer (s.output request.size) :: rest.1, rest.2)

end Law

/-! ## The generator follows the law -/

namespace Generator

/-- The blocks are those of the law. -/
theorem toList_ahead (g : Generator) (k : ℕ) : (g.ahead k).toList = (Law.State.of g).block k := by
  have hcounter : (g.counter + UInt32.ofNat k).toNat = (g.counter.toNat + k) % 2^32 := by
    rw [UInt32.toNat_add, UInt32.toNat_ofNat', Nat.add_mod_mod]
  rw [ahead, toList_block, hcounter, Vector.toList_replicate]
  rfl

/-- The bytes are those of the law. -/
theorem fst_bytes_eq_output (g : Generator) (n : ℕ) : (g.bytes n).1 = (Law.State.of g).output n := by
  rw [fst_bytes]
  refine List.map_congr_left fun i _ => ?_
  have hi : i % 64 < (g.ahead (i / 64)).toList.length := by
    rw [Vector.length_toList]
    exact Nat.mod_lt _ (by decide)
  rw [← toList_ahead, List.getD_eq_getElem _ _ hi]
  rfl

/-- The next state is that of the law. -/
theorem of_snd_bytes (g : Generator) (n : ℕ) : Law.State.of (g.bytes n).2 = (Law.State.of g).next n := by
  have hcount : n ⌈/⌉ 64 = blocksFor n := Nat.ceilDiv_eq_add_pred_div n 64
  have hkey : (g.rekeyed (blocksFor n)).key.toList = (g.ahead (blocksFor n)).toList.take 32 := by
    rw [rekeyed, toList_leading]
  have hcounter : (g.rekeyed (blocksFor n)).counter.toNat =
      (g.counter.toNat + blocksFor n + 1) % 2^32 := by
    rw [rekeyed, UInt32.toNat_add, UInt32.toNat_ofNat', Nat.add_mod_mod, Nat.add_assoc]
  rw [Law.State.next, hcount, ← toList_ahead, ← hkey]
  exact congrArg (Law.State.mk _) hcounter

/-- The number that bytes stand for fits their length. -/
theorem decode_bytes_lt (g : Generator) (n : ℕ) : decode (g.bytes n).1 < 256 ^ n := by
  have hlt := decode_lt (g.bytes n).1
  rwa [length_bytes] at hlt

/-- A word is the number that its bytes stand for. -/
theorem word32_eq (g : Generator) :
    g.word32 = (UInt32.ofNat (decode (g.bytes 4).1), (g.bytes 4).2) := by
  unfold word32
  generalize g.bytes 4 = drawn
  rfl

/-- The same with eight bytes. -/
theorem word64_eq (g : Generator) :
    g.word64 = (UInt64.ofNat (decode (g.bytes 8).1), (g.bytes 8).2) := by
  unfold word64
  generalize g.bytes 8 = drawn
  rfl

/-- A request is answered from as many bytes as it takes. -/
theorem serve_eq {ε : Type} (g : Generator) (request : Request) :
    (g.serve request : Answer ε × Generator) =
      (request.answer (g.bytes request.size).1, (g.bytes request.size).2) := by
  cases request with
  | fill n => rfl
  | tryFill n => rfl
  | word32 =>
    -- A number of four bytes is not cut to a word.
    have hvalue : (UInt32.ofNat (decode (g.bytes 4).1)).toNat = decode (g.bytes 4).1 := by
      rw [UInt32.toNat_ofNat']
      exact Nat.mod_eq_of_lt (g.decode_bytes_lt 4)
    rw [serve, word32_eq, hvalue]
    rfl
  | word64 =>
    have hvalue : (UInt64.ofNat (decode (g.bytes 8).1)).toNat = decode (g.bytes 8).1 := by
      rw [UInt64.toNat_ofNat']
      exact Nat.mod_eq_of_lt (g.decode_bytes_lt 8)
    rw [serve, word64_eq, hvalue]
    rfl

/-- A run from any generator follows the law. -/
theorem serveAll_eq_run {ε : Type} (g : Generator) (requests : List Request) :
    ((g.serveAll requests : List (Answer ε) × Generator).1,
      Law.State.of (g.serveAll requests : List (Answer ε) × Generator).2) =
      Law.run (Law.State.of g) requests := by
  induction requests generalizing g with
  | nil => rfl
  | cons request requests ih =>
    simp only [serveAll, serve_eq, Law.run, fst_bytes_eq_output, ← of_snd_bytes, ← ih]

/-- From every seed, with the counter zero, the answers to all requests and the state after them are those of
the law. And in every state a request of `n` bytes is the output loop and then the change of the key. The loop
takes one block for every 64 bytes that `n` bytes start, and the change of the key takes one more, all of
them under the key before it and the zero nonce. Their counters differ exactly if `n` is at most
`64 * (2^32 - 1)`, and so such a request takes no byte of the new key from a block of its output. -/
theorem serveAll_follows_law :
    (∀ (ε : Type) (seed : Key) (requests : List Request),
      let served : List (Answer ε) × Generator := (ofSeed seed).serveAll requests
      (served.1, Law.State.of served.2) = Law.run ⟨seed.toList, 0⟩ requests) ∧
    ∀ (g : Generator) (n : ℕ),
      let filled := g.fillTraced n
      let fresh := filled.value.2.rekeyTraced
      (filled.value.1, fresh.value) = g.bytes n ∧
      filled.trace.length = n ⌈/⌉ 64 ∧ fresh.trace.length = 1 ∧
      (∀ input ∈ filled.trace ++ fresh.trace,
        input.key = g.key ∧ input.nonce = Vector.replicate 12 0) ∧
      (((filled.trace ++ fresh.trace).map Input.counter).Nodup ↔ n ≤ 64 * (2^32 - 1)) := by
  refine ⟨fun ε seed requests => serveAll_eq_run (ofSeed seed) requests, fun g n => ?_⟩
  intro filled fresh
  -- The loop leaves the counter at the block for the key.
  have hfilled : filled.value = ((g.bytes n).1, g.skip (blocksFor n)) := g.value_fillTraced n
  have hfresh : fresh = (g.skip (blocksFor n)).rekeyTraced :=
    congrArg (fun drawn => drawn.2.rekeyTraced) hfilled
  have houtput : filled.trace = (List.range (blocksFor n)).map g.inputAhead := g.trace_fillTraced n
  have hkey : fresh.trace = [g.inputAhead (blocksFor n)] := by
    rw [hfresh, trace_rekeyTraced_skip]
  refine ⟨?_, ?_, ?_, fun input hinput => ?_, ?_⟩
  · rw [hfilled, hfresh, value_rekeyTraced_skip]
    rfl
  · rw [houtput, List.length_map, List.length_range]
    exact (Nat.ceilDiv_eq_add_pred_div n 64).symm
  · rw [hkey, List.length_singleton]
  · rw [houtput, hkey, List.mem_append, List.mem_map, List.mem_singleton] at hinput
    rcases hinput with ⟨i, -, rfl⟩ | rfl <;> exact ⟨rfl, rfl⟩
  · rw [hfresh]
    exact g.nodup_request_iff n

end Generator

end SymmetricCrypto.Random
