import Mathlib
import SymmetricCrypto.Proofs.ChaCha.Keystream
import SymmetricCrypto.Proofs.ChaCha.Trace
import SymmetricCrypto.Random.Generator

/-!
# The blocks of a request

A request of `n` bytes goes through two loops in one: it takes a block for every 64 bytes that are left to
fill (`fillTraced`), and then one more for the new key (`rekeyTraced`). Both go on with the same counter, by
one for each block, and every block is recorded. The record aside, the two are a request
(`value_fillTraced`, `value_rekeyTraced_skip`).

The bytes are the keystream from the counter on (`fst_bytes`). The blocks are those at consecutive
counters, the last of them for the key (`trace_fillTraced`, `trace_rekeyTraced_skip`), and so they differ
as long as there are at most `2^32` of them, also if the counter goes around between them
(`nodup_request_iff`).
-/

namespace SymmetricCrypto.Random.Generator

open ChaCha

/-- The nonce of all blocks. -/
def nonce : Nonce := Vector.replicate 12 0

/-- The generator with its counter `k` blocks further. -/
def skip (g : Generator) (k : ℕ) : Generator := { g with counter := g.counter + UInt32.ofNat k }

/-- The block at the counter, recorded. -/
def blockTraced (g : Generator) : Traced Input (Vector UInt8 64) :=
  ChaCha.blockTraced g.key g.counter nonce

/-- The next `n` bytes with a record of their blocks, and the generator with the counter after them. -/
def fillTraced (g : Generator) (n : ℕ) : Traced Input (Bytes × Generator) :=
  if n = 0 then pure ([], g)
  else do
    let stream ← g.blockTraced
    let rest ← (g.skip 1).fillTraced (n - 64)
    return (stream.toList.take (min 64 n) ++ rest.1, rest.2)
termination_by n

/-- A new key from the block at the counter, which is recorded. -/
def rekeyTraced (g : Generator) : Traced Input Generator := do
  let fresh ← g.blockTraced
  return { g.skip 1 with key := leading 32 32 fresh }

/-- The input of the block that is `k` after the next one. -/
def inputAhead (g : Generator) (k : ℕ) : Input := ⟨g.key, nonce, g.counter + UInt32.ofNat k⟩

/-! ## The counter -/

/-- No block is skipped. -/
@[simp] theorem skip_zero (g : Generator) : g.skip 0 = g := by
  rw [skip, Word.add_ofNat_zero]

/-- Blocks that are skipped twice are skipped together. -/
@[simp] theorem skip_skip (g : Generator) (j k : ℕ) : (g.skip j).skip k = g.skip (j + k) := by
  simp only [skip, UInt32.add_assoc, UInt32.ofNat_add]

/-- The key stays where blocks are skipped. -/
@[simp] theorem key_skip (g : Generator) (k : ℕ) : (g.skip k).key = g.key := rfl

/-- The counter goes up by one for each block. -/
@[simp] theorem counter_skip_one (g : Generator) : (g.skip 1).counter = g.counter + 1 := rfl

/-- The blocks ahead are at the counters from the next one on. -/
theorem ahead_eq (g : Generator) (k : ℕ) : g.ahead k = (g.skip k).blockTraced.value := rfl

/-- Blocks that are skipped are counted. -/
theorem ahead_skip (g : Generator) (j k : ℕ) : (g.skip j).ahead k = g.ahead (j + k) := by
  rw [ahead_eq, ahead_eq, skip_skip]

/-- A block is recorded with its input. -/
theorem trace_blockTraced_skip (g : Generator) (k : ℕ) :
    (g.skip k).blockTraced.trace = [g.inputAhead k] := rfl

/-- Inputs that are skipped are counted. -/
theorem inputAhead_skip (g : Generator) (j k : ℕ) :
    (g.skip j).inputAhead k = g.inputAhead (j + k) := by
  simp only [inputAhead, skip, UInt32.add_assoc, UInt32.ofNat_add]

/-- What is left after 64 bytes starts one block less. -/
theorem blocksFor_eq_succ {n : ℕ} (hn : n ≠ 0) : blocksFor n = blocksFor (n - 64) + 1 := by
  unfold blocksFor
  omega

/-! ## The two loops -/

/-- The output is the first block, as far as it is asked for, and the output from the next one on. -/
theorem fst_bytes_eq_append {n : ℕ} (hn : n ≠ 0) (g : Generator) :
    (g.bytes n).1 = (g.ahead 0).toList.take (min 64 n) ++ ((g.skip 1).bytes (n - 64)).1 := by
  -- A block has 64 bytes, so it is cut only if fewer are asked for.
  have hfirst : (g.ahead 0).toList.take (min 64 n) = (g.ahead 0).toList.take n := by
    rcases le_total 64 n with hlong | hshort
    · rw [min_eq_left hlong, List.take_of_length_le (Vector.length_toList ▸ le_rfl),
        List.take_of_length_le (Vector.length_toList ▸ hlong)]
    · rw [min_eq_right hshort]
  simp only [bytes, ahead_skip]
  rw [blocksFor_eq_succ hn, List.range_succ_eq_map, List.flatMap_cons, List.flatMap_map,
    List.take_append, Vector.length_toList, hfirst]
  simp only [Nat.succ_eq_add_one, Nat.add_comm 1]

/-- The record aside, the output loop gives the bytes, and it counts their blocks. -/
theorem value_fillTraced (g : Generator) (n : ℕ) :
    (g.fillTraced n).value = ((g.bytes n).1, g.skip (blocksFor n)) := by
  fun_induction fillTraced g n with
  | case1 g =>
    rw [show blocksFor 0 = 0 from rfl, skip_zero]
    rfl
  | case2 g n hn ih =>
    rw [Traced.value_bind, Traced.value_bind, Traced.value_pure, ih, fst_bytes_eq_append hn, skip_skip,
      blocksFor_eq_succ hn, Nat.add_comm 1, ahead_eq, skip_zero]

/-- The output loop takes consecutive blocks. -/
theorem trace_fillTraced (g : Generator) (n : ℕ) :
    (g.fillTraced n).trace = (List.range (blocksFor n)).map g.inputAhead := by
  fun_induction fillTraced g n with
  | case1 => rfl
  | case2 g n hn ih =>
    have hfirst := g.trace_blockTraced_skip 0
    rw [skip_zero] at hfirst
    rw [Traced.trace_bind, Traced.trace_bind, Traced.trace_pure, List.append_nil, hfirst, ih,
      blocksFor_eq_succ hn, List.range_succ_eq_map, List.map_cons, List.map_map, List.singleton_append]
    -- After the first input come those of the generator one block further.
    congr 2
    funext k
    rw [inputAhead_skip, Nat.add_comm]
    rfl

/-- The record aside, the generator changes its key. -/
theorem value_rekeyTraced_skip (g : Generator) (k : ℕ) :
    (g.skip k).rekeyTraced.value = g.rekeyed k := by
  rw [rekeyTraced, Traced.value_bind, Traced.value_pure, skip_skip, ← ahead_eq]
  rfl

/-- The new key takes one block. -/
theorem trace_rekeyTraced_skip (g : Generator) (k : ℕ) :
    (g.skip k).rekeyTraced.trace = [g.inputAhead k] := by
  rw [rekeyTraced, Traced.trace_bind, Traced.trace_pure, List.append_nil, trace_blockTraced_skip]

/-! ## The output by its places -/

/-- The first bytes are those of the next block. -/
theorem take_ahead_zero (g : Generator) {m : ℕ} (hm : m ≤ 64) :
    (g.ahead 0).toList.take m = (List.range m).map (keystreamByte g.key nonce g.counter) := by
  have hblock : g.ahead 0 = block g.key g.counter nonce := by
    rw [ahead_eq, skip_zero]
    rfl
  rw [hblock]
  apply List.ext_getElem
  · rw [List.length_take, Vector.length_toList, List.length_map, List.length_range, min_eq_left hm]
  · intro i hi hi'
    have him : i < m := by rwa [List.length_map, List.length_range] at hi'
    rw [List.getElem_take, Vector.getElem_toList, List.getElem_map, List.getElem_range,
      keystreamByte_of_lt _ _ _ (him.trans_le hm)]
    rfl

/-- The output is the keystream from the counter on. -/
theorem fst_bytes (g : Generator) (n : ℕ) :
    (g.bytes n).1 = (List.range n).map (keystreamByte g.key nonce g.counter) := by
  induction g, n using fillTraced.induct with
  | case1 g => rfl
  | case2 g n hn ih =>
    rw [fst_bytes_eq_append hn, take_ahead_zero g (min_le_left 64 n), ih, key_skip, counter_skip_one]
    rcases le_total n 64 with hshort | hlong
    · rw [Nat.sub_eq_zero_of_le hshort, min_eq_right hshort, List.range_zero, List.map_nil,
        List.append_nil]
    · -- The rest is the keystream of the next counter, 64 bytes further.
      obtain ⟨m, rfl⟩ : ∃ m, n = 64 + m := ⟨n - 64, by omega⟩
      rw [min_eq_left hlong, Nat.add_sub_cancel_left, List.range_add, List.map_append, List.map_map]
      refine congrArg _ (List.map_congr_left fun i _ => ?_)
      rw [Function.comp_apply, keystreamByte_add_64]

/-! ## The blocks differ -/

/-- A request takes the blocks at consecutive counters, the last of them for the key. -/
theorem map_counter_request (g : Generator) (n : ℕ) :
    ((g.fillTraced n).trace ++ (g.skip (blocksFor n)).rekeyTraced.trace).map Input.counter =
      (List.range (blocksFor n + 1)).map fun i => g.counter + UInt32.ofNat i := by
  rw [trace_fillTraced, trace_rekeyTraced_skip, ← List.map_singleton, ← List.map_append,
    ← List.range_succ, List.map_map]
  rfl

/-- The blocks of a request differ exactly if the output has at most `2^32 - 1` of them. -/
theorem nodup_request_iff (g : Generator) (n : ℕ) :
    (((g.fillTraced n).trace ++ (g.skip (blocksFor n)).rekeyTraced.trace).map Input.counter).Nodup ↔
      n ≤ 64 * (2^32 - 1) := by
  rw [map_counter_request, nodup_counters_iff]
  unfold blocksFor
  omega

end SymmetricCrypto.Random.Generator
