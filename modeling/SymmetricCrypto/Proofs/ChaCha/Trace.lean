import Mathlib
import SymmetricCrypto.ChaCha.Stream
import SymmetricCrypto.Proofs.Traced
import SymmetricCrypto.Proofs.Word

/-!
# The block inputs that a computation uses up

Two uses of the block function on one input give the same keystream twice. To speak about the inputs
that a computation uses, the traced functions of this module are the functions of the stream with
every block taken by `blockTraced`, which records its input. Forgetting the record gives the
functions back (`value_xorStreamTraced`), and the record of a stream is one input for each piece of
64 bytes that the data starts (`trace_xorStreamTraced`).
-/

namespace SymmetricCrypto

namespace ChaCha

/-- An input of the block function. -/
structure Input where
  /-- The key. -/
  key : Key
  /-- The nonce. -/
  nonce : Nonce
  /-- The number of the block. -/
  counter : UInt32
  deriving DecidableEq

/-- The number of pieces of 64 bytes that `n` bytes start. -/
def startedBlocks (n : Nat) : Nat := (n + 63) / 64

/-- A keystream block, recorded. -/
def blockTraced (key : Key) (counter : UInt32) (nonce : Nonce) : Traced Input (Vector UInt8 64) :=
  ⟨block key counter nonce, [⟨key, nonce, counter⟩]⟩

/-- The data summed with the keystream, with each block recorded. -/
def xorStreamTraced (key : Key) (nonce : Nonce) (counter : UInt32) (data : Bytes) :
    Traced Input Bytes :=
  if _h : data = [] then pure []
  else do
    let keystream ← blockTraced key counter nonce
    let rest ← xorStreamTraced key nonce (counter + 1) (data.drop 64)
    return Bytes.xor (data.take 64) keystream.toList ++ rest
termination_by data.length
decreasing_by
  have := List.length_pos_iff.mpr _h
  simp only [List.length_drop]
  omega

/-- The record aside, a traced stream is the stream. -/
@[simp] theorem value_xorStreamTraced (key : Key) (nonce : Nonce) (counter : UInt32)
    (data : Bytes) :
    (xorStreamTraced key nonce counter data).value = xorStream key nonce counter data := by
  fun_induction xorStream key nonce counter data with
  | case1 =>
    rw [xorStreamTraced]
    rfl
  | case2 counter data hdata ih =>
    rw [xorStreamTraced, dif_neg hdata, Traced.value_bind, Traced.value_bind, Traced.value_pure]
    rw [← ih]
    rfl

/-- A stream uses the inputs at consecutive counters, one for each started piece. -/
theorem trace_xorStreamTraced (key : Key) (nonce : Nonce) (counter : UInt32) (data : Bytes) :
    (xorStreamTraced key nonce counter data).trace =
      (List.range (startedBlocks data.length)).map fun i =>
        ⟨key, nonce, counter + UInt32.ofNat i⟩ := by
  fun_induction xorStreamTraced key nonce counter data with
  | case1 => rfl
  | case2 counter data hdata ih =>
    have hpos := List.length_pos_iff.mpr hdata
    have hcount : startedBlocks data.length = startedBlocks (data.drop 64).length + 1 := by
      simp only [startedBlocks, List.length_drop]
      omega
    have hsucc : ∀ i, counter + UInt32.ofNat (i + 1) = counter + 1 + UInt32.ofNat i := by
      intro i
      rw [Nat.add_comm i 1]
      exact Word.add_ofNat_add counter 1 i
    rw [hcount, List.range_succ_eq_map, List.map_cons, List.map_map, Traced.trace_bind,
      Traced.trace_bind, Traced.trace_pure, List.append_nil, ih, Word.add_ofNat_zero]
    simp only [Function.comp_def, Nat.succ_eq_add_one, hsucc]
    rfl

/-- A counter that does not go around counts the blocks. -/
theorem toNat_add_ofNat {counter : UInt32} {i : Nat} (h : counter.toNat + i < 2^32) :
    (counter + UInt32.ofNat i).toNat = counter.toNat + i := by
  rw [UInt32.toNat_add, UInt32.toNat_ofNat', Nat.mod_eq_of_lt (by omega : i < 2^32)]
  exact Nat.mod_eq_of_lt h

/-- Consecutive blocks have different counters exactly if there are at most `2^32` of them, wherever the
counter goes around. -/
theorem nodup_counters_iff (counter : UInt32) (n : Nat) :
    ((List.range n).map fun i => counter + UInt32.ofNat i).Nodup ↔ n ≤ 2^32 := by
  rw [List.nodup_map_iff_inj_on List.nodup_range]
  constructor
  · intro hinj
    by_contra hmany
    -- After `2^32` blocks the counter is the first one again.
    have hfirst := hinj 0 (List.mem_range.mpr (by omega)) (2^32) (List.mem_range.mpr (by omega)) rfl
    omega
  · intro hfew i hi j hj heq
    have hi' := List.mem_range.mp hi
    have hj' := List.mem_range.mp hj
    have hvalue := congrArg UInt32.toNat ((UInt32.add_right_inj counter).mp heq)
    rwa [UInt32.toNat_ofNat', UInt32.toNat_ofNat', Nat.mod_eq_of_lt (by omega),
      Nat.mod_eq_of_lt (by omega)] at hvalue

/-- Consecutive blocks have different counters, as long as the counter does not go around. -/
theorem nodup_counters {counter : UInt32} {n : Nat} (h : counter.toNat + n ≤ 2^32) :
    ((List.range n).map fun i => counter + UInt32.ofNat i).Nodup :=
  (nodup_counters_iff counter n).mpr (by omega)

/-- The same for data of fixed length. -/
def xorVectorTraced {n : Nat} (key : Key) (nonce : Nonce) (counter : UInt32)
    (data : Vector UInt8 n) :
    Traced Input (Vector UInt8 n) :=
  ⟨xorVector key nonce counter data, (xorStreamTraced key nonce counter data.toList).trace⟩

end ChaCha

end SymmetricCrypto
