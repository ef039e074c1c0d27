import Mathlib
import SymmetricCrypto.Proofs.Aes.Counting

/-!
# No keystream block is made twice

`recordedMode` is counter mode with a record in its register: next to the counter stand the keystream
blocks that were made. A mode with a record does the same as the mode without it, and so does a session
(`Mode.Records`, `Session.addAll_forgetting`). Forgetting the record gives the results of counter mode
back (`fst_processRecorded`).

However the data is cut, one block is made for each started piece of 16 bytes, and block `i` is the
encryption of the counter `i` after the first one (`snd_processRecorded`). Encryption is a permutation,
and a counter comes back after `2^128` blocks and not before. So the blocks are pairwise different
exactly as long as there are no more than that (`keystream_blocks_nodup_iff`).
-/

namespace SymmetricCrypto.Aes

/-! ## Modes with a record -/

/-- A mode does the same as another one and has more in its register. -/
structure Mode.Records {ρ ρ' : Type} (mode' : Mode ρ') (mode : Mode ρ) (forget : ρ' → ρ) :
    Prop where
  /-- The modes have one name. -/
  name_eq : mode'.name = mode.name
  /-- Their registers start alike. -/
  start_eq : ∀ initial, forget (mode'.start initial) = mode.start initial
  /-- A step does the same to the block and to the register. -/
  step_eq : ∀ k d register block, mode.step k d (forget register) block =
    (mode'.step k d register block).map (Prod.map id forget)

namespace Session

variable {ρ ρ' : Type} {mode' : Mode ρ'} {mode : Mode ρ} {forget : ρ' → ρ}

/-- The session without the record in its register. -/
def forgetting (forget : ρ' → ρ) (s : Session ρ') : Session ρ :=
  { s with register := forget s.register }

/-- The record aside, a session starts as the other one does. -/
theorem forgetting_start (records : mode'.Records mode forget) (key : Key) (direction : Direction)
    (initial : Block) :
    (start mode' key direction initial).forgetting forget = start mode key direction initial := by
  unfold forgetting start
  rw [records.start_eq]

/-- The record has no part in what is refused. -/
theorem refusal_forgetting (records : mode'.Records mode forget) (s : Session ρ') (d : Direction) :
    (s.forgetting forget).refusal mode d = s.refusal mode' d := by
  unfold refusal
  rw [records.name_eq]
  rfl

/-- One block. -/
theorem advance_forget (records : mode'.Records mode forget) (k : Schedule) (d : Direction)
    (state : ρ' × Array UInt8) (block : Block) :
    advance mode k d (Prod.map forget id state) block =
      ((advance mode' k d state block).map (Prod.map forget id)).mapError
        (Prod.map id (Prod.map forget id)) := by
  obtain ⟨register, output⟩ := state
  unfold advance
  simp only [Prod.map_apply, records.step_eq]
  cases mode'.step k d register block <;> rfl

/-- One piece of the data. -/
theorem add_forgetting (records : mode'.Records mode forget) (s : Session ρ') (data : Bytes) :
    (s.forgetting forget).add mode data =
      Prod.map id (Session.forgetting forget) (s.add mode' data) := by
  obtain ⟨k, d, initial, register, pending, output, finished⟩ := s
  have habsorb := Chunker.absorb_map (advance_forget records k d) (register, output) pending data
  rw [Prod.map_apply, id_eq] at habsorb
  cases finished with
  | true =>
    unfold add
    rw [records.name_eq]
    rfl
  | false =>
    unfold add
    simp only [forgetting, Bool.false_eq_true, if_false, habsorb]
    generalize pending.absorb (advance mode' k d) (register, output) data = result
    obtain ⟨_ | _, after⟩ := result <;> rfl

/-- All pieces of the data. -/
theorem addAll_forgetting (records : mode'.Records mode forget) (s : Session ρ')
    (pieces : List Bytes) :
    (s.forgetting forget).addAll mode pieces =
      Prod.map id (Session.forgetting forget) (s.addAll mode' pieces) := by
  induction pieces generalizing s with
  | nil => rfl
  | cons data pieces ih =>
    rw [addAll, addAll, add_forgetting records]
    generalize s.add mode' data = result
    obtain ⟨_ | _, t⟩ := result
    · rfl
    · exact ih t

end Session

namespace Ctr

open Chunker (blocks remainder)
open Session (advance Taken forgetting)
open Standard (blockAt number counterBlock keystream ctr)

/-! ## Counting with a record -/

/-- Counting with a record of the keystream blocks. -/
def recordedMode : Mode (Counter × List Block) where
  name := .ctr
  start initial := (Counter.ofBlock initial, [])
  step k _ register block :=
    (k.encryptBlock register.1.toBlock).map fun keystream =>
      (block.xor keystream, register.1 + 1, register.2 ++ [keystream])

/-- Counting with a record is counting, with more in the register. -/
theorem records_recordedMode : recordedMode.Records mode Prod.fst where
  name_eq := rfl
  start_eq _ := rfl
  step_eq _ _ _ _ := rfl

/-- `flush` with a record. -/
def flushRecorded (s : Session (Counter × List Block)) :
    Except Error Bytes × Session (Counter × List Block) :=
  if s.pending.pending = [] then (.ok s.output.toList, s.finish s.register)
  else
    match s.schedule.encryptBlock s.register.1.toBlock with
    | .error e => (.error e, { s with finished := true })
    | .ok keystream =>
      (.ok (s.output.toList ++ Bytes.xor s.pending.pending keystream.toList),
        s.finish (s.register.1 + 1, s.register.2 ++ [keystream]))

/-- The finalizer of a direction with a record. -/
def finalizeRecorded (d : Direction) (s : Session (Counter × List Block)) :
    Except Error Bytes × Session (Counter × List Block) :=
  match s.refusal recordedMode d with
  | some cause => (.error (.misuse cause), s)
  | none => flushRecorded s

/-- The record aside, the rest is flushed as without it. -/
theorem flush_forgetting (s : Session (Counter × List Block)) :
    flush (s.forgetting Prod.fst) = Prod.map id (forgetting Prod.fst) (flushRecorded s) := by
  unfold flush flushRecorded
  by_cases hempty : s.pending.pending = []
  · rw [if_pos hempty, if_pos (show (s.forgetting Prod.fst).pending.pending = [] from hempty)]
    rfl
  · rw [if_neg hempty, if_neg (show (s.forgetting Prod.fst).pending.pending ≠ [] from hempty)]
    rfl

/-- The finalizer of an encrypting session, which gives the initial block as well. -/
theorem encrypt_forgetting (s : Session (Counter × List Block)) :
    encrypt (s.forgetting Prod.fst) =
      Prod.map (Except.map (⟨·, s.initial⟩)) (forgetting Prod.fst)
        (finalizeRecorded .encrypting s) := by
  unfold encrypt finalizeRecorded
  rw [Session.refusal_forgetting records_recordedMode]
  cases s.refusal recordedMode .encrypting with
  | some cause => rfl
  | none => simp only [flush_forgetting]; rfl

/-- The finalizer of a decrypting session. -/
theorem decrypt_forgetting (s : Session (Counter × List Block)) :
    decrypt (s.forgetting Prod.fst) =
      Prod.map id (forgetting Prod.fst) (finalizeRecorded .decrypting s) := by
  unfold decrypt finalizeRecorded
  rw [Session.refusal_forgetting records_recordedMode]
  cases s.refusal recordedMode .decrypting with
  | some cause => rfl
  | none => exact flush_forgetting s

/-- What a session in a direction makes of data that comes in pieces, and the keystream blocks that it
made. -/
def processRecorded (key : Key) (direction : Direction) (initial : Block) (pieces : List Bytes) :
    Except Error Bytes × List Block :=
  let finalized := (Session.start recordedMode key direction initial).completeAll recordedMode pieces
    (finalizeRecorded direction)
  (finalized.1, finalized.2.register.2)

/-- The record aside, the result is that of counter mode. -/
theorem fst_processRecorded (key : Key) (direction : Direction) (initial : Block)
    (pieces : List Bytes) :
    (processRecorded key direction initial pieces).1 = process key direction initial pieces := by
  have hadd := Session.addAll_forgetting records_recordedMode
    (Session.start recordedMode key direction initial) pieces
  rw [Session.forgetting_start records_recordedMode] at hadd
  unfold processRecorded process
  unfold Session.completeAll
  dsimp only
  rw [hadd]
  generalize (Session.start recordedMode key direction initial).addAll recordedMode pieces = added
  obtain ⟨_ | _, s⟩ := added
  · cases direction <;> rfl
  · cases direction with
    | encrypting =>
      simp only [Prod.map_apply, id_eq, encrypt_forgetting, Prod.map_fst]
      cases (finalizeRecorded .encrypting s).1 <;> rfl
    | decrypting => simp only [Prod.map_apply, id_eq, decrypt_forgetting, Prod.map_fst]

/-! ## The blocks -/

/-- The first keystream blocks from a counter block on. -/
def keystreamBlocks (E : Equiv.Perm Block) (initial : Block) (n : ℕ) : List Block :=
  (List.range n).map fun i => E (counterBlock initial i)

/-- One more block is that of the next counter block. -/
theorem keystreamBlocks_succ (E : Equiv.Perm Block) (initial : Block) (n : ℕ) :
    keystreamBlocks E initial (n + 1) =
      keystreamBlocks E initial n ++ [E (counterBlock initial n)] := by
  rw [keystreamBlocks, List.range_succ, List.map_append]
  rfl

/-- Each block is that of its counter block. -/
theorem getD_keystreamBlocks (E : Equiv.Perm Block) (initial : Block) {n i : ℕ} (hi : i < n)
    (default : Block) : (keystreamBlocks E initial n).getD i default = E (counterBlock initial i) := by
  simp [keystreamBlocks, List.getD_eq_getElem?_getD, hi]

/-- A block comes back after `2^128` blocks, and not before. -/
theorem counterBlock_eq_iff (initial : Block) (i j : ℕ) :
    counterBlock initial i = counterBlock initial j ↔ i ≡ j [MOD 2^128] := by
  constructor
  · intro heq
    have hnumber := congrArg number heq
    rw [number_counterBlock, number_counterBlock] at hnumber
    exact Nat.ModEq.add_left_cancel' (number initial) hnumber
  · intro hmod
    rw [counterBlock, counterBlock, hmod.add_left (number initial)]

/-- The keystream blocks are pairwise different exactly up to `2^128` of them. -/
theorem nodup_keystreamBlocks_iff (E : Equiv.Perm Block) (initial : Block) (n : ℕ) :
    (keystreamBlocks E initial n).Nodup ↔ n ≤ 2^128 := by
  rw [keystreamBlocks, List.nodup_map_iff_inj_on List.nodup_range]
  constructor
  · intro hinj
    by_contra hlong
    -- Block `2^128` is block 0 again.
    have hagain : counterBlock initial (2^128) = counterBlock initial 0 :=
      (counterBlock_eq_iff initial _ _).mpr (Nat.modEq_zero_iff_dvd.mpr dvd_rfl)
    have hzero := hinj (2^128) (List.mem_range.mpr (by omega)) 0 (List.mem_range.mpr (by omega))
      (congrArg E hagain)
    omega
  · intro hshort i hi j hj heq
    have hi' := List.mem_range.mp hi
    have hj' := List.mem_range.mp hj
    have hmod := (counterBlock_eq_iff initial i j).mp (E.injective heq)
    exact hmod.eq_of_lt_of_lt (by omega) (by omega)

/-! ## The record -/

variable {key : Key} {direction : Direction} {initial : Block} {data : Bytes}
  {s : Session (Counter × List Block)}

/-- Counting with a record refuses no block. -/
theorem total_recordedMode : recordedMode.Total := fun _ _ _ _ => ⟨_, rfl⟩

/-- What the register holds after the whole blocks of the data: their keystream blocks, and the next
counter. -/
theorem register_of_taken (taken : Taken recordedMode key direction initial data s) :
    s.register = (Counter.ofBlock initial + BitVec.ofNat 128 (data.length / 16),
      keystreamBlocks key.permutation initial (data.length / 16)) := by
  have hrun := Session.foldlM_advance recordedMode (Schedule.ofKey key) direction (blockAt data)
    (fun i => (Counter.ofBlock initial + BitVec.ofNat 128 i,
      keystreamBlocks key.permutation initial i))
    (fun i => (blockAt data i).xor (key.permutation (counterBlock initial i)))
    (data.length / 16) fun i _ => by
      rw [keystreamBlocks_succ, ← toBlock_add, BitVec.ofNat_add, ← BitVec.add_assoc]
      rfl
  have hstart : recordedMode.start initial = (Counter.ofBlock initial + BitVec.ofNat 128 0,
      keystreamBlocks key.permutation initial 0) := by
    simp [recordedMode, keystreamBlocks]
  have hprogress := taken.progress
  rw [blocks_eq_blockAt, hstart, hrun] at hprogress
  exact (congrArg Prod.fst (Except.ok.inj hprogress)).symm

/-- The finalizer makes one more block for a rest. -/
theorem record_of_taken (taken : Taken recordedMode key direction initial data s) :
    (finalizeRecorded direction s).2.register.2 =
      keystreamBlocks key.permutation initial ((data.length + 15) / 16) := by
  have hregister := register_of_taken taken
  have hrest : s.pending.pending = [] ↔ data.length % 16 = 0 := by
    rw [taken.pending_eq, ← List.length_eq_zero_iff, Chunker.length_remainder]
  rw [finalizeRecorded, taken.refusal_eq]
  dsimp only
  unfold flushRecorded
  by_cases hempty : s.pending.pending = []
  · have hcount : (data.length + 15) / 16 = data.length / 16 := by
      have := hrest.mp hempty
      omega
    rw [if_pos hempty, hcount]
    exact congrArg Prod.snd hregister
  · have hcount : (data.length + 15) / 16 = data.length / 16 + 1 := by
      have := mt hrest.mpr hempty
      omega
    rw [if_neg hempty, hcount, keystreamBlocks_succ, ← toBlock_add, taken.schedule_eq, hregister]
    rfl

/-- However the data is cut, one keystream block is made for each started block of the data. -/
theorem snd_processRecorded (key : Key) (direction : Direction) (initial : Block)
    (pieces : List Bytes) :
    (processRecorded key direction initial pieces).2 =
      keystreamBlocks key.permutation initial ((pieces.flatten.length + 15) / 16) := by
  obtain ⟨s, htaken, hcomplete⟩ := Session.exists_completeAll_eq total_recordedMode key direction
    initial pieces (finalizeRecorded direction)
  unfold processRecorded
  dsimp only
  rw [hcomplete, record_of_taken htaken]

/-- However its data is cut and in either direction, a session of counter mode makes one keystream block
for each started block of its data, the last one included if it is shorter, and sums byte `i` of the data
with byte `i % 16` of keystream block `i / 16`. The keystream blocks are pairwise different exactly if
there are at most `2^128` of them. -/
theorem keystream_blocks_nodup_iff (key : Key) (direction : Direction) (initial : Block)
    (pieces : List Bytes) :
    let made := (processRecorded key direction initial pieces).2
    (processRecorded key direction initial pieces).1 = process key direction initial pieces ∧
    made.length = (pieces.flatten.length + 15) / 16 ∧
    (∃ out, process key direction initial pieces = .ok out ∧
      ∀ i, out[i]? = pieces.flatten[i]?.map
        (· ^^^ (made.getD (i / 16) Block.zero).getD (i % 16) 0)) ∧
    (made.Nodup ↔ (pieces.flatten.length + 15) / 16 ≤ 2^128) := by
  intro made
  have hmade : made = keystreamBlocks key.permutation initial ((pieces.flatten.length + 15) / 16) :=
    snd_processRecorded key direction initial pieces
  refine ⟨fst_processRecorded key direction initial pieces, ?_,
    ⟨_, process_eq key direction initial pieces, fun i => ?_⟩, ?_⟩
  · rw [hmade, keystreamBlocks, List.length_map, List.length_range]
  · rw [getElem?_ctr]
    rcases lt_or_ge i pieces.flatten.length with hi | hi
    · -- The byte lies in a started block.
      have hstarted : i / 16 < (pieces.flatten.length + 15) / 16 := by omega
      rw [hmade, getD_keystreamBlocks _ _ hstarted, getD_eq_getElem _ (Nat.mod_lt i (by decide)) 0]
      rfl
    · rw [List.getElem?_eq_none hi, Option.map_none, Option.map_none]
  · rw [hmade]
    exact nodup_keystreamBlocks_iff _ _ _

end Ctr

end SymmetricCrypto.Aes
