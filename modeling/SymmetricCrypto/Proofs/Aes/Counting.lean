import Mathlib
import SymmetricCrypto.Aes.Ctr
import SymmetricCrypto.Proofs.Aes.Streaming
import SymmetricCrypto.Proofs.Bytes.Words

/-!
# Counting sessions sum the data with the keystream

Whatever the pieces in which data arrives, and in both directions, a session of counter mode sums each
byte with the keystream byte at its position (`stream_eq_standard`). So a second session undoes the
first one, and data that is cut at a block boundary may be processed by two sessions.

The register before block `i` is the initial counter plus `i`, and a counter is written as the standard
writes numbers (`toBlock_add`). The byte at a position is found in the output of the whole blocks or, if
it is in the rest, in what `flush` adds to it.
-/

namespace SymmetricCrypto.Aes.Ctr

open Chunker (blocks remainder)
open Session (advance Taken)
open Standard (blockAt number bigEndian counterBlock keystream ctr)

/-- Blocks can always be summed. -/
theorem total_mode : mode.Total := fun _ _ _ _ => ⟨_, rfl⟩

/-! ## Counters -/

/-- A counter is read from a block as a number is. -/
theorem decode_reverse (block : Block) : LittleEndian.decode block.toList.reverse = number block := by
  -- One sum runs over the bytes from the first one, the other from the last one.
  have hnumber : number block =
      ∑ j ∈ Finset.range 16, (block.toList.getD j 0).toNat * 256^(15 - j) := by
    rw [number, ← Fin.sum_univ_eq_sum_range fun j => (block.toList.getD j 0).toNat * 256^(15 - j)]
    apply Finset.sum_congr rfl
    intro j _
    simp [List.getD_eq_getElem?_getD]
    rfl
  rw [LittleEndian.decode_eq_sum, List.length_reverse, Vector.length_toList, hnumber,
    ← Finset.sum_range_reflect (fun j => (block.toList.getD j 0).toNat * 256^(15 - j))]
  apply Finset.sum_congr rfl
  intro i hi
  have hlt : i < 16 := Finset.mem_range.mp hi
  have hplace : 15 - (15 - i) = i := by omega
  rw [List.getD_eq_getElem?_getD, List.getElem?_reverse (by simpa using hlt), Vector.length_toList,
    List.getD_eq_getElem?_getD, hplace]

/-- A counter is written to a block as a number is. -/
theorem toBlock_eq (c : Counter) : c.toBlock = bigEndian c.toNat := by
  apply Vector.ext
  intro i hi
  simp [Counter.toBlock, bigEndian, LittleEndian.getElem_encode]

/-- The counter of each block, as a number. -/
theorem toNat_ofBlock_add (initial : Block) (i : ℕ) :
    (Counter.ofBlock initial + BitVec.ofNat 128 i).toNat = (number initial + i) % 2^128 := by
  rw [BitVec.toNat_add, BitVec.toNat_ofNat, Counter.ofBlock, BitVec.toNat_ofNat, decode_reverse,
    Nat.mod_add_mod, Nat.add_mod_mod]

/-- The counter of each block, as a block. -/
theorem toBlock_add (initial : Block) (i : ℕ) :
    (Counter.ofBlock initial + BitVec.ofNat 128 i).toBlock = counterBlock initial i := by
  rw [toBlock_eq, toNat_ofBlock_add, counterBlock]

/-- A counter reads back from its block. -/
theorem number_toBlock (c : Counter) : number c.toBlock = c.toNat := by
  have hbytes : c.toBlock.toList.reverse = LittleEndian.encode 16 c.toNat := by
    simp [Counter.toBlock]
  rw [← decode_reverse, hbytes, LittleEndian.decode_encode]
  exact Nat.mod_eq_of_lt c.isLt

/-- The number in a counter block. -/
theorem number_counterBlock (initial : Block) (i : ℕ) :
    number (counterBlock initial i) = (number initial + i) % 2^128 := by
  rw [← toBlock_add, number_toBlock, toNat_ofBlock_add]

/-- Counters that follow a later counter follow the first one. -/
theorem counterBlock_counterBlock (initial : Block) (m i : ℕ) :
    counterBlock (counterBlock initial m) i = counterBlock initial (m + i) := by
  rw [counterBlock, number_counterBlock, counterBlock, Nat.mod_add_mod, Nat.add_assoc]

/-! ## The output -/

variable {key : Key} {direction : Direction} {initial : Block} {data : Bytes} {s : Session Counter}

/-- A byte of the data that is summed with the keystream. -/
theorem getElem?_ctr (E : Equiv.Perm Block) (initial : Block) (data : Bytes) (i : ℕ) :
    (ctr E initial data)[i]? = data[i]?.map (· ^^^ keystream E initial i) := by
  rw [ctr, List.getElem?_mapIdx]

/-- The whole blocks of the data, each summed with its keystream block, are the start of the data,
summed with the keystream. -/
theorem flatMap_xor (E : Equiv.Perm Block) (initial : Block) (data : Bytes) :
    ((List.range (data.length / 16)).flatMap fun i =>
        ((blockAt data i).xor (E (counterBlock initial i))).toList) =
      (ctr E initial data).take (16 * (data.length / 16)) := by
  -- Of the left side, only the length and the blocks matter: the sides are compared byte by byte.
  have hlength : ((List.range (data.length / 16)).flatMap fun i =>
      ((blockAt data i).xor (E (counterBlock initial i))).toList).length =
        16 * (data.length / 16) := by
    simp [List.length_flatMap, Nat.mul_comm]
  have hblock : ∀ i < data.length / 16, blockAt ((List.range (data.length / 16)).flatMap fun i =>
      ((blockAt data i).xor (E (counterBlock initial i))).toList) i =
        (blockAt data i).xor (E (counterBlock initial i)) := fun i hi =>
    blockAt_flatMap (fun i => (blockAt data i).xor (E (counterBlock initial i))) hi
  generalize (List.range (data.length / 16)).flatMap (fun i =>
      ((blockAt data i).xor (E (counterBlock initial i))).toList) = whole at *
  apply List.ext_getElem?
  intro i
  rcases lt_or_ge i (16 * (data.length / 16)) with hi | hi
  · -- The byte lies in block `i / 16`.
    have hplace : 16 * (i / 16) + i % 16 = i := Nat.div_add_mod i 16
    have hbyte := congrArg (fun b : Block => b[i % 16]) (hblock (i / 16) (by omega))
    simp only [blockAt, Block.xor, Vector.getElem_zipWith, Vector.getElem_ofFn, hplace] at hbyte
    have hdata : i < data.length := by omega
    have hwhole : i < whole.length := by omega
    rw [List.getD_eq_getElem _ _ hwhole, List.getD_eq_getElem _ _ hdata] at hbyte
    rw [List.getElem?_take_of_lt hi, getElem?_ctr, List.getElem?_eq_getElem hwhole,
      List.getElem?_eq_getElem hdata, hbyte]
    rfl
  · rw [List.getElem?_eq_none (by omega), List.getElem?_eq_none]
    rw [List.length_take]
    omega

/-- The rest of the data is summed with the start of the next keystream block. -/
theorem drop_ctr (E : Equiv.Perm Block) (initial : Block) (data : Bytes) :
    (ctr E initial data).drop (16 * (data.length / 16)) =
      Bytes.xor (remainder 16 data) (E (counterBlock initial (data.length / 16))).toList := by
  apply List.ext_getElem?
  intro i
  rw [List.getElem?_drop, getElem?_ctr, Bytes.xor, List.getElem?_zipWith, remainder,
    List.getElem?_drop]
  rcases lt_or_ge (16 * (data.length / 16) + i) data.length with hi | hi
  · have hlt : i < 16 := by omega
    have hdiv : (16 * (data.length / 16) + i) / 16 = data.length / 16 := by omega
    have hmod : (16 * (data.length / 16) + i) % 16 = i := by omega
    rw [List.getElem?_eq_getElem hi, List.getElem?_eq_getElem (by simpa using hlt), keystream]
    simp only [hdiv, hmod, Option.map_some, Vector.getElem_toList]
  · rw [List.getElem?_eq_none hi]
    rfl

/-- The run over the whole blocks of the data. -/
theorem run_data (key : Key) (direction : Direction) (initial : Block) (data : Bytes) :
    (blocks 16 data).foldlM (advance mode (Schedule.ofKey key) direction)
        (Counter.ofBlock initial + BitVec.ofNat 128 0, #[]) =
      .ok (Counter.ofBlock initial + BitVec.ofNat 128 (data.length / 16),
        ((ctr key.permutation initial data).take (16 * (data.length / 16))).toArray) := by
  rw [blocks_eq_blockAt, ← flatMap_xor]
  -- The register before a block is its counter.
  refine Session.foldlM_advance mode (Schedule.ofKey key) direction (blockAt data)
    (fun i => Counter.ofBlock initial + BitVec.ofNat 128 i)
    (fun i => (blockAt data i).xor (key.permutation (counterBlock initial i)))
    (data.length / 16) fun i _ => ?_
  rw [← toBlock_add, BitVec.ofNat_add, ← BitVec.add_assoc]
  rfl

/-- The finalizers give the data, summed with the keystream. -/
theorem flush_of_taken (taken : Taken mode key direction initial data s) :
    ∃ register, flush s = (.ok (ctr key.permutation initial data), s.finish register) := by
  have hrun : (blocks 16 data).foldlM (advance mode (Schedule.ofKey key) direction)
      (Counter.ofBlock initial + BitVec.ofNat 128 0, #[]) = .ok (s.register, s.output) := by
    rw [← taken.progress]
    simp [mode]
  rw [run_data] at hrun
  obtain ⟨hregister, houtput⟩ := Prod.mk.inj (Except.ok.inj hrun)
  -- The output is the start of the summed data, and the next counter is in the register.
  have hstart : s.output.toList =
      (ctr key.permutation initial data).take (16 * (data.length / 16)) := by rw [← houtput]
  have hwhole : s.output.toList ++ Bytes.xor s.pending.pending
      (s.schedule.encrypt s.register.toBlock).toList = ctr key.permutation initial data := by
    rw [hstart, taken.pending_eq, taken.schedule_eq, ← hregister, toBlock_add]
    conv_rhs => rw [← List.take_append_drop (16 * (data.length / 16)) (ctr _ _ _), drop_ctr]
    rfl
  unfold flush
  split_ifs with hrest
  · -- Without a rest, nothing is added.
    rw [hrest, Bytes.xor, List.zipWith_nil_left, List.append_nil] at hwhole
    exact ⟨s.register, by rw [hwhole]⟩
  · exact ⟨s.register + 1, by simp only [Schedule.encryptBlock_eq, hwhole]⟩

/-- The finalizer of an encrypting session. -/
theorem encrypt_of_taken (taken : Taken mode key .encrypting initial data s) :
    ∃ register, encrypt s =
      (.ok ⟨ctr key.permutation initial data, initial⟩, s.finish register) := by
  obtain ⟨register, hflush⟩ := flush_of_taken taken
  refine ⟨register, ?_⟩
  rw [encrypt, taken.refusal_eq]
  simp only [hflush, taken.initial_eq]
  rfl

/-- The finalizer of a decrypting session. -/
theorem decrypt_of_taken (taken : Taken mode key .decrypting initial data s) :
    ∃ register, decrypt s = (.ok (ctr key.permutation initial data), s.finish register) := by
  obtain ⟨register, hflush⟩ := flush_of_taken taken
  refine ⟨register, ?_⟩
  rw [decrypt, taken.refusal_eq]
  exact hflush

/-! ## Sessions -/

/-- What a session in a direction makes of data that comes in pieces. -/
def process (key : Key) (direction : Direction) (initial : Block) (pieces : List Bytes) :
    Except Error Bytes :=
  let s := Session.start mode key direction initial
  match direction with
  | .encrypting => (s.completeAll mode pieces encrypt).1.map Sealed.ciphertext
  | .decrypting => (s.completeAll mode pieces decrypt).1

/-- Whatever the pieces, an encrypting session gives the data, summed with the keystream. -/
theorem completeAll_encrypt (key : Key) (initial : Block) (pieces : List Bytes) :
    ((Session.start mode key .encrypting initial).completeAll mode pieces encrypt).1 =
      .ok ⟨ctr key.permutation initial pieces.flatten, initial⟩ := by
  obtain ⟨s, htaken, hcomplete⟩ :=
    Session.exists_completeAll_eq total_mode key .encrypting initial pieces encrypt
  obtain ⟨register, hencrypt⟩ := encrypt_of_taken htaken
  rw [hcomplete, hencrypt]

/-- Whatever the pieces, a session in either direction sums the data with the keystream. -/
theorem process_eq (key : Key) (direction : Direction) (initial : Block) (pieces : List Bytes) :
    process key direction initial pieces = .ok (ctr key.permutation initial pieces.flatten) := by
  cases direction with
  | encrypting =>
    rw [process, completeAll_encrypt]
    rfl
  | decrypting =>
    obtain ⟨s, htaken, hcomplete⟩ :=
      Session.exists_completeAll_eq total_mode key .decrypting initial pieces decrypt
    obtain ⟨register, hdecrypt⟩ := decrypt_of_taken htaken
    rw [process, hcomplete, hdecrypt]

/-- The keystream added twice cancels. -/
theorem ctr_ctr (E : Equiv.Perm Block) (initial : Block) (data : Bytes) :
    ctr E initial (ctr E initial data) = data := by
  apply List.ext_getElem?
  intro i
  rw [getElem?_ctr, getElem?_ctr]
  cases data[i]? with
  | none => rfl
  | some byte => simp

/-- Whole blocks further, the keystream is that of a later counter. -/
theorem ctr_append (E : Equiv.Perm Block) (initial : Block) {a : Bytes} (h : a.length % 16 = 0)
    (b : Bytes) :
    ctr E initial (a ++ b) =
      ctr E initial a ++ ctr E (counterBlock initial (a.length / 16)) b := by
  have hlength : (ctr E initial a).length = a.length := List.length_mapIdx
  apply List.ext_getElem?
  intro i
  rcases lt_or_ge i a.length with hi | hi
  · rw [getElem?_ctr, List.getElem?_append_left hi, List.getElem?_append_left (by rwa [hlength]),
      getElem?_ctr]
  · obtain ⟨j, rfl⟩ := Nat.exists_eq_add_of_le hi
    have hdiv : (a.length + j) / 16 = a.length / 16 + j / 16 := by omega
    have hmod : (a.length + j) % 16 = j % 16 := by omega
    have hkeystream : keystream E initial (a.length + j) =
        keystream E (counterBlock initial (a.length / 16)) j := by
      simp only [keystream, counterBlock_counterBlock, hdiv, hmod]
    rw [getElem?_ctr, List.getElem?_append_right hi,
      List.getElem?_append_right (by rw [hlength]; exact hi), hlength, Nat.add_sub_cancel_left,
      getElem?_ctr, hkeystream]

/-- A session of counter mode sums each byte of its data with the keystream byte at its position,
however the data is cut and in either direction; an encrypting one also gives the initial counter. So
a session in either direction undoes another one, and what follows whole blocks is processed as by a
session that starts from the counter after them. -/
theorem stream_eq_standard (key : Key) (initial : Block) (pieces : List Bytes) :
    (∀ direction, ∃ out, process key direction initial pieces = .ok out ∧
      out.length = pieces.flatten.length ∧
      ∀ i, out[i]? = pieces.flatten[i]?.map (· ^^^ keystream key.permutation initial i)) ∧
    (∃ out, ((Session.start mode key .encrypting initial).completeAll mode pieces encrypt).1 =
      .ok ⟨out, initial⟩) ∧
    (∀ direction direction' out pieces', process key direction initial pieces = .ok out →
      pieces'.flatten = out → process key direction' initial pieces' = .ok pieces.flatten) ∧
    (∀ direction (a b : List Bytes), pieces.flatten = a.flatten ++ b.flatten →
      a.flatten.length % 16 = 0 →
      process key direction initial pieces = do
        let first ← process key direction initial a
        let second ← process key direction (counterBlock initial (a.flatten.length / 16)) b
        pure (first ++ second)) := by
  refine ⟨fun direction => ⟨_, process_eq key direction initial pieces, ?_, fun i => ?_⟩,
    ⟨_, completeAll_encrypt key initial pieces⟩, ?_, ?_⟩
  · rw [ctr, List.length_mapIdx]
  · exact getElem?_ctr _ _ _ i
  · rintro direction direction' out pieces' hout rfl
    rw [process_eq] at hout
    rw [process_eq, ← Except.ok.inj hout, ctr_ctr]
  · intro direction a b hpieces haligned
    rw [process_eq, process_eq, process_eq, hpieces, ctr_append _ _ haligned]
    rfl

end SymmetricCrypto.Aes.Ctr
