import Mathlib
import SymmetricCrypto.Proofs.Bytes.Words

/-!
# Words written over bytes, and bytes over words

`overwriteBytes` writes words over the whole groups of four bytes of a string, and `overwriteWords`
writes the whole groups of a string over words. Either stops where one of the two sides ends, so as
many words are written as both have (`common`), and what is behind them stays
(`overwriteBytes_eq_append`, `overwriteWords_eq_append`).

The two are inverse as far as they go. Words that were written are read back (`readWords_flatMap`),
and so are the bytes of words that were read (`flatMap_readWords`). Where the lengths match, nothing is
left of what was there, and the two are the codec of words of a fixed number that the ciphers run
(`overwriteWords_toList`, `overwriteBytes_toList`). `overwrite_inverse` puts these together, for strings
and lists of any two lengths.
-/

namespace SymmetricCrypto.LittleEndian

/-! ## Single words -/

/-- A word is read from its bytes, whatever is behind them. -/
theorem wordAt_wordBytes_append (w : UInt32) (rest : Bytes) :
    wordAt (wordBytes w ++ rest) 0 = w := by
  rw [wordAt, List.drop_zero, List.take_left' (length_wordBytes w), decode_wordBytes,
    UInt32.ofNat_toNat]

/-- The bytes of a word that is read are those at its position. -/
theorem wordBytes_wordAt {data : Bytes} {start : ℕ} (h : start + 4 ≤ data.length) :
    wordBytes (wordAt data start) = (data.drop start).take 4 := by
  have hlength : ((data.drop start).take 4).length = 4 := by
    rw [List.length_take, List.length_drop]
    omega
  have hback := encode_decode ((data.drop start).take 4)
  rwa [hlength, ← toNat_wordAt] at hback

/-! ## The words of a string -/

/-- The first `n` words of a byte string. -/
def readWords (n : ℕ) (data : Bytes) : List UInt32 :=
  (List.range n).map fun i => wordAt data (4 * i)

/-- As many words as are asked for. -/
@[simp] theorem length_readWords (n : ℕ) (data : Bytes) : (readWords n data).length = n := by
  rw [readWords, List.length_map, List.length_range]

/-- Each word is read at its place. -/
theorem getElem?_readWords {n i : ℕ} (hi : i < n) (data : Bytes) :
    (readWords n data)[i]? = some (wordAt data (4 * i)) := by
  rw [readWords, List.getElem?_map, List.getElem?_range hi, Option.map_some]

/-- The first word, and the words of the bytes behind it. -/
theorem readWords_succ (n : ℕ) (data : Bytes) :
    readWords (n + 1) data = wordAt data 0 :: readWords n (data.drop 4) := by
  have hnext (i : ℕ) : wordAt data (4 * (i + 1)) = wordAt (data.drop 4) (4 * i) := by
    rw [wordAt, wordAt, List.drop_drop, Nat.mul_succ, Nat.add_comm]
  rw [readWords, List.range_succ_eq_map, List.map_cons, List.map_map]
  exact congrArg (_ :: ·) (List.map_congr_left fun i _ => hnext i)

/-- Words that were written are read back. -/
theorem readWords_flatMap (ws : List UInt32) (rest : Bytes) :
    readWords ws.length (ws.flatMap wordBytes ++ rest) = ws := by
  induction ws with
  | nil => rfl
  | cons w ws ih =>
    rw [List.flatMap_cons, List.append_assoc, List.length_cons, readWords_succ,
      wordAt_wordBytes_append, List.drop_left' (length_wordBytes w), ih]

/-- The bytes of words that were read are those of the string. -/
theorem flatMap_readWords {n : ℕ} {data : Bytes} (h : 4 * n ≤ data.length) :
    (readWords n data).flatMap wordBytes = data.take (4 * n) := by
  induction n generalizing data with
  | zero => rfl
  | succ n ih =>
    have hrest : 4 * n ≤ (data.drop 4).length := by
      rw [List.length_drop]
      omega
    have hsum : 4 * (n + 1) = 4 + 4 * n := by omega
    rw [readWords_succ, List.flatMap_cons, ih hrest, wordBytes_wordAt (by omega), List.drop_zero,
      hsum, List.take_add]

/-- The first of some words are as many words. -/
theorem take_readWords {m n : ℕ} (h : n ≤ m) (data : Bytes) :
    (readWords m data).take n = readWords n data := by
  rw [readWords, readWords, ← List.map_take, List.take_range, Nat.min_eq_left h]

/-- The words of a vector are the first words of its bytes. -/
theorem toList_words (n : ℕ) (bs : Vector UInt8 (4 * n)) :
    (words n bs).toList = readWords n bs.toList := by
  refine List.ext_getElem (by simp) fun i hi _ => ?_
  rw [Vector.getElem_toList, getElem_words]
  simp only [readWords, List.getElem_map, List.getElem_range]

/-! ## What is written -/

/-- As many words as a list and a byte string both have. A last group of less than four bytes does
not count. -/
def common (ws : List UInt32) (data : Bytes) : ℕ := min ws.length (data.length / 4)

/-- There are as many words. -/
theorem common_le_length (ws : List UInt32) (data : Bytes) : common ws data ≤ ws.length :=
  Nat.min_le_left _ _

/-- There are four bytes for each of them. -/
theorem four_mul_common_le (ws : List UInt32) (data : Bytes) :
    4 * common ws data ≤ data.length := by
  unfold common
  omega

/-- Where a word is common, there is one, and a group of four bytes. -/
theorem exists_cons_of_common_eq_succ {ws : List UInt32} {data : Bytes} {n : ℕ}
    (h : common ws data = n + 1) :
    ∃ w ws', ws = w :: ws' ∧ 4 ≤ data.length ∧ common ws' (data.drop 4) = n := by
  cases ws with
  | nil => simp [common] at h
  | cons w ws' =>
    unfold common at h
    rw [List.length_cons] at h
    refine ⟨w, ws', rfl, by omega, ?_⟩
    unfold common
    rw [List.length_drop]
    omega

/-- Where nothing is common, nothing is written. -/
theorem overwrite_of_common_eq_zero {ws : List UInt32} {data : Bytes} (h : common ws data = 0) :
    overwriteWords data ws = ws ∧ overwriteBytes ws data = data := by
  -- A step of either loop would take a word and a group of four bytes.
  have hnone (a b c d : UInt8) (rest : Bytes) (w : UInt32) (ws' : List UInt32)
      (hdata : data = a :: b :: c :: d :: rest) (hws : ws = w :: ws') : False := by
    rw [hdata, hws, common] at h
    simp only [List.length_cons] at h
    omega
  constructor
  · rw [overwriteWords]
    exact hnone
  · rw [overwriteBytes]
    exact fun w ws' a b c d rest hws hdata => hnone a b c d rest w ws' hdata hws

/-- One step of both loops: a word and a group of four bytes are passed. -/
theorem overwrite_cons (w : UInt32) (ws : List UInt32) {data : Bytes} (h : 4 ≤ data.length) :
    overwriteWords data (w :: ws) = wordAt data 0 :: overwriteWords (data.drop 4) ws ∧
      overwriteBytes (w :: ws) data = wordBytes w ++ overwriteBytes ws (data.drop 4) := by
  match data with
  | [] | [_] | [_, _] | [_, _, _] => simp at h
  | _ :: _ :: _ :: _ :: _ => exact ⟨rfl, rfl⟩

/-- The first words are those of the string, and the others are those that were there. -/
theorem overwriteWords_eq_append {ws : List UInt32} {data : Bytes} {n : ℕ}
    (h : common ws data = n) : overwriteWords data ws = readWords n data ++ ws.drop n := by
  -- The induction is on the number of steps. What is left after one has one word less in common.
  induction n generalizing ws data with
  | zero => exact (overwrite_of_common_eq_zero h).1
  | succ n ih =>
    obtain ⟨w, ws, rfl, hgroup, hrest⟩ := exists_cons_of_common_eq_succ h
    rw [(overwrite_cons w ws hgroup).1, ih hrest, readWords_succ, List.cons_append,
      List.drop_succ_cons]

/-- The first bytes are those of the words, and the others are those that were there. -/
theorem overwriteBytes_eq_append {ws : List UInt32} {data : Bytes} {n : ℕ}
    (h : common ws data = n) :
    overwriteBytes ws data = (ws.take n).flatMap wordBytes ++ data.drop (4 * n) := by
  induction n generalizing ws data with
  | zero => exact (overwrite_of_common_eq_zero h).2
  | succ n ih =>
    obtain ⟨w, ws, rfl, hgroup, hrest⟩ := exists_cons_of_common_eq_succ h
    rw [(overwrite_cons w ws hgroup).2, ih hrest, List.take_succ_cons, List.flatMap_cons,
      List.append_assoc, List.drop_drop, Nat.mul_succ, Nat.add_comm 4]

/-- The words of a fixed number of bytes replace as many words that were there. -/
theorem overwriteWords_toList {n : ℕ} (bs : Vector UInt8 (4 * n)) {ws : List UInt32}
    (h : ws.length = n) : overwriteWords bs.toList ws = (words n bs).toList := by
  have hall : common ws bs.toList = n := by
    rw [common, h, Vector.length_toList]
    omega
  rw [overwriteWords_eq_append hall, List.drop_of_length_le h.le, List.append_nil, toList_words]

/-- The bytes of a fixed number of words replace as many bytes that were there. -/
theorem overwriteBytes_toList {n : ℕ} (ws : Vector UInt32 n) {data : Bytes}
    (h : data.length = 4 * n) : overwriteBytes ws.toList data = (ofWords ws).toList := by
  have hall : common ws.toList data = n := by
    rw [common, h, Vector.length_toList]
    omega
  rw [overwriteBytes_eq_append hall, List.take_of_length_le ws.length_toList.le,
    List.drop_of_length_le h.le, List.append_nil, toList_ofWords]

/-! ## Back and forth -/

/-- A list changes in its first `n` entries at most: it stays as long, and from entry `n` on it
stays the same. -/
def ChangesWithin {α : Type} (n : ℕ) (before after : List α) : Prop :=
  after.length = before.length ∧ after.drop n = before.drop n

/-- The first entries are replaced by as many others. -/
theorem changesWithin_append {α : Type} {n : ℕ} {before first : List α} (hn : n ≤ before.length)
    (hfirst : first.length = n) : ChangesWithin n before (first ++ before.drop n) := by
  constructor
  · rw [List.length_append, List.length_drop, hfirst, Nat.add_sub_cancel' hn]
  · exact List.drop_left' hfirst

/-- Each word takes four bytes. -/
theorem length_flatMap_wordBytes (ws : List UInt32) :
    (ws.flatMap wordBytes).length = 4 * ws.length := by
  simp only [List.length_flatMap, length_wordBytes, List.map_const', List.sum_replicate,
    smul_eq_mul, Nat.mul_comm]

/-- A byte string changes within the words that are written over it. -/
theorem changesWithin_overwriteBytes (ws : List UInt32) (data : Bytes) :
    ChangesWithin (4 * common ws data) data (overwriteBytes ws data) := by
  rw [overwriteBytes_eq_append rfl]
  apply changesWithin_append (four_mul_common_le ws data)
  rw [length_flatMap_wordBytes, List.length_take_of_le (common_le_length ws data)]

/-- Words change within the groups that are written over them. -/
theorem changesWithin_overwriteWords (data : Bytes) (ws : List UInt32) :
    ChangesWithin (common ws data) ws (overwriteWords data ws) := by
  rw [overwriteWords_eq_append rfl]
  exact changesWithin_append (common_le_length ws data) (length_readWords _ data)

/-- Up to what is common, the first words are read from the string. -/
theorem take_overwriteWords {data : Bytes} {ws : List UInt32} {n : ℕ} (h : n ≤ common ws data) :
    (overwriteWords data ws).take n = readWords n data := by
  rw [overwriteWords_eq_append rfl, List.take_append_of_le_length (by rwa [length_readWords]),
    take_readWords h]

/-- The words that were written are read from the string. -/
theorem readWords_overwriteBytes (ws : List UInt32) (data : Bytes) :
    readWords (common ws data) (overwriteBytes ws data) = ws.take (common ws data) := by
  have hwritten := readWords_flatMap (ws.take (common ws data)) (data.drop (4 * common ws data))
  rwa [← overwriteBytes_eq_append rfl, List.length_take_of_le (common_le_length ws data)]
    at hwritten

/-- A word that was written is read at its place. -/
theorem getElem?_eq_wordAt_overwriteBytes {ws : List UInt32} {data : Bytes} {i : ℕ}
    (hi : i < common ws data) :
    ws[i]? = some (wordAt (overwriteBytes ws data) (4 * i)) := by
  rw [← getElem?_readWords hi, readWords_overwriteBytes, List.getElem?_take_of_lt hi]

/-- Words are written over a byte string as far as both last, each as a little-endian number, and
the whole groups of a byte string over words in the same way. Either leaves what is behind as it
was. The words that were written are read back into any list that has room for them, and the words
that were read give the bytes back in any string that has room for them. If there are four bytes for
each word, all are replaced, and both ways are those of words of a fixed number. -/
theorem overwrite_inverse (data : Bytes) (ws : List UInt32) :
    let n := min ws.length (data.length / 4)
    ChangesWithin (4 * n) data (overwriteBytes ws data) ∧
    (∀ i < n, decode (((overwriteBytes ws data).drop (4 * i)).take 4) = (ws.getD i 0).toNat) ∧
    ChangesWithin n ws (overwriteWords data ws) ∧
    (∀ target : List UInt32, n ≤ target.length →
      (overwriteWords (overwriteBytes ws data) target).take n = ws.take n) ∧
    (∀ (target : List UInt32) (buffer : Bytes), n ≤ target.length → 4 * n ≤ buffer.length →
      (overwriteBytes ((overwriteWords data target).take n) buffer).take (4 * n) =
        data.take (4 * n)) ∧
    ∀ (m : ℕ) (bytes : Vector UInt8 (4 * m)) (fixed : Vector UInt32 m),
      bytes.toList = data → fixed.toList = ws →
      overwriteWords data ws = (words m bytes).toList ∧
        overwriteBytes ws data = (ofWords fixed).toList := by
  intro n
  have hbytes : 4 * n ≤ data.length := four_mul_common_le ws data
  -- Read back, the stored bytes are the words.
  have hstored : readWords n (overwriteBytes ws data) = ws.take n :=
    readWords_overwriteBytes ws data
  refine ⟨changesWithin_overwriteBytes ws data, fun i hi => ?_,
    changesWithin_overwriteWords data ws, fun target htarget => ?_,
    fun target buffer htarget hbuffer => ?_, fun m bytes fixed hdata hws => ?_⟩
  · rw [← toNat_wordAt, List.getD_eq_getElem?_getD, getElem?_eq_wordAt_overwriteBytes hi,
      Option.getD_some]
  · -- The stored bytes are as many as before, so they fill the target as far as the data did.
    have hcommon : n ≤ common target (overwriteBytes ws data) := by
      unfold common
      rw [(changesWithin_overwriteBytes ws data).1]
      omega
    rw [take_overwriteWords hcommon, hstored]
  · -- The words that were read are all written, so the bytes are theirs.
    have hread : n ≤ common target data := by
      unfold common
      omega
    have hwrite : common (readWords n data) buffer = n := by
      rw [common, length_readWords]
      omega
    have hall : (readWords n data).take n = readWords n data := take_readWords le_rfl data
    have hlength : ((readWords n data).flatMap wordBytes).length = 4 * n := by
      rw [length_flatMap_wordBytes, length_readWords]
    rw [take_overwriteWords hread, overwriteBytes_eq_append hwrite, hall, List.take_left' hlength,
      flatMap_readWords hbytes]
  · subst hdata hws
    exact ⟨overwriteWords_toList bytes fixed.length_toList,
      overwriteBytes_toList fixed bytes.length_toList⟩

/-- An instance with two words over three groups and three more bytes. Both the list and the string
that take them back have more room, and the string ends within a group. One word over one group is
the last instance. -/
theorem overwrite_inverse_ragged :
    let data : Bytes := [1, 2, 3, 4, 5, 6, 7, 8, 9, 10, 11, 12, 13, 14, 15]
    let ws : List UInt32 := [0x64636261, 0xfffffffe]
    let target : List UInt32 := [7, 7, 7, 7]
    let buffer : Bytes := List.replicate 10 0
    1 < 2 ∧ 2 ≤ target.length ∧ 8 ≤ buffer.length ∧
      overwriteBytes ws data = [97, 98, 99, 100, 254, 255, 255, 255, 9, 10, 11, 12, 13, 14, 15] ∧
      decode (((overwriteBytes ws data).drop 4).take 4) = 0xfffffffe ∧
      (overwriteWords (overwriteBytes ws data) target).take 2 = ws ∧
      (overwriteBytes ((overwriteWords data target).take 2) buffer).take 8 =
        [1, 2, 3, 4, 5, 6, 7, 8] ∧
      (#v[1, 2, 3, 4] : Vector UInt8 4).toList = [1, 2, 3, 4] ∧
      (#v[7] : Vector UInt32 1).toList = [7] ∧
      overwriteWords [1, 2, 3, 4] [7] = (words 1 #v[1, 2, 3, 4]).toList ∧
      overwriteBytes [7] [1, 2, 3, 4] = (ofWords #v[7]).toList := by
  intro data ws target buffer
  have hn : min ws.length (data.length / 4) = 2 := by decide
  have h := overwrite_inverse data ws
  simp only [hn] at h
  obtain ⟨-, hnumber, -, hwords, hbytes, -⟩ := h
  obtain ⟨-, -, -, -, -, hfixed⟩ := overwrite_inverse [1, 2, 3, 4] [7]
  exact ⟨by decide, by decide, by decide, by decide, hnumber 1 (by decide),
    hwords target (by decide), hbytes target buffer (by decide) (by decide), rfl, rfl,
    hfixed 1 #v[1, 2, 3, 4] #v[7] rfl rfl⟩

end SymmetricCrypto.LittleEndian
