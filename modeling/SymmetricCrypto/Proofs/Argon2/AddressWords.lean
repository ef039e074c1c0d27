import Mathlib
import SymmetricCrypto.Proofs.Argon2.Addresses
import SymmetricCrypto.Proofs.Argon2.CheckedChoice

/-!
# The words of a stream that is read in order

A segment asks its address stream for the words of consecutive indices, beginning at zero or two. The
stream has a state, and it makes a new address block for two reasons, at its first use and whenever the
index begins another 128. Read in order, one reason or the other holds for each block exactly once,
wherever the first 128 indices are entered. So the words are a function of the index (`readAll_reached`),
and the counter of the blocks never goes around (`readAllChecked_reached`).

`readAll_start` says it of a stream from its start: the word for the index `i` is word `i % 128` of the
standard's address block with number `i / 128 + 1`.
-/

namespace SymmetricCrypto.Argon2.AddressStream

/-- The words for the indices, one after the other, and the stream after them. -/
def readAll (s : AddressStream) : List UInt32 → List UInt64 × AddressStream
  | [] => ([], s)
  | index :: rest =>
    let first := s.next index
    let others := first.2.readAll rest
    (first.1 :: others.1, others.2)

/-- `readAll` with its operations checked. -/
def readAllChecked (s : AddressStream) : List UInt32 → Checked (List UInt64 × AddressStream)
  | [] => pure ([], s)
  | index :: rest => do
    let first ← s.nextChecked index
    let others ← first.2.readAllChecked rest
    return (first.1 :: others.1, others.2)

section Reached

variable (origin : Vector UInt64 6) {first : ℕ} (hfirst : first < 128)
include hfirst

/-- Reading the next index gives its word. -/
theorem next_reached_ofNat {index : ℕ} (hle : first ≤ index) (hlt : index < 2^32) :
    (reached origin first index).next (UInt32.ofNat index) =
      (wordAt origin index, reached origin first (index + 1)) := by
  have hindex : (UInt32.ofNat index).toNat = index := by
    rw [UInt32.toNat_ofNat', Nat.mod_eq_of_lt hlt]
  have hnext := next_reached origin first (UInt32.ofNat index) hfirst (by rwa [hindex])
  rwa [hindex] at hnext

/-- From any index on that was reached in order, the words are those of the standard's blocks. -/
theorem readAll_reached {index n : ℕ} (hle : first ≤ index) (hfits : index + n ≤ 2^32) :
    (reached origin first index).readAll ((List.range' index n).map UInt32.ofNat) =
      ((List.range' index n).map (wordAt origin), reached origin first (index + n)) := by
  induction n generalizing index with
  | zero => rfl
  | succ n ih =>
    rw [List.range'_succ, List.map_cons, readAll, next_reached_ofNat origin hfirst hle (by omega),
      ih (by omega) (by omega), List.map_cons, Nat.add_right_comm, Nat.add_assoc]

/-- No word meets a fault: the counter is at most one more than the index. -/
theorem readAllChecked_reached {index n : ℕ} (hle : first ≤ index) (hfits : index + n ≤ 2^32) :
    (reached origin first index).readAllChecked ((List.range' index n).map UInt32.ofNat) =
      pure ((reached origin first index).readAll ((List.range' index n).map UInt32.ofNat)) := by
  induction n generalizing index with
  | zero => rfl
  | succ n ih =>
    have hcounter := toNat_counter_reached_le origin first index
    rw [List.range'_succ, List.map_cons, readAllChecked, nextChecked_eq (by omega), pure_bind, readAll,
      next_reached_ofNat origin hfirst hle (by omega), ih (by omega) (by omega), pure_bind]

end Reached

/-- For every layout, position, number of passes and variant, a stream that is read from its start for
consecutive indices, from any index below 128 on, meets no fault. The word for the index `i` is word
`i % 128` of the address block with number `i / 128 + 1`, which the standard makes from the position, the
number of blocks, the number of passes, the variant and its own number. -/
theorem readAll_start (l : Layout) (p : Position) (passes : UInt32) (v : Variant) (first n : ℕ)
    (hfirst : first < 128) (hfits : first + n ≤ 2^32) :
    let stream := start l p passes v
    let indices := (List.range' first n).map UInt32.ofNat
    let setting := Plan.setting ⟨l, passes, v⟩
    stream.readAllChecked indices = pure (stream.readAll indices) ∧
      (stream.readAll indices).1 = (List.range' first n).map fun i =>
        (setting.addressBlock p.pass.toNat p.lane.toNat p.slice.toNat (i / 128 + 1)).getD (i % 128)
          0 := by
  intro stream indices setting
  have hstart : stream = reached stream.origin first first := start_eq_reached l p passes v first
  have hchecked := readAllChecked_reached stream.origin hfirst le_rfl hfits
  have hwords := readAll_reached stream.origin hfirst le_rfl hfits
  rw [← hstart] at hchecked hwords
  refine ⟨hchecked, (congrArg Prod.fst hwords).trans (List.map_congr_left fun i _ => ?_)⟩
  unfold wordAt
  rw [addressBlock_eq_standard ⟨l, passes, v⟩ p]

/-- The first segment of a lane of 1024 blocks, whose words begin at index two: the last word of the first
address block is followed by the first word of the second one. -/
theorem readAll_start_second_block :
    let l := Layout.ofMemory 1024 1
    let p : Position := ⟨0, 0, 0⟩
    let words := ((start l p 3 .argon2i).readAll ((List.range' 2 254).map UInt32.ofNat)).1
    let block (number : ℕ) := (Plan.setting ⟨l, 3, .argon2i⟩).addressBlock 0 0 0 number
    2 < 128 ∧ 2 + 254 ≤ 2^32 ∧
      words[125]? = some ((block 1).getD 127 0) ∧ words[126]? = some ((block 2).getD 0 0) := by
  intro l p words block
  have hwords : words = (List.range' 2 254).map fun i => (block (i / 128 + 1)).getD (i % 128) 0 :=
    (readAll_start l p 3 .argon2i 2 254 (by decide) (by decide)).2
  rw [hwords, List.getElem?_map, List.getElem?_map, List.getElem?_range' (by decide),
    List.getElem?_range' (by decide)]
  exact ⟨by decide, by decide, rfl, rfl⟩

end SymmetricCrypto.Argon2.AddressStream
