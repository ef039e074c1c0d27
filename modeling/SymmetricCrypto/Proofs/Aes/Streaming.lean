import Mathlib
import SymmetricCrypto.Aes.Session
import SymmetricCrypto.Proofs.Bytes.Regrouping
import SymmetricCrypto.Proofs.Aes.Inverse
import SymmetricCrypto.Proofs.Aes.Standard

/-!
# What a session has made of its data

A session takes its data in pieces. If the steps of its mode cannot fail (`Mode.Total`), then it takes
every piece, and `Taken` says what it holds afterwards, of the data that the pieces make up: register
and output are what the whole blocks lead to, one after the other, and the rest is pending. No piece
shows (`taken_addAll`).

`foldlM_advance` runs the blocks: registers and output blocks that fit together step by step are those
of the run.
-/

namespace SymmetricCrypto.Aes

open Chunker (blocks remainder)
open Standard (blockAt)

variable {ρ : Type}

/-- The steps of a mode cannot fail. -/
def Mode.Total (mode : Mode ρ) : Prop :=
  ∀ k d register block, ∃ result, mode.step k d register block = .ok result

/-- The blocks of the data by their positions. -/
theorem blocks_eq_blockAt (data : Bytes) :
    blocks 16 data = (List.range (data.length / 16)).map (blockAt data) :=
  Chunker.blocks_eq_map_range (by decide) data

/-- A block that was put into a byte string is found at its position. -/
theorem blockAt_flatMap (block : ℕ → Block) {n i : ℕ} (hi : i < n) :
    blockAt ((List.range n).flatMap fun i => (block i).toList) i = block i := by
  have hblocks := Chunker.blocks_flatten (n := 16) (by decide) ((List.range n).map block)
  rw [List.map_map, ← List.flatMap_def, blocks_eq_blockAt] at hblocks
  have hcount : ((List.range n).flatMap (Vector.toList ∘ block)).length / 16 = n := by
    simp
  rw [hcount] at hblocks
  exact List.map_inj_left.mp hblocks i (List.mem_range.mpr hi)

/-- A byte string of whole blocks is put together from them. -/
theorem flatMap_blockAt {data : Bytes} (h : data.length % 16 = 0) :
    ((List.range (data.length / 16)).flatMap fun i => (blockAt data i).toList) = data := by
  have hnone : remainder 16 data = [] := by
    rw [← List.length_eq_zero_iff, Chunker.length_remainder, h]
  have hdata := Chunker.flatten_blocks_append_remainder (n := 16) (by decide) data
  rwa [hnone, List.append_nil, blocks_eq_blockAt, List.map_map, ← List.flatMap_def] at hdata

namespace Session

/-- Takes the pieces of a message one after the other, until one is refused. -/
def addAll (mode : Mode ρ) : Session ρ → List Bytes → Except Error Unit × Session ρ
  | s, [] => (.ok (), s)
  | s, data :: rest =>
    match s.add mode data with
    | (.error e, s) => (.error e, s)
    | (.ok (), s) => addAll mode s rest

/-- Takes the pieces of a message and finalizes. -/
def completeAll {α : Type} (mode : Mode ρ) (s : Session ρ) (pieces : List Bytes)
    (finalize : Session ρ → Except Error α × Session ρ) : Except Error α × Session ρ :=
  match s.addAll mode pieces with
  | (.error e, s) => (.error e, s)
  | (.ok (), s) => finalize s

/-- A message in one piece. -/
theorem complete_eq_completeAll {α : Type} (mode : Mode ρ) (s : Session ρ) (message : Bytes)
    (finalize : Session ρ → Except Error α × Session ρ) :
    s.complete mode message finalize = (s.completeAll mode [message] finalize).1 := by
  unfold complete completeAll addAll addAll
  rcases s.add mode message with ⟨_ | _, t⟩ <;> rfl

/-- The session has taken the data and is not finalized. -/
structure Taken (mode : Mode ρ) (key : Key) (direction : Direction) (initial : Block)
    (data : Bytes) (s : Session ρ) : Prop where
  /-- The round keys are those of the key. -/
  schedule_eq : s.schedule = Schedule.ofKey key
  /-- The session has this direction. -/
  direction_eq : s.direction = direction
  /-- It was started from this block. -/
  initial_eq : s.initial = initial
  /-- The whole blocks of the data have been transformed. -/
  progress : (blocks 16 data).foldlM (advance mode (Schedule.ofKey key) direction)
    (mode.start initial, #[]) = .ok (s.register, s.output)
  /-- The rest of the data is pending. -/
  pending_eq : s.pending.pending = remainder 16 data
  /-- It was not finalized. -/
  unfinished : s.finished = false

variable {mode : Mode ρ} {key : Key} {direction : Direction} {initial : Block} {data : Bytes}
  {s : Session ρ}

/-- Blocks can always be transformed. -/
theorem exists_foldlM_eq_ok (total : mode.Total) (k : Schedule) (d : Direction)
    (bs : List Block) (state : ρ × Array UInt8) :
    ∃ after, bs.foldlM (advance mode k d) state = .ok after := by
  induction bs generalizing state with
  | nil => exact ⟨state, rfl⟩
  | cons b bs ih =>
    obtain ⟨register, output⟩ := state
    obtain ⟨⟨out, register'⟩, hstep⟩ := total k d register b
    have hadvance : advance mode k d (register, output) b = .ok (register', output ++ out.toArray) := by
      simp only [advance, hstep]
    rw [List.foldlM_cons, hadvance]
    exact ih _

/-- A session that is not finalized refuses no finalizer of its direction. -/
theorem Taken.refusal_eq (taken : Taken mode key direction initial data s) :
    s.refusal mode direction = none := by
  rw [refusal, taken.direction_eq, taken.unfinished]
  exact if_neg (not_not.mpr rfl)

/-- A new session has taken nothing. -/
theorem taken_start (mode : Mode ρ) (key : Key) (direction : Direction) (initial : Block) :
    Taken mode key direction initial [] (start mode key direction initial) where
  schedule_eq := rfl
  direction_eq := rfl
  initial_eq := rfl
  progress := by rw [Chunker.blocks_of_lt (by decide)]; rfl
  pending_eq := rfl
  unfinished := rfl

/-- One more piece is taken. -/
theorem Taken.add (total : mode.Total) (taken : Taken mode key direction initial data s)
    (more : Bytes) :
    ∃ t, s.add mode more = (.ok (), t) ∧ Taken mode key direction initial (data ++ more) t := by
  obtain ⟨hschedule, rfl, rfl, hprogress, hpending, hunfinished⟩ := taken
  have hadvance : advance mode s.schedule s.direction =
      advance mode (Schedule.ofKey key) s.direction := by rw [hschedule]
  obtain ⟨⟨register, output⟩, hrun⟩ := exists_foldlM_eq_ok total (Schedule.ofKey key) s.direction
    (blocks 16 (remainder 16 data ++ more)) (s.register, s.output)
  obtain ⟨hstate, hrest⟩ := Chunker.absorb_eq (by decide)
    (advance mode (Schedule.ofKey key) s.direction) (s.register, s.output) s.pending more
  rw [hpending, hrun] at hstate
  have hrest := hrest _ hstate
  -- The chunker has given the steps the blocks that the rest makes up with the new bytes.
  unfold Session.add
  rw [if_neg (by rw [hunfinished]; exact Bool.false_ne_true), hadvance]
  generalize s.pending.absorb (advance mode (Schedule.ofKey key) s.direction)
    (s.register, s.output) more = result at *
  obtain ⟨_, pending⟩ := result
  obtain rfl : _ = Except.ok (register, output) := hstate
  refine ⟨_, rfl, hschedule, rfl, rfl, ?_, ?_, hunfinished⟩
  · rw [Chunker.blocks_append (by decide), List.foldlM_append, hprogress]
    exact hrun
  · rw [← Chunker.remainder_append (by decide), ← hpending]
    exact hrest

/-- All pieces are taken, and it does not show where the data was cut. -/
theorem Taken.addAll (total : mode.Total) (taken : Taken mode key direction initial data s)
    (pieces : List Bytes) :
    ∃ t, s.addAll mode pieces = (.ok (), t) ∧
      Taken mode key direction initial (data ++ pieces.flatten) t := by
  induction pieces generalizing data s with
  | nil => exact ⟨s, rfl, by simpa using taken⟩
  | cons piece pieces ih =>
    obtain ⟨t, hadd, htaken⟩ := taken.add total piece
    obtain ⟨u, haddAll, hall⟩ := ih htaken
    refine ⟨u, ?_, ?_⟩
    · rw [Session.addAll, hadd]
      exact haddAll
    · rwa [List.flatten_cons, ← List.append_assoc]

/-- A new session takes all pieces. -/
theorem taken_addAll (total : mode.Total) (key : Key) (direction : Direction) (initial : Block)
    (pieces : List Bytes) :
    ∃ t, (start mode key direction initial).addAll mode pieces = (.ok (), t) ∧
      Taken mode key direction initial pieces.flatten t :=
  (taken_start mode key direction initial).addAll total pieces

/-- A new session takes all pieces, and the finalizer finds what they make up. -/
theorem exists_completeAll_eq {α : Type} (total : mode.Total) (key : Key) (direction : Direction)
    (initial : Block) (pieces : List Bytes)
    (finalize : Session ρ → Except Error α × Session ρ) :
    ∃ s, Taken mode key direction initial pieces.flatten s ∧
      (start mode key direction initial).completeAll mode pieces finalize = finalize s := by
  obtain ⟨s, hadd, htaken⟩ := taken_addAll total key direction initial pieces
  refine ⟨s, htaken, ?_⟩
  rw [completeAll, hadd]

/-- Registers and output blocks that fit together at every step are those of the run. -/
theorem foldlM_advance (mode : Mode ρ) (k : Schedule) (d : Direction) (block : ℕ → Block)
    (register : ℕ → ρ) (out : ℕ → Block) (n : ℕ)
    (hstep : ∀ i < n, mode.step k d (register i) (block i) = .ok (out i, register (i + 1))) :
    ((List.range n).map block).foldlM (advance mode k d) (register 0, #[]) =
      .ok (register n, ((List.range n).flatMap fun i => (out i).toList).toArray) := by
  induction n with
  | zero => rfl
  | succ n ih =>
    rw [List.range_succ, List.map_append, List.foldlM_append,
      ih fun i hi => hstep i (Nat.lt_succ_of_lt hi)]
    have hlast : (List.range n).flatMap (fun i => (out i).toList) ++ (out n).toList =
        (List.range n ++ [n]).flatMap fun i => (out i).toList := by
      rw [List.flatMap_append, List.flatMap_singleton]
    have hadvance : advance mode k d
          (register n, ((List.range n).flatMap fun i => (out i).toList).toArray) (block n) =
        .ok (register (n + 1), ((List.range n ++ [n]).flatMap fun i => (out i).toList).toArray) := by
      simp only [advance, hstep n (Nat.lt_succ_self n), ← hlast, ← List.append_toArray,
        Vector.toArray_toList]
    show (advance mode k d _ (block n) >>= pure) = _
    rw [hadvance]
    rfl

end Session

end SymmetricCrypto.Aes
