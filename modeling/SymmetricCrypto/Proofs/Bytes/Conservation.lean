import Mathlib
import SymmetricCrypto.Proofs.Bytes.Regrouping

/-!
# A chunker loses nothing and adds nothing

As long as no block is refused, the consumer gets every byte of the stream once and in order, in blocks
of `n` bytes, but for the last bytes, fewer than `n`, which stay pending. So it does not show into what
calls the stream was cut (`conserves_stream`).

A `Transfer` is a stream on its way through a chunker, with a record of the blocks that were handed
over. Each call brings its own consumer, one that may refuse a block or one that cannot. What a call
keeps is `Conserved`: the record has the blocks of the data so far, and the rest is pending
(`Conserved.perform`).
-/

namespace SymmetricCrypto.Chunker

variable {n : ℕ} {σ ε : Type}

/-- A call of a chunker, with the consumer that it brings. -/
inductive Call (n : ℕ) (σ ε : Type)
  /-- For a consumer that may refuse. -/
  | absorb (consume : σ → Vector UInt8 n → Except ε σ) (data : Bytes)
  /-- For a consumer that takes everything. -/
  | feed (consume : σ → Vector UInt8 n → σ) (data : Bytes)

/-- The data of a call. -/
def Call.data : Call n σ ε → Bytes
  | absorb _ data => data
  | feed _ data => data

/-- A stream on its way: the state of its consumers, the blocks that they were handed, and the chunker.
-/
structure Transfer (n : ℕ) (σ : Type) where
  /-- The state of the consumers. -/
  state : σ
  /-- The blocks that they were handed, in order. -/
  handed : List (Vector UInt8 n)
  /-- What is pending. -/
  chunker : Chunker n

namespace Transfer

/-- A consumer that may refuse, with a record of the blocks that it accepted. -/
def recorded (consume : σ → Vector UInt8 n → Except ε σ) (s : σ × List (Vector UInt8 n))
    (block : Vector UInt8 n) : Except ε (σ × List (Vector UInt8 n)) :=
  (consume s.1 block).map (·, s.2 ++ [block])

/-- A consumer that cannot refuse, with a record of its blocks. -/
def recording (consume : σ → Vector UInt8 n → σ) (s : σ × List (Vector UInt8 n))
    (block : Vector UInt8 n) : σ × List (Vector UInt8 n) :=
  (consume s.1 block, s.2 ++ [block])

/-- Makes a call. The first refusal ends the transfer. -/
def perform (t : Transfer n σ) : Call n σ ε → Except ε (Transfer n σ)
  | .absorb consume data =>
    let (result, chunker) := absorb (recorded consume) (t.state, t.handed) t.chunker data
    result.map fun (state, handed) => ⟨state, handed, chunker⟩
  | .feed consume data =>
    let ((state, handed), chunker) := feed (recording consume) (t.state, t.handed) t.chunker data
    .ok ⟨state, handed, chunker⟩

/-- Makes calls one after the other. -/
def run (t : Transfer n σ) (calls : List (Call n σ ε)) : Except ε (Transfer n σ) :=
  calls.foldlM perform t

end Transfer

open Transfer (recorded recording)

/-! ## The record -/

/-- The record grows by the blocks of a run that refuses none. -/
theorem foldlM_recorded (consume : σ → Vector UInt8 n → Except ε σ) (bs : List (Vector UInt8 n))
    (s : σ) (log : List (Vector UInt8 n)) :
    bs.foldlM (recorded consume) (s, log) = (bs.foldlM consume s).map (·, log ++ bs) := by
  induction bs generalizing s log with
  | nil => simp [pure, Except.pure, Except.map]
  | cons b bs ih =>
    rw [List.foldlM_cons, List.foldlM_cons, recorded]
    cases consume s b with
    | error e => rfl
    | ok t =>
      show bs.foldlM (recorded consume) (t, log ++ [b]) = (bs.foldlM consume t).map (·, log ++ b :: bs)
      rw [ih, List.append_assoc, List.singleton_append]

/-- A loop that records its blocks is the loop, with all blocks in the record. -/
theorem foldl_recording (consume : σ → Vector UInt8 n → σ) (bs : List (Vector UInt8 n))
    (s : σ) (log : List (Vector UInt8 n)) :
    bs.foldl (recording consume) (s, log) = (bs.foldl consume s, log ++ bs) := by
  induction bs generalizing s log with
  | nil => simp
  | cons b bs ih =>
    rw [List.foldl_cons, List.foldl_cons, recording, ih, List.append_assoc, List.singleton_append]

/-! ## What a call keeps -/

/-- Since the chunker was empty, and `before` was the record, the consumers were handed the blocks of
the data, and the rest is pending. -/
structure Conserved (before : List (Vector UInt8 n)) (data : Bytes) (t : Transfer n σ) : Prop where
  /-- The blocks of the data, after those of the record. -/
  handed_eq : t.handed = before ++ blocks n data
  /-- What is left of the data. -/
  pending_eq : t.chunker.pending = remainder n data

variable {before : List (Vector UInt8 n)} {data : Bytes} {t u : Transfer n σ}

/-- With nothing pending, a stream begins. -/
theorem conserved_of_pending_eq_nil (hn : 0 < n) (h : t.chunker.pending = []) :
    Conserved t.handed [] t where
  handed_eq := by rw [blocks_of_lt hn, List.append_nil]
  pending_eq := by rw [h, remainder_of_lt hn]

/-- The blocks of more data are those before and those that the rest makes up with the new bytes. -/
theorem Conserved.append (hn : 0 < n) (conserved : Conserved before data t) (more : Bytes)
    (handed_eq : u.handed = t.handed ++ blocks n (t.chunker.pending ++ more))
    (pending_eq : u.chunker.pending = remainder n (t.chunker.pending ++ more)) :
    Conserved before (data ++ more) u where
  handed_eq := by
    rw [handed_eq, conserved.handed_eq, conserved.pending_eq, List.append_assoc, ← blocks_append hn]
  pending_eq := by
    rw [pending_eq, conserved.pending_eq, remainder_append hn]

/-- A call in which no block is refused adds its data. -/
theorem Conserved.perform (hn : 0 < n) (conserved : Conserved before data t) (call : Call n σ ε)
    (h : t.perform call = .ok u) : Conserved before (data ++ call.data) u := by
  cases call with
  | absorb consume more =>
    -- A record kept by the consumer shows which blocks the call has handed over.
    obtain ⟨hstate, hpending⟩ :=
      absorb_eq hn (recorded consume) (t.state, t.handed) t.chunker more
    rw [foldlM_recorded] at hstate
    rw [Transfer.perform] at h
    generalize absorb (recorded consume) (t.state, t.handed) t.chunker more = result at *
    obtain ⟨_ | after, chunker⟩ := result
    · contradiction
    · -- The record after the call is the record before it with the blocks of the call.
      obtain rfl := Except.ok.inj h
      refine conserved.append hn more ?_ (hpending after rfl)
      cases hfold : (blocks n (t.chunker.pending ++ more)).foldlM consume t.state with
      | error e =>
        rw [hfold] at hstate
        contradiction
      | ok state =>
        rw [hfold] at hstate
        obtain rfl := Except.ok.inj hstate
        rfl
  | feed consume more =>
    obtain ⟨hstate, hpending⟩ := feed_eq hn (recording consume) (t.state, t.handed) t.chunker more
    rw [foldl_recording] at hstate
    obtain rfl := Except.ok.inj h
    exact conserved.append hn more (congrArg Prod.snd hstate) hpending

/-- Calls in which no block is refused add their data one after the other. -/
theorem Conserved.run (hn : 0 < n) (conserved : Conserved before data t)
    (calls : List (Call n σ ε)) (h : t.run calls = .ok u) :
    Conserved before (data ++ (calls.map Call.data).flatten) u := by
  induction calls generalizing data t with
  | nil =>
    obtain rfl := Except.ok.inj h
    simpa using conserved
  | cons call calls ih =>
    rw [Transfer.run, List.foldlM_cons] at h
    cases hperform : t.perform call with
    | error e =>
      rw [hperform] at h
      contradiction
    | ok t' =>
      rw [hperform] at h
      rw [List.map_cons, List.flatten_cons, ← List.append_assoc]
      exact ih (conserved.perform hn call hperform) h

/-! ## Conservation -/

/-- The blocks of the data are as many as fit into it. -/
theorem length_blocks (hn : 0 < n) (data : Bytes) : (blocks n data).length = data.length / n := by
  rw [blocks_eq_map_range hn, List.length_map, List.length_range]

/-- For a consumer that does not refuse, the two calls are the same. -/
theorem absorb_eq_feed (hn : 0 < n) (consume : σ → Vector UInt8 n → σ) (s : σ) (c : Chunker n)
    (data : Bytes) :
    absorb (fun s b => (.ok (consume s b) : Except ε σ)) s c data =
      (.ok (feed consume s c data).1, (feed consume s c data).2) := by
  obtain ⟨hstate, hpending⟩ := absorb_eq hn (fun s b => (.ok (consume s b) : Except ε σ)) s c data
  obtain ⟨hfed, hfedPending⟩ := feed_eq hn consume s c data
  have hfold : (blocks n (c.pending ++ data)).foldlM
      (fun s b => (.ok (consume s b) : Except ε σ)) s = .ok (feed consume s c data).1 := by
    rw [hfed]
    exact List.foldlM_pure
  rw [hfold] at hstate
  exact Prod.ext hstate (ext_pending ((hpending _ hstate).trans hfedPending.symm))

/-- A call of a chunker of block length `n` in which no block is refused hands over the blocks that the
pending bytes and the data make up, one for every `n` bytes, and keeps the rest, fewer than `n` bytes.
So from a chunker with nothing pending on, such as a new or a cleared one, the blocks handed over and
the bytes pending after any calls are those of the data that the calls make up, and `absorb` and `feed`
are the same. -/
theorem conserves_stream (hn : 0 < n) :
    (∀ (c : Chunker n) (data : Bytes),
      let handed := blocks n (c.pending ++ data)
      let rest := remainder n (c.pending ++ data)
      handed.length = (c.pending.length + data.length) / n ∧
      (handed.map Vector.toList).flatten ++ rest = c.pending ++ data ∧ rest.length < n ∧
      (∀ (σ ε : Type) (consume : σ → Vector UInt8 n → Except ε σ) (s : σ),
        (absorb consume s c data).1 = handed.foldlM consume s ∧
        ∀ t, (absorb consume s c data).1 = .ok t → (absorb consume s c data).2.pending = rest) ∧
      ∀ (σ : Type) (consume : σ → Vector UInt8 n → σ) (s : σ),
        (feed consume s c data).1 = handed.foldl consume s ∧
        (feed consume s c data).2.pending = rest) ∧
    (∀ (σ ε : Type) (t u : Transfer n σ) (calls : List (Call n σ ε)), t.chunker.pending = [] →
      t.run calls = .ok u →
      u.handed = t.handed ++ blocks n (calls.map Call.data).flatten ∧
      u.chunker.pending = remainder n (calls.map Call.data).flatten) ∧
    ∀ (σ ε : Type) (consume : σ → Vector UInt8 n → σ) (s : σ) (c : Chunker n) (data : Bytes),
      absorb (fun s b => (.ok (consume s b) : Except ε σ)) s c data =
        (.ok (feed consume s c data).1, (feed consume s c data).2) := by
  refine ⟨fun c data => ?_, fun σ ε t u calls hempty hrun => ?_, fun σ ε => absorb_eq_feed hn⟩
  · refine ⟨?_, flatten_blocks_append_remainder hn _, ?_, ?_, ?_⟩
    · rw [length_blocks hn, List.length_append]
    · rw [length_remainder]
      exact Nat.mod_lt _ hn
    · exact fun σ ε consume s => absorb_eq hn consume s c data
    · exact fun σ consume s => feed_eq hn consume s c data
  · have hconserved := (conserved_of_pending_eq_nil hn hempty).run hn calls hrun
    exact ⟨hconserved.handed_eq, hconserved.pending_eq⟩

/-- Two calls of a chunker for blocks of two bytes: the first brings one byte, and the second brings two
more, of which one stays pending. A full chunker hands its block over before the new byte. -/
theorem conserves_stream_pairs :
    let accept : ℕ → Vector UInt8 2 → Except Unit ℕ := fun s _ => .ok (s + 1)
    let calls : List (Call 2 ℕ Unit) := [.absorb accept [1], .feed (fun s _ => s + 1) [2, 3]]
    0 < 2 ∧
    (∃ u, (⟨0, [], empty 2⟩ : Transfer 2 ℕ).run calls = .ok u ∧ u.handed = [#v[1, 2]] ∧
      u.chunker.pending = [3]) ∧
    (absorb accept 0 ⟨[1, 2], by decide⟩ [3]).1 = .ok 1 ∧
    (absorb accept 0 ⟨[1, 2], by decide⟩ [3]).2.pending = [3] := by
  intro accept calls
  have hblocks : blocks 2 [1, 2, 3] = [#v[1, 2]] := by cbv
  have hrest : remainder 2 [1, 2, 3] = [3] := by decide
  obtain ⟨hcall, hrun, -⟩ := conserves_stream (n := 2) (by decide)
  obtain ⟨-, -, -, habsorb, -⟩ := hcall ⟨[1, 2], by decide⟩ [3]
  obtain ⟨hstate, hpending⟩ := habsorb ℕ Unit accept 0
  have hfull : (absorb accept 0 ⟨[1, 2], by decide⟩ [3]).1 = .ok 1 := by
    rw [hstate, show ([1, 2] : Bytes) ++ [3] = [1, 2, 3] from rfl, hblocks]
    rfl
  refine ⟨by decide, ?_, hfull, (hpending 1 hfull).trans hrest⟩
  have hmade : ∃ u, (⟨0, [], empty 2⟩ : Transfer 2 ℕ).run calls = .ok u := by
    refine ⟨⟨1, [#v[1, 2]], ⟨[3], by decide⟩⟩, ?_⟩
    cbv
  obtain ⟨u, hu⟩ := hmade
  obtain ⟨hhanded, hkept⟩ := hrun ℕ Unit ⟨0, [], empty 2⟩ u calls rfl hu
  exact ⟨u, hu, hhanded.trans hblocks, hkept.trans hrest⟩

end SymmetricCrypto.Chunker
