import Mathlib
import SymmetricCrypto.Proofs.Bytes.Words
import SymmetricCrypto.Proofs.ChaCha.Trace
import SymmetricCrypto.Proofs.SecretStream.Acceptance

/-!
# No keystream of a stream is used twice

A sender seals messages and changes the key on request, in any order. The time between two changes
of the key is an epoch. The traced forms of `push` and `rekey` are these functions with every block
taken by `blockTraced`, and they note each sealed chunk and each change of the key beside the
inputs. A `Ledger` sorts the record: the inputs of the epochs that are over, the inputs of the
current one, and the number of chunks in it.

The invariant is `Accounts`. The inputs of the current epoch are distinct, all under the present
key, and the chunk counters in their nonces lie between one and the number of chunks. Between two
operations the counter of the state is one more than this number (`Tallied`), so that the next nonce
is new. It is new for the rekey that closes the epoch too, whose counter comes after that of the
last chunk, or is zero when the counter has gone around. Within a chunk the nonce stays and the
block counter goes up, from 0 to at most `2^32 - 1`, by the bound on the message.
-/

namespace SymmetricCrypto.SecretStream

open ChaCha

/-- What is recorded of a sender. -/
inductive Event
  /-- An input of the block function was used. -/
  | used (input : Input)
  /-- A chunk was sealed. -/
  | sealed
  /-- The key was changed. -/
  | rekeyed

/-- What a sender can do. -/
inductive Operation
  /-- A chunk is sealed. -/
  | push (message associated : Bytes) (tag : Tag)
  /-- The key is changed on request. -/
  | rekey

namespace State

/-- `rekey` with a record. -/
def rekeyTraced (s : State) : Traced Event State := do
  let fresh : Vector UInt8 40 ← (xorVectorTraced s.key s.nonce 0 (s.key ++ s.inner)).relabel .used
  Traced.note .rekeyed
  return ⟨leading 32 8 fresh, 1, trailing 32 8 fresh⟩

/-- The state right after a chunk, before the key may change. -/
def moved (s : State) (mac : Poly1305.Tag) : State :=
  ⟨s.key, s.counter + 1, Vector.zipWith (· ^^^ ·) s.inner (leading 8 8 mac)⟩

/-- The key changes if the tag asks for it or the counter has gone around. -/
theorem advance_eq (s : State) (mac : Poly1305.Tag) (tagByte : UInt8) :
    s.advance mac tagByte =
      if Tag.forcesRekey tagByte || (s.moved mac).counter == 0 then (s.moved mac).rekey
      else s.moved mac := rfl

/-- `advance` with a record. -/
def advanceTraced (s : State) (mac : Poly1305.Tag) (tagByte : UInt8) : Traced Event State :=
  if Tag.forcesRekey tagByte || (s.moved mac).counter == 0 then (s.moved mac).rekeyTraced
  else pure (s.moved mac)

/-- `push` with a record. -/
def pushTraced (s : State) (message associated : Bytes) (tag : Tag) :
    Traced Event (Except Error Bytes × State) :=
  if messageMax < message.length then pure (.error (.invalidParameter .longChunk), s)
  else do
    let first ← (blockTraced s.key 0 s.nonce).relabel .used
    let tagBlock ←
      (xorVectorTraced s.key s.nonce 1
        ((Vector.replicate 64 0).set 0 tag.toByte (Nat.succ_pos 63))).relabel .used
    let body ← (xorStreamTraced s.key s.nonce 2 message).relabel .used
    let mac := Poly1305.tagOfParts (leading 32 32 first) (transcript associated tagBlock body)
    Traced.note .sealed
    let t ← s.advanceTraced mac tag.toByte
    return (.ok (tagBlock.head :: body ++ mac.toList), t)

/-- The state after an operation. -/
def perform (s : State) : Operation → State
  | .push message associated tag => (s.push message associated tag).2
  | .rekey => s.rekey

/-- `perform` with a record. -/
def performTraced (s : State) : Operation → Traced Event State
  | .push message associated tag => do
    let (_, t) ← s.pushTraced message associated tag
    return t
  | .rekey => s.rekeyTraced

/-- The state after a list of operations, with a record. -/
def runTraced (s : State) : List Operation → Traced Event State
  | [] => pure s
  | operation :: operations => do
    let t ← s.performTraced operation
    t.runTraced operations

/-- The record aside, a traced change of the key is the change of the key. -/
@[simp] theorem value_rekeyTraced (s : State) : s.rekeyTraced.value = s.rekey := rfl

/-- The record aside, a traced advance is the advance. -/
@[simp] theorem value_advanceTraced (s : State) (mac : Poly1305.Tag) (tagByte : UInt8) :
    (s.advanceTraced mac tagByte).value = s.advance mac tagByte := by
  rw [advanceTraced, advance_eq]
  split
  · rw [value_rekeyTraced]
  · rw [Traced.value_pure]

/-- The record aside, a traced push is the push. -/
@[simp] theorem value_pushTraced (s : State) (message associated : Bytes) (tag : Tag) :
    (s.pushTraced message associated tag).value = s.push message associated tag := by
  unfold pushTraced
  split
  · rename_i hlong
    rw [push, if_pos hlong]
    rfl
  · rename_i hfits
    rw [push_eq (Nat.le_of_not_lt hfits)]
    simp only [Traced.value_bind, Traced.value_pure, Traced.value_relabel, value_xorStreamTraced,
      value_advanceTraced]
    rfl

/-- The record aside, a traced operation is the operation. -/
@[simp] theorem value_performTraced (s : State) (operation : Operation) :
    (s.performTraced operation).value = s.perform operation := by
  cases operation with
  | push message associated tag =>
    rw [performTraced, perform, Traced.value_bind, value_pushTraced]
    rfl
  | rekey => rfl

/-- The record aside, a traced run performs the operations one after the other. -/
@[simp] theorem value_runTraced (s : State) (operations : List Operation) :
    (s.runTraced operations).value = operations.foldl perform s := by
  induction operations generalizing s with
  | nil => rfl
  | cons operation operations ih =>
    rw [runTraced, Traced.value_bind, value_performTraced, ih, List.foldl_cons]

/-- Changing the key uses block 0 of the present nonce. -/
theorem trace_rekeyTraced (s : State) :
    s.rekeyTraced.trace = [.used ⟨s.key, s.nonce, 0⟩, .rekeyed] := by
  have hone : (xorVectorTraced s.key s.nonce 0 (s.key ++ s.inner)).trace =
      [⟨s.key, s.nonce, 0⟩] := by
    rw [xorVectorTraced, trace_xorStreamTraced, Vector.length_toList]
    rfl
  simp only [rekeyTraced, Traced.trace_bind, Traced.trace_relabel, Traced.trace_note,
    Traced.trace_pure, hone]
  rfl

/-- The inputs of a chunk: block 0 for the authenticator, block 1 for the tag, and one block from 2
on for each started piece of the message. -/
def chunkInputs (s : State) (message : Bytes) : List Input :=
  ⟨s.key, s.nonce, 0⟩ :: ⟨s.key, s.nonce, 1⟩ ::
    (List.range (startedBlocks message.length)).map fun i => ⟨s.key, s.nonce, 2 + UInt32.ofNat i⟩

/-- Sealing a chunk uses the inputs of the chunk, and then what the advance uses. -/
theorem trace_pushTraced (s : State) {message : Bytes} (fits : message.length ≤ messageMax)
    (associated : Bytes) (tag : Tag) :
    (s.pushTraced message associated tag).trace =
      (s.chunkInputs message).map .used ++ .sealed ::
        (s.advanceTraced (s.mac associated (s.tagBlock tag.toByte) (s.body message))
          tag.toByte).trace := by
  have hone : (xorVectorTraced s.key s.nonce 1 ((Vector.replicate 64 0).set 0 tag.toByte)).trace =
      [⟨s.key, s.nonce, 1⟩] := by
    rw [xorVectorTraced, trace_xorStreamTraced, Vector.length_toList]
    rfl
  rw [pushTraced, if_neg (Nat.not_lt.mpr fits)]
  simp only [Traced.trace_bind, Traced.trace_relabel, Traced.value_relabel, Traced.trace_note,
    Traced.trace_pure, hone, trace_xorStreamTraced, value_xorStreamTraced, List.append_nil]
  rfl

/-- The nonce is the counter, least significant byte first, and the inner nonce. -/
theorem toList_nonce (s : State) :
    s.nonce.toList = LittleEndian.wordBytes s.counter ++ s.inner.toList := by
  have hword : (LittleEndian.ofWords #v[s.counter]).toList = LittleEndian.wordBytes s.counter := by
    rw [LittleEndian.toList_ofWords]
    exact List.append_nil _
  rw [nonce, ← hword]
  exact Vector.toList_append

/-- The first four bytes of the nonce are the counter, least significant byte first. -/
theorem take_nonce (s : State) : s.nonce.toList.take 4 = LittleEndian.wordBytes s.counter := by
  rw [toList_nonce, List.take_left' (LittleEndian.length_wordBytes s.counter)]

/-- The counter, read from the nonce. -/
theorem decode_take_nonce (s : State) :
    LittleEndian.decode (s.nonce.toList.take 4) = s.counter.toNat := by
  rw [take_nonce, LittleEndian.decode_wordBytes]

/-- States with one nonce have one counter. -/
theorem counter_eq_of_nonce_eq {s t : State} (h : s.nonce = t.nonce) : s.counter = t.counter := by
  apply UInt32.toNat_inj.mp
  rw [← decode_take_nonce, h, decode_take_nonce]

/-- The blocks of a chunk fit the block counter. -/
theorem two_add_startedBlocks_le {n : Nat} (fits : n ≤ messageMax) :
    (2 : UInt32).toNat + startedBlocks n ≤ 2 ^ 32 := by
  have hmax : messageMax = 64 * (2 ^ 32 - 2) := rfl
  show 2 + (n + 63) / 64 ≤ 2 ^ 32
  omega

/-- Within a chunk the block counter does not go around. -/
theorem toNat_two_add_ofNat {n i : Nat} (fits : n ≤ messageMax) (hi : i < startedBlocks n) :
    (2 + UInt32.ofNat i).toNat = 2 + i := by
  have hcount := two_add_startedBlocks_le fits
  exact toNat_add_ofNat (by omega)

/-- The inputs of a chunk are under the key and the nonce of the state. -/
theorem key_nonce_of_mem_chunkInputs {s : State} {message : Bytes} {u : Input}
    (hu : u ∈ s.chunkInputs message) : u.key = s.key ∧ u.nonce = s.nonce := by
  simp only [chunkInputs, List.mem_cons, List.mem_map] at hu
  rcases hu with rfl | rfl | ⟨i, -, rfl⟩
  · exact ⟨rfl, rfl⟩
  · exact ⟨rfl, rfl⟩
  · exact ⟨rfl, rfl⟩

/-- The inputs of a chunk are at different block counters. -/
theorem nodup_counter_chunkInputs (s : State) {message : Bytes}
    (fits : message.length ≤ messageMax) :
    ((s.chunkInputs message).map Input.counter).Nodup := by
  -- The blocks of the message begin with block 2.
  have hafter : ∀ c : UInt32, c.toNat < 2 →
      ∀ i < startedBlocks message.length, 2 + UInt32.ofNat i ≠ c := by
    intro c hc i hi heq
    have hvalue := toNat_two_add_ofNat fits hi
    rw [heq] at hvalue
    omega
  simp only [chunkInputs, List.map_cons, List.map_map, Function.comp_def, List.nodup_cons,
    List.mem_cons, List.mem_map, List.mem_range, not_or, not_exists, not_and]
  exact ⟨⟨by decide, hafter 0 (by decide)⟩, hafter 1 (by decide),
    nodup_counters (two_add_startedBlocks_le fits)⟩

end State

/-- The inputs are all under one key, and no two of them are the same. -/
def NoReuse (epoch : List Input) : Prop :=
  (∀ u ∈ epoch, ∀ v ∈ epoch, u.key = v.key) ∧ (epoch.map fun u => (u.nonce, u.counter)).Nodup

/-- A record of a sender, sorted by epochs. -/
structure Ledger where
  /-- The inputs of each epoch that is over, with that of the change of the key that closed it. -/
  closed : List (List Input)
  /-- The inputs of the current epoch. -/
  current : List Input
  /-- The number of chunks that were sealed in the current epoch. -/
  chunks : Nat

namespace Ledger

/-- One more event. -/
def record (l : Ledger) : Event → Ledger
  | .used input => { l with current := l.current ++ [input] }
  | .sealed => { l with chunks := l.chunks + 1 }
  | .rekeyed => ⟨l.closed ++ [l.current], [], 0⟩

/-- More events. -/
def recordAll (l : Ledger) (events : List Event) : Ledger := events.foldl record l

/-- The ledger of a record. -/
def ofTrace (events : List Event) : Ledger := recordAll ⟨[], [], 0⟩ events

/-- The inputs of all epochs. -/
def epochs (l : Ledger) : List (List Input) := l.closed ++ [l.current]

/-- Inputs go into the current epoch. -/
theorem recordAll_used_append (l : Ledger) (inputs : List Input) (events : List Event) :
    l.recordAll (inputs.map .used ++ events) =
      { l with current := l.current ++ inputs }.recordAll events := by
  induction inputs generalizing l with
  | nil => simp
  | cons input inputs ih =>
    rw [List.map_cons, List.cons_append, recordAll, List.foldl_cons, ← recordAll, ih, record]
    simp

/-- The ledger accounts for the state: no epoch reuses an input, those of the current one are under
the present key and have the numbers of its chunks in their nonces, and the present nonce has
another number. -/
structure Accounts (l : Ledger) (s : State) : Prop where
  /-- No input was used twice in an epoch that is over. -/
  closed : ∀ epoch ∈ l.closed, NoReuse epoch
  /-- The inputs of the current epoch are under the present key. -/
  key_eq : ∀ u ∈ l.current, u.key = s.key
  /-- No two of them are the same. -/
  distinct : (l.current.map fun u => (u.nonce, u.counter)).Nodup
  /-- Their nonces have the numbers of the chunks of the epoch. -/
  numbered : ∀ u ∈ l.current, ∃ t : State,
    u.nonce = t.nonce ∧ 1 ≤ t.counter.toNat ∧ t.counter.toNat ≤ l.chunks
  /-- The present nonce has the next number, or zero if that has run out. -/
  fresh : s.counter.toNat = 0 ∨ s.counter.toNat = 1 + l.chunks

/-- The ledger accounts for the state between two operations: the counter is one more than the
number of chunks. -/
structure Tallied (l : Ledger) (s : State) : Prop extends Accounts l s where
  /-- The number of the next chunk. -/
  counter_eq : s.counter.toNat = 1 + l.chunks

/-- In an epoch that has just begun nothing is used, and the counter is at one. -/
theorem tallied_of_begun {past : List (List Input)} {s : State}
    (hpast : ∀ epoch ∈ past, NoReuse epoch) (hcounter : s.counter = 1) :
    Tallied ⟨past, [], 0⟩ s where
  closed := hpast
  key_eq := by simp
  distinct := by simp
  numbered := by simp
  fresh := by simp [hcounter]
  counter_eq := by simp [hcounter]

namespace Accounts

variable {l : Ledger} {s : State}

/-- The inputs of the current epoch have other nonces than the present one. -/
theorem nonce_ne (h : Accounts l s) {u : Input} (hu : u ∈ l.current) : u.nonce ≠ s.nonce := by
  intro heq
  obtain ⟨t, ht, hlow, hhigh⟩ := h.numbered u hu
  have hcounter := State.counter_eq_of_nonce_eq (ht.symm.trans heq)
  have hfresh := h.fresh
  rw [hcounter] at hlow hhigh
  omega

/-- Inputs under the present key and nonce, and at different block counters, repeat none of the
current epoch. -/
theorem distinct_append (h : Accounts l s) {inputs : List Input}
    (hnonce : ∀ u ∈ inputs, u.nonce = s.nonce) (hcounter : (inputs.map Input.counter).Nodup) :
    ((l.current ++ inputs).map fun u => (u.nonce, u.counter)).Nodup := by
  rw [List.map_append, List.nodup_append]
  refine ⟨h.distinct, ?_, ?_⟩
  · apply List.Nodup.of_map Prod.snd
    rw [List.map_map]
    exact hcounter
  · -- An old input and a new one differ in the nonce.
    intro p hp q hq heq
    obtain ⟨u, hu, rfl⟩ := List.mem_map.mp hp
    obtain ⟨v, hv, rfl⟩ := List.mem_map.mp hq
    have := (Prod.mk.inj heq).1
    exact h.nonce_ne hu (this.trans (hnonce v hv))

/-- The epoch is still without reuse when block 0 of the present nonce comes to it. -/
theorem noReuse_concat (h : Accounts l s) : NoReuse (l.current ++ [⟨s.key, s.nonce, 0⟩]) := by
  have hkey : ∀ u ∈ l.current ++ [(⟨s.key, s.nonce, 0⟩ : Input)], u.key = s.key := by
    intro u hu
    rcases List.mem_append.mp hu with hold | hnew
    · exact h.key_eq u hold
    · rw [List.mem_singleton.mp hnew]
  constructor
  · intro u hu v hv
    rw [hkey u hu, hkey v hv]
  · apply h.distinct_append
    · intro u hu
      rw [List.mem_singleton.mp hu]
    · simp

/-- A change of the key closes the epoch with an input that is new in it. -/
theorem rekey (h : Accounts l s) : Tallied (l.recordAll s.rekeyTraced.trace) s.rekey := by
  have hledger : l.recordAll s.rekeyTraced.trace =
      ⟨l.closed ++ [l.current ++ [⟨s.key, s.nonce, 0⟩]], [], 0⟩ := by
    rw [State.trace_rekeyTraced]
    rfl
  rw [hledger]
  -- The new epoch is empty, and the counter is back at one.
  refine tallied_of_begun (fun epoch hepoch => ?_) rfl
  rcases List.mem_append.mp hepoch with hold | hnew
  · exact h.closed epoch hold
  · rw [List.mem_singleton.mp hnew]
    exact h.noReuse_concat

/-- After a chunk the key changes if the tag asks for it or the counter has gone around, and
otherwise the counter has kept up. -/
theorem advance {mac : Poly1305.Tag} (h : Accounts l (s.moved mac)) (tagByte : UInt8) :
    Tallied (l.recordAll (s.advanceTraced mac tagByte).trace) (s.advance mac tagByte) := by
  rw [← State.value_advanceTraced, State.advanceTraced]
  split
  · rw [State.value_rekeyTraced]
    exact h.rekey
  · rename_i hstay
    rw [Traced.trace_pure, Traced.value_pure]
    -- The counter would have been found at zero.
    have hnonzero : (s.moved mac).counter.toNat ≠ 0 := by
      intro hzero
      apply hstay
      rw [Bool.or_eq_true]
      exact Or.inr (beq_iff_eq.mpr (UInt32.toNat_inj.mp hzero))
    exact { h with counter_eq := h.fresh.resolve_left hnonzero }

end Accounts

namespace Tallied

variable {l : Ledger} {s : State}

/-- A chunk uses inputs that are new in the epoch. -/
theorem chunk (h : Tallied l s) {message : Bytes} (fits : message.length ≤ messageMax)
    (mac : Poly1305.Tag) :
    Accounts ⟨l.closed, l.current ++ s.chunkInputs message, l.chunks + 1⟩ (s.moved mac) where
  closed := h.closed
  key_eq := by
    intro u hu
    rcases List.mem_append.mp hu with hold | hnew
    · exact h.key_eq u hold
    · exact (State.key_nonce_of_mem_chunkInputs hnew).1
  distinct :=
    h.toAccounts.distinct_append (fun _ hu => (State.key_nonce_of_mem_chunkInputs hu).2)
      (s.nodup_counter_chunkInputs fits)
  numbered := by
    intro u hu
    have hcounter := h.counter_eq
    -- The new inputs have the number of this chunk, which is one more than that of the last one.
    rcases List.mem_append.mp hu with hold | hnew
    · obtain ⟨t, ht, hlow, hhigh⟩ := h.numbered u hold
      exact ⟨t, ht, hlow, by show t.counter.toNat ≤ l.chunks + 1; omega⟩
    · refine ⟨s, (State.key_nonce_of_mem_chunkInputs hnew).2, by omega, ?_⟩
      show s.counter.toNat ≤ l.chunks + 1
      omega
  fresh := by
    have hcounter := h.counter_eq
    have hmoved : (s.moved mac).counter.toNat = (s.counter.toNat + 1) % 2 ^ 32 := by
      rw [State.moved, UInt32.toNat_add]
      rfl
    have hlt := s.counter.toNat_lt
    show (s.moved mac).counter.toNat = 0 ∨ (s.moved mac).counter.toNat = 1 + (l.chunks + 1)
    omega

/-- A sealed chunk keeps the tally, whether the key changes after it or not. -/
theorem push (h : Tallied l s) (message associated : Bytes) (tag : Tag) :
    Tallied (l.recordAll (s.pushTraced message associated tag).trace)
      (s.push message associated tag).2 := by
  rcases lt_or_ge messageMax message.length with hlong | fits
  · -- A message that is too long is not sealed, and nothing happens.
    rw [State.pushTraced, if_pos hlong, State.push, if_pos hlong]
    exact h
  · rw [State.trace_pushTraced s fits, State.push_eq fits, recordAll_used_append]
    exact (h.chunk fits _).advance _

/-- Any operation keeps the tally. -/
theorem perform (h : Tallied l s) (operation : Operation) :
    Tallied (l.recordAll (s.performTraced operation).trace) (s.perform operation) := by
  cases operation with
  | push message associated tag =>
    rw [State.performTraced, Traced.trace_bind, Traced.trace_pure, List.append_nil]
    exact h.push message associated tag
  | rekey => exact h.toAccounts.rekey

/-- Any run keeps the tally. -/
theorem run (h : Tallied l s) (operations : List Operation) :
    Tallied (l.recordAll (s.runTraced operations).trace) (s.runTraced operations).value := by
  induction operations generalizing l s with
  | nil => exact h
  | cons operation operations ih =>
    rw [State.runTraced, Traced.trace_bind, Traced.value_bind, State.value_performTraced, recordAll,
      List.foldl_append]
    exact ih (h.perform operation)

/-- A stream starts with the counter at one and nothing used. -/
theorem start (key : ChaCha.Key) (header : Header) :
    Tallied ⟨[], [], 0⟩ (State.ofHeader key header) :=
  tallied_of_begun (List.forall_mem_nil _) rfl

end Tallied

end Ledger

/-- Whatever a sender seals and whenever it changes the key, the stored counter is not zero and is
one more than the number of chunks of the current epoch, and in no epoch is an input of the block
function used twice: not for an authenticator, a tag or a message, and not for the change of the key
that closes the epoch. The block counter of a message does not go around. -/
theorem no_keystream_reuse (key : ChaCha.Key) (header : Header) (operations : List Operation) :
    ((State.ofHeader key header).runTraced operations).value =
      operations.foldl State.perform (State.ofHeader key header) ∧
    ((State.ofHeader key header).runTraced operations).value.counter ≠ 0 ∧
    LittleEndian.decode
        (((State.ofHeader key header).runTraced operations).value.nonce.toList.take 4) =
      1 + (Ledger.ofTrace ((State.ofHeader key header).runTraced operations).trace).chunks ∧
    (∀ epoch ∈ (Ledger.ofTrace ((State.ofHeader key header).runTraced operations).trace).epochs,
      NoReuse epoch) ∧
    ∀ message : Bytes, message.length ≤ messageMax →
      ∀ i < startedBlocks message.length, (2 + UInt32.ofNat i).toNat = 2 + i := by
  -- The run keeps the ledger tallied, and each part is read off the tally.
  have h := (Ledger.Tallied.start key header).run operations
  generalize hrun : (State.ofHeader key header).runTraced operations = run at h ⊢
  refine ⟨?_, ?_, ?_, ?_, ?_⟩
  · rw [← hrun, State.value_runTraced]
  · intro hzero
    have hcounter := h.counter_eq
    rw [hzero, UInt32.toNat_zero] at hcounter
    omega
  · rw [State.decode_take_nonce]
    exact h.counter_eq
  · intro epoch hepoch
    rcases List.mem_append.mp hepoch with hclosed | hcurrent
    · exact h.closed epoch hclosed
    · rw [List.mem_singleton.mp hcurrent]
      refine ⟨?_, h.distinct⟩
      intro u hu v hv
      rw [h.key_eq u hu, h.key_eq v hv]
  · intro message fits i hi
    exact State.toNat_two_add_ofNat fits hi

end SymmetricCrypto.SecretStream
