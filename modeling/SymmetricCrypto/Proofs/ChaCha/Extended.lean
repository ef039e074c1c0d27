import Mathlib
import SymmetricCrypto.ChaCha.Extended
import SymmetricCrypto.Proofs.ChaCha.Conformance

/-!
# A stream is one keystream

A session hands out the keystream of its nonce in pieces, as the data comes. `extendedByte` is that
keystream, byte by byte: byte `i` is byte `i % 64` of the block whose counter is `i / 64` after the
first one, with a counter of 64 bits. These blocks are those of the standard (`toList_extendedBlock`).

`Holds` says what a session holds after `n` bytes: the state is that of the next block, and the
unused bytes are the keystream from byte `n` to the end of the last block made. Making a block keeps
this (`Holds.made`, with the carry between the counter words in `next_extendedState`). Taking data
keeps it, and the data comes out summed with the bytes from `n` on (`Holds.run`). So the pieces of a
message come out summed with one keystream, and where they were cut does not show
(`start_applyAll`).
-/

namespace SymmetricCrypto.ChaCha

/-- A word of the four after the key. -/
theorem State.getD_keyed (key : Key) (tail : Vector UInt32 4) {i : ℕ} (hi : i < 4) :
    (State.keyed key tail).getD (12 + i) 0 = tail[i] := by
  have hread : (State.keyed key tail)[12 + i]? = some tail[i] := by
    unfold State.keyed
    rw [Vector.getElem?_append_right (Nat.le_add_right 12 i), Nat.add_sub_cancel_left]
    exact Vector.getElem?_eq_getElem hi
  have h := congrArg (Option.getD · 0) hread
  simpa [Vector.getD, Array.getD_eq_getD_getElem?] using h

/-- Replacing a word of the four after the key. -/
theorem State.setIfInBounds_keyed (key : Key) (tail : Vector UInt32 4) {i : ℕ} (hi : i < 4)
    (w : UInt32) :
    (State.keyed key tail).setIfInBounds (12 + i) w = State.keyed key (tail.set i w) := by
  unfold State.keyed
  refine Vector.ext fun j hj => ?_
  rw [Vector.getElem_setIfInBounds, Vector.getElem_append, Vector.getElem_append]
  by_cases hkey : j < 4 + 8
  · rw [if_neg (by omega), dif_pos hkey, dif_pos hkey]
  · have hplace : 12 + i = j ↔ i = j - (4 + 8) := by omega
    rw [dif_neg hkey, dif_neg hkey, Vector.getElem_set]
    exact if_congr hplace rfl rfl

/-- The state at a block counter, whose two halves are words 12 and 13. -/
def extendedState (key : Key) (nonce : ExtendedNonce) (n : ℕ) : State :=
  State.keyed (subkey key nonce.hashed)
    (#v[UInt32.ofNat n, UInt32.ofNat (n / 2^32)] ++ LittleEndian.words 2 nonce.rest)

/-- The keystream block at a block counter. -/
def extendedBlock (key : Key) (nonce : ExtendedNonce) (n : ℕ) : Vector UInt8 64 :=
  (extendedState key nonce n).keystream

/-- The keystream byte at position `i` of the stream that starts at a block counter. -/
def extendedByte (key : Key) (nonce : ExtendedNonce) (counter : UInt32) (i : ℕ) : UInt8 :=
  (extendedBlock key nonce ((counter.toNat + i / 64) % 2^64)).getD (i % 64) 0

/-- A block is that of the standard. -/
theorem toList_extendedBlock (key : Key) (nonce : ExtendedNonce) (n : ℕ) :
    (extendedBlock key nonce n).toList =
      Standard.extendedBlock key.toList nonce.toList n := by
  have hcounter : (#v[UInt32.ofNat n, UInt32.ofNat (n / 2^32)] : Vector UInt32 2).toList.map
      UInt32.toNat = [n % 2^32, n / 2^32 % 2^32] := by
    show [(UInt32.ofNat n).toNat, (UInt32.ofNat (n / 2^32)).toNat] = _
    rw [UInt32.toNat_ofNat', UInt32.toNat_ofNat']
  rw [extendedBlock, toList_keystream, extendedState, numbers_keyed, toList_subkey,
    Vector.toList_append, List.map_append, hcounter, map_toNat_words, ExtendedNonce.hashed,
    ExtendedNonce.rest, toList_leading, toList_trailing, Standard.extendedBlock]
  rfl

/-- A byte of the keystream is that of the standard. -/
theorem extendedByte_eq_standard (key : Key) (nonce : ExtendedNonce) (counter : UInt32) (i : ℕ) :
    extendedByte key nonce counter i =
      (Standard.extendedBlock key.toList nonce.toList
        ((counter.toNat + i / 64) % 2^64)).getD (i % 64) 0 := by
  have hi : i % 64 < 64 := Nat.mod_lt i (by decide)
  rw [extendedByte, getD_eq_getElem _ hi, ← toList_extendedBlock,
    List.getD_eq_getElem _ _ (by rwa [Vector.length_toList]), Vector.getElem_toList]

/-- The counter has 64 bits. -/
theorem extendedState_mod (key : Key) (nonce : ExtendedNonce) (n : ℕ) :
    extendedState key nonce (n % 2^64) = extendedState key nonce n := by
  have hlow : UInt32.ofNat (n % 2^64) = UInt32.ofNat n := by
    apply UInt32.toNat_inj.mp
    rw [UInt32.toNat_ofNat', UInt32.toNat_ofNat']
    omega
  have hhigh : UInt32.ofNat (n % 2^64 / 2^32) = UInt32.ofNat (n / 2^32) := by
    apply UInt32.toNat_inj.mp
    rw [UInt32.toNat_ofNat', UInt32.toNat_ofNat']
    omega
  rw [extendedState, extendedState, hlow, hhigh]

/-- The low word carries into the high one, so the next state is that of the next counter. -/
theorem next_extendedState (key : Key) (nonce : ExtendedNonce) (n : ℕ) :
    (extendedState key nonce n).next = extendedState key nonce (n + 1) := by
  unfold State.next extendedState
  generalize LittleEndian.words 2 nonce.rest = rest
  generalize subkey key nonce.hashed = subkey
  have hlow : UInt32.ofNat n + 1 = UInt32.ofNat (n + 1) := (UInt32.ofNat_add n 1).symm
  have hzero : UInt32.ofNat (n + 1) = 0 ↔ (n + 1) % 2^32 = 0 := by
    rw [← UInt32.toNat_inj, UInt32.toNat_ofNat']
    rfl
  -- The two counter words are read and written at their places among the last four.
  have hread12 (low high : UInt32) :
      (State.keyed subkey (#v[low, high] ++ rest)).getD 12 0 = low := by
    rw [State.getD_keyed _ _ (i := 0) (by decide), Vector.getElem_append_left (by decide)]
    rfl
  have hread13 (low high : UInt32) :
      (State.keyed subkey (#v[low, high] ++ rest)).getD 13 0 = high := by
    rw [State.getD_keyed _ _ (i := 1) (by decide), Vector.getElem_append_left (by decide)]
    rfl
  have hwrite12 (low high w : UInt32) :
      (State.keyed subkey (#v[low, high] ++ rest)).setIfInBounds 12 w =
        State.keyed subkey (#v[w, high] ++ rest) := by
    rw [State.setIfInBounds_keyed _ _ (i := 0) (by decide), Vector.set_append_left (by decide)]
    rfl
  have hwrite13 (low high w : UInt32) :
      (State.keyed subkey (#v[low, high] ++ rest)).setIfInBounds 13 w =
        State.keyed subkey (#v[low, w] ++ rest) := by
    rw [State.setIfInBounds_keyed _ _ (i := 1) (by decide), Vector.set_append_left (by decide)]
    rfl
  simp only [hread12, hread13, hwrite12, hwrite13, hlow]
  split
  case isTrue hcarry =>
    -- The low word went around.
    have hdiv : (n + 1) / 2^32 = n / 2^32 + 1 := by
      have := hzero.mp hcarry
      omega
    have hhigh : UInt32.ofNat (n / 2^32) + 1 = UInt32.ofNat (n / 2^32 + 1) :=
      (UInt32.ofNat_add _ 1).symm
    rw [hdiv, hhigh]
  case isFalse hcarry =>
    have hdiv : (n + 1) / 2^32 = n / 2^32 := by
      have := mt hzero.mpr hcarry
      omega
    rw [hdiv]

/-- The bytes of a block have consecutive positions. -/
theorem extendedByte_block (key : Key) (nonce : ExtendedNonce) (counter : UInt32) (blocks : ℕ)
    {i : ℕ} (hi : i < 64) :
    extendedByte key nonce counter (64 * blocks + i) =
      (extendedState key nonce (counter.toNat + blocks)).keystream[i] := by
  have hdiv : (64 * blocks + i) / 64 = blocks := by omega
  have hmod : (64 * blocks + i) % 64 = i := by omega
  rw [extendedByte, extendedBlock, extendedState_mod, hdiv, hmod]
  exact getD_eq_getElem _ hi 0

/-- A stream after `n` bytes: the blocks made go up to some multiple of 64 bytes, the state is that
of the next block, and the unused bytes are the keystream from byte `n` on. -/
structure Holds (key : Key) (nonce : ExtendedNonce) (counter : UInt32) (n : ℕ) (state : State)
    (unused : Bytes) : Prop where
  /-- The blocks were made up to the end of one, and the state is that of the next. -/
  ends : ∃ blocks, n + unused.length = 64 * blocks ∧
    state = extendedState key nonce (counter.toNat + blocks)
  /-- The unused bytes are the next ones of the keystream. -/
  getElem?_unused : ∀ i < unused.length, unused[i]? = some (extendedByte key nonce counter (n + i))

variable {key : Key} {nonce : ExtendedNonce} {counter : UInt32} {n : ℕ} {state : State}
  {unused : Bytes}

/-- Before the first block is made, nothing is unused. -/
theorem holds_start (key : Key) (nonce : ExtendedNonce) (counter : UInt32) :
    Holds key nonce counter 0 (Session.start key nonce counter).state [] where
  ends := by
    have hhigh : counter.toNat / 2^32 = 0 := Nat.div_eq_of_lt counter.toNat_lt
    refine ⟨0, rfl, ?_⟩
    rw [Nat.add_zero, extendedState, UInt32.ofNat_toNat, hhigh]
    rfl
  getElem?_unused := fun i hi => absurd hi (Nat.not_lt_zero i)

/-- When no byte is unused, the next block holds the bytes that follow. -/
theorem Holds.made (h : Holds key nonce counter n state []) :
    Holds key nonce counter n state.next state.keystream.toList := by
  obtain ⟨⟨blocks, hn, rfl⟩, -⟩ := h
  rw [List.length_nil, Nat.add_zero] at hn
  subst hn
  refine ⟨⟨blocks + 1, ?_, next_extendedState key nonce _⟩, fun i hi => ?_⟩
  · rw [Vector.length_toList, Nat.mul_add_one]
  · rw [Vector.length_toList] at hi
    rw [extendedByte_block key nonce counter blocks hi,
      List.getElem?_eq_getElem (by simpa using hi), Vector.getElem_toList]

/-- The unused bytes that were not needed go on from where the data ends. -/
theorem Holds.drop (h : Holds key nonce counter n state unused) {k : ℕ} (hk : k ≤ unused.length) :
    Holds key nonce counter (n + k) state (unused.drop k) := by
  obtain ⟨⟨blocks, hn, hstate⟩, hunused⟩ := h
  refine ⟨⟨blocks, ?_, hstate⟩, fun i hi => ?_⟩
  · rw [List.length_drop]
    omega
  · rw [List.length_drop] at hi
    rw [List.getElem?_drop, hunused (k + i) (by omega), Nat.add_assoc]

/-- Data summed with the unused bytes is summed with the keystream, as far as both last. -/
theorem Holds.xor_unused (h : Holds key nonce counter n state unused) (data : Bytes) :
    Bytes.xor data unused = (data.take unused.length).mapIdx fun i b =>
      b ^^^ extendedByte key nonce counter (n + i) := by
  apply List.ext_getElem?
  intro i
  rw [Bytes.xor, List.getElem?_zipWith, List.getElem?_mapIdx]
  rcases lt_or_ge i unused.length with hi | hi
  · rw [h.getElem?_unused i hi, List.getElem?_take_of_lt hi]
    cases data[i]? <;> rfl
  · rw [List.getElem?_eq_none hi, List.getElem?_take_eq_none hi]
    cases data[i]? <;> rfl

/-- Data comes out summed with the keystream from byte `n` on, and the stream goes on behind it. -/
theorem Holds.run (h : Holds key nonce counter n state unused) (data : Bytes) :
    (Session.run state unused data).1 =
        data.mapIdx (fun i b => b ^^^ extendedByte key nonce counter (n + i)) ∧
      Holds key nonce counter (n + data.length) (Session.run state unused data).2.1
        (Session.run state unused data).2.2 := by
  fun_induction Session.run state unused data generalizing n with
  | case1 state unused data hdata =>
    -- The unused bytes are enough.
    have hlength : data.length ≤ unused.length := List.drop_eq_nil_iff.mp hdata
    refine ⟨?_, h.drop hlength⟩
    rw [h.xor_unused, List.take_of_length_le hlength]
  | case2 state unused data hdata out rest hrun ih =>
    -- The unused bytes are used up, and a block is made for the rest of the data.
    have hlength : unused.length < data.length := by
      rw [List.drop_eq_nil_iff] at hdata
      omega
    have hused := h.drop le_rfl
    rw [List.drop_length] at hused
    obtain ⟨hout, hrest⟩ := ih hused.made
    rw [hrun] at hout hrest
    constructor
    · have hfirst : (data.take unused.length).length = unused.length :=
        List.length_take_of_le hlength.le
      have hshift : ∀ i, n + unused.length + i = n + (i + unused.length) := by omega
      simp only [hshift] at hout
      conv_rhs => rw [← List.take_append_drop unused.length data, List.mapIdx_append, hfirst]
      rw [← h.xor_unused, ← hout]
    · have hend : n + unused.length + (data.drop unused.length).length = n + data.length := by
        rw [List.length_drop]
        omega
      rwa [hend] at hrest

namespace Session

/-- Takes the pieces of a message one after the other. The result is what came out for each, and the
session after the last. -/
def applyAll : Session → List Bytes → List Bytes × Session
  | s, [] => ([], s)
  | s, data :: rest =>
    let (out, s) := s.apply data
    let (outs, s) := applyAll s rest
    (out :: outs, s)

/-- A session that has processed `n` bytes. -/
structure At (key : Key) (nonce : ExtendedNonce) (counter : UInt32) (n : ℕ) (s : Session) :
    Prop where
  /-- The state and the unused bytes are those after `n` bytes. -/
  holds : Holds key nonce counter n s.state s.unused
  /-- The bytes are counted, up to a multiple of `2^64`. -/
  processed_eq : s.processed = UInt64.ofNat n

variable {s : Session}

/-- A new session has processed nothing. -/
theorem at_start (key : Key) (nonce : ExtendedNonce) (counter : UInt32) :
    At key nonce counter 0 (start key nonce counter) :=
  ⟨holds_start key nonce counter, rfl⟩

/-- One call. -/
theorem At.apply (h : At key nonce counter n s) (data : Bytes) :
    (s.apply data).1 = data.mapIdx (fun i b => b ^^^ extendedByte key nonce counter (n + i)) ∧
      At key nonce counter (n + data.length) (s.apply data).2 := by
  obtain ⟨hout, hholds⟩ := h.holds.run data
  refine ⟨hout, hholds, ?_⟩
  show s.processed + UInt64.ofNat data.length = _
  rw [h.processed_eq, UInt64.ofNat_add]

/-- All calls: what comes out is the message summed with the keystream, each piece as long as it
was. -/
theorem At.applyAll (h : At key nonce counter n s) (pieces : List Bytes) :
    (s.applyAll pieces).1.flatten =
        pieces.flatten.mapIdx (fun i b => b ^^^ extendedByte key nonce counter (n + i)) ∧
      (s.applyAll pieces).1.map List.length = pieces.map List.length ∧
      At key nonce counter (n + pieces.flatten.length) (s.applyAll pieces).2 := by
  induction pieces generalizing n s with
  | nil => exact ⟨rfl, rfl, h⟩
  | cons data pieces ih =>
    obtain ⟨hout, hat⟩ := h.apply data
    obtain ⟨houts, hlengths, hlast⟩ := ih hat
    rw [Session.applyAll]
    refine ⟨?_, ?_, ?_⟩
    · have hshift : ∀ i, n + data.length + i = n + (i + data.length) := by omega
      simp only [hshift] at houts
      rw [List.flatten_cons, List.flatten_cons, List.mapIdx_append, ← hout, ← houts]
    · rw [List.map_cons, List.map_cons, hlengths, hout, List.length_mapIdx]
    · rwa [List.flatten_cons, List.length_append, ← Nat.add_assoc]

/-- What comes out of a new session. -/
theorem flatten_applyAll_start (key : Key) (nonce : ExtendedNonce) (counter : UInt32)
    (pieces : List Bytes) :
    ((start key nonce counter).applyAll pieces).1.flatten =
      pieces.flatten.mapIdx fun i b => b ^^^ extendedByte key nonce counter i := by
  have h := ((at_start key nonce counter).applyAll pieces).1
  simpa only [Nat.zero_add] using h

/-- The number of bytes that a new session has processed, as long as it fits its word. -/
theorem toNat_processed_applyAll_start (key : Key) (nonce : ExtendedNonce) (counter : UInt32)
    {pieces : List Bytes} (h : pieces.flatten.length < 2^64) :
    ((start key nonce counter).applyAll pieces).2.processed.toNat = pieces.flatten.length := by
  rw [((at_start key nonce counter).applyAll pieces).2.2.processed_eq, Nat.zero_add,
    UInt64.toNat_ofNat', Nat.mod_eq_of_lt h]

/-- The pieces of a message of less than `2^64` bytes come out summed with one keystream: byte `i`
of the message with byte `i % 64` of the standard's block whose counter is `i / 64` after the first
one, modulo `2^64`. After each call, the session has counted the bytes so far. Any other cut of the message
gives the same bytes, and any cut of what came out gives the message back. -/
theorem start_applyAll (key : Key) (nonce : ExtendedNonce) (counter : UInt32) (pieces : List Bytes)
    (h : pieces.flatten.length < 2^64) :
    let out := ((start key nonce counter).applyAll pieces).1
    out.map List.length = pieces.map List.length ∧
    (∀ i, out.flatten[i]? = pieces.flatten[i]?.map fun b =>
      b ^^^ (Standard.extendedBlock key.toList nonce.toList
        ((counter.toNat + i / 64) % 2^64)).getD (i % 64) 0) ∧
    (∀ calls, ((start key nonce counter).applyAll (pieces.take calls)).2.processed.toNat =
      (pieces.take calls).flatten.length) ∧
    (∀ other : List Bytes, other.flatten = pieces.flatten →
      ((start key nonce counter).applyAll other).1.flatten = out.flatten) ∧
    (∀ back : List Bytes, back.flatten = out.flatten →
      ((start key nonce counter).applyAll back).1.flatten = pieces.flatten) := by
  intro out
  -- The output does not depend on the cuts.
  have hout : out.flatten =
      pieces.flatten.mapIdx fun i b => b ^^^ extendedByte key nonce counter i :=
    flatten_applyAll_start key nonce counter pieces
  refine ⟨((at_start key nonce counter).applyAll pieces).2.1, fun i => ?_, fun calls => ?_,
    fun other hother => ?_, fun back hback => ?_⟩
  · rw [hout, List.getElem?_mapIdx, extendedByte_eq_standard]
  · have hprefix : (pieces.take calls).flatten.length ≤ pieces.flatten.length :=
      ((List.take_prefix calls pieces).sublist.flatten).length_le
    exact toNat_processed_applyAll_start key nonce counter (lt_of_le_of_lt hprefix h)
  · rw [flatten_applyAll_start, hother, hout]
  · -- A keystream byte summed twice is gone.
    rw [flatten_applyAll_start, hback, hout, List.mapIdx_mapIdx]
    apply List.ext_getElem?
    intro i
    rw [List.getElem?_mapIdx]
    cases pieces.flatten[i]? <;> simp

/-- An instance whose counter leaves the low word, with an empty piece, a piece within a block and
pieces across blocks. -/
theorem start_applyAll_carry :
    let pieces : List Bytes := [List.replicate 10 1, [], List.replicate 60 2, List.replicate 130 3]
    pieces.flatten.length < 2^64 ∧
    let session := start (Vector.replicate 32 7) (Vector.replicate 24 9) 0xffffffff
    ∀ i, (session.applyAll pieces).1.flatten[i]? = pieces.flatten[i]?.map fun b =>
      b ^^^ (Standard.extendedBlock (List.replicate 32 7) (List.replicate 24 9)
        ((2^32 - 1 + i / 64) % 2^64)).getD (i % 64) 0 := by
  intro pieces
  have hlength : pieces.flatten.length < 2^64 := by
    simp only [pieces, List.length_flatten, List.map_cons, List.map_nil, List.length_replicate,
      List.length_nil, List.sum_cons, List.sum_nil]
    norm_num
  exact ⟨hlength, (start_applyAll _ _ 0xffffffff pieces hlength).2.1⟩

end Session

end SymmetricCrypto.ChaCha
