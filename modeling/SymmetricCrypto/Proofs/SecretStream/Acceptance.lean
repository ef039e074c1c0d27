import Mathlib
import SymmetricCrypto.Proofs.ChaCha.Keystream
import SymmetricCrypto.SecretStream.Chunk

/-!
# The chunks that a stream accepts

`State.pull` opens a chunk exactly if `State.push` can have sealed it in the same state, and then
both leave the same state behind (`pull_of_push`, `push_of_pull`). Everything else is refused, with
an error that says what is wrong, and leaves the state alone (`pull_eq`).

The two sides reach the authenticated tag block by different ways. The sender encrypts the tag byte
with the zeros after it. The receiver encrypts a block of zeros, reads the tag byte off its first
byte, and puts the encrypted byte there. `set_tagBlock` shows that these are the same block, for
every byte.
-/

namespace SymmetricCrypto.SecretStream

open ChaCha

/-- The encrypted message of a chunk: what is between its first byte and its last 16. -/
def sealedBody (chunk : Bytes) : Bytes := chunk.tail.take (chunk.length - overhead)

/-- The authenticator that a chunk claims: its last 16 bytes. -/
def claimedMac (chunk : Bytes) : Bytes := chunk.drop (chunk.length - 16)

/-- A chunk that is long enough is its first byte, its encrypted message and its authenticator. -/
theorem eq_cons_sealedBody_append_claimedMac {chunk : Bytes} (h : overhead ≤ chunk.length) :
    chunk = chunk.headD 0 :: sealedBody chunk ++ claimedMac chunk := by
  cases chunk with
  | nil => simp [overhead] at h
  | cons first rest =>
    simp only [overhead, List.length_cons] at h
    have hbody : rest.length + 1 - overhead = rest.length - 16 := by
      unfold overhead
      omega
    have hmac : rest.length + 1 - 16 = rest.length - 16 + 1 := by omega
    simp only [sealedBody, claimedMac, List.headD_cons, List.tail_cons, List.length_cons, hbody,
      hmac, List.drop_succ_cons, List.cons_append, List.take_append_drop]

/-- The parts of a chunk that was put together from them: its encrypted message. -/
theorem sealedBody_cons_append {first : UInt8} {body mac : Bytes} (h : mac.length = 16) :
    sealedBody (first :: body ++ mac) = body := by
  have hlen : (first :: body ++ mac).length - overhead = body.length := by
    simp only [List.cons_append, List.length_cons, List.length_append, h, overhead]
    omega
  rw [sealedBody, hlen, List.cons_append, List.tail_cons, List.take_left]

/-- The parts of a chunk that was put together from them: its authenticator. -/
theorem claimedMac_cons_append {first : UInt8} {body mac : Bytes} (h : mac.length = 16) :
    claimedMac (first :: body ++ mac) = mac := by
  have hlen : (first :: body ++ mac).length - 16 = (first :: body).length := by
    rw [List.length_append, h, Nat.add_sub_cancel]
  rw [claimedMac, hlen, List.drop_left]

/-- A byte stands for a tag only if it is the byte of the tag. -/
theorem Tag.toByte_of_ofByte?_eq_some {byte : UInt8} {tag : Tag} (h : Tag.ofByte? byte = some tag) :
    tag.toByte = byte := by
  unfold Tag.ofByte? at h
  split_ifs at h with h0 h1 h2 h3
  · cases h
    exact h0.symm
  · cases h
    exact h1.symm
  · cases h
    exact h2.symm
  · cases h
    exact h3.symm

/-- A byte stands for no tag exactly if it is above three. -/
theorem Tag.ofByte?_eq_none_iff {byte : UInt8} : Tag.ofByte? byte = none ↔ 3 < byte := by
  revert byte
  decide +kernel

namespace State

/-- The tag byte that a chunk carries under a state: its first byte, decrypted. -/
def carriedByte (s : State) (chunk : Bytes) : UInt8 :=
  keystreamByte s.key s.nonce 1 0 ^^^ chunk.headD 0

/-- The authenticator that a chunk should have under a state, from the tag byte that it carries and
its encrypted message. -/
def expectedMac (s : State) (chunk associated : Bytes) : Poly1305.Tag :=
  s.mac associated (s.tagBlock (s.carriedByte chunk)) (sealedBody chunk)

/-- A byte of the block that carries a tag byte. -/
theorem getElem_tagBlock (s : State) (byte : UInt8) (i : Nat) (hi : i < 64) :
    (s.tagBlock byte)[i] = keystreamByte s.key s.nonce 1 i ^^^ (if i = 0 then byte else 0) := by
  rw [tagBlock, getElem_xorVector, Vector.getElem_set, Vector.getElem_replicate, UInt8.xor_comm]
  simp only [eq_comm]

/-- A byte that is summed twice with another one is back. -/
theorem xor_xor_cancel (key byte : UInt8) : key ^^^ (key ^^^ byte) = byte := by
  rw [← UInt8.xor_assoc, UInt8.xor_self, UInt8.zero_xor]

/-- The block of zeros with an encrypted tag byte in its first place is the block that carries the
decrypted tag byte. -/
theorem set_tagBlock (s : State) (chunk : Bytes) (i : Nat) (hi : i < 64) (hzero : i = 0) :
    (s.tagBlock 0).set i (chunk.headD 0) = s.tagBlock (s.carriedByte chunk) := by
  subst hzero
  refine Vector.ext fun j hj => ?_
  rw [Vector.getElem_set, getElem_tagBlock, getElem_tagBlock, carriedByte]
  by_cases h : 0 = j
  · rw [if_pos h, if_pos h.symm, ← h, xor_xor_cancel]
  · rw [if_neg h, if_neg (Ne.symm h), if_neg (Ne.symm h)]

/-- Decrypting is encrypting again. -/
theorem body_body (s : State) (message : Bytes) : s.body (s.body message) = message :=
  xorStream_xorStream _ _ _ _

/-- The encrypted message is as long as the message. -/
@[simp] theorem length_body (s : State) (message : Bytes) :
    (s.body message).length = message.length :=
  length_xorStream _ _ _ _

/-- What becomes of a chunk: one that is too short, one with another authenticator and one with a
byte that is no tag are refused, in this order, and leave the state alone. -/
theorem pull_eq (s : State) (chunk associated : Bytes) :
    s.pull chunk associated =
      if chunk.length < overhead then (.error (.malformed .shortChunk), s)
      else if claimedMac chunk ≠ (s.expectedMac chunk associated).toList then
        (.error .authenticationFailure, s)
      else
        match Tag.ofByte? (s.carriedByte chunk) with
        | some tag =>
          (.ok (s.body (sealedBody chunk), tag),
            s.advance (s.expectedMac chunk associated) (s.carriedByte chunk))
        | none => (.error (.malformed .unknownTag), s) := by
  cases chunk with
  | nil => rfl
  | cons first rest =>
    have hshort : (first :: rest).length < overhead ↔ rest.length < 16 := by
      simp only [List.length_cons, overhead]
      omega
    have hbody : sealedBody (first :: rest) = rest.take (rest.length - 16) := by
      simp only [sealedBody, List.tail_cons, List.length_cons, overhead]
      congr 1
    by_cases h : rest.length < 16
    · rw [if_pos (hshort.mpr h), pull, if_pos h]
    · -- The parts that are read are those of the chunk.
      have hclaimed : claimedMac (first :: rest) = rest.drop (rest.length - 16) := by
        have : (first :: rest).length - 16 = rest.length - 16 + 1 := by
          rw [List.length_cons]
          omega
        rw [claimedMac, this, List.drop_succ_cons]
      -- The authenticator is that of the block which carries the decrypted tag byte.
      have hmac : s.mac associated ((s.tagBlock 0).set 0 first) (rest.take (rest.length - 16)) =
          s.expectedMac (first :: rest) associated := by
        rw [expectedMac, hbody, ← set_tagBlock s (first :: rest) 0 (by decide) rfl, List.headD_cons]
      have hbyte : (s.tagBlock 0)[0] ^^^ first = s.carriedByte (first :: rest) := by
        rw [getElem_tagBlock, if_pos rfl, UInt8.xor_zero, carriedByte, List.headD_cons]
      rw [if_neg (hshort.not.mpr h), hclaimed, hbody, pull, if_neg h]
      simp only [hmac, hbyte]
      -- Both compare the same authenticators, one for equality and one for the difference.
      by_cases heq :
          (s.expectedMac (first :: rest) associated).toList = rest.drop (rest.length - 16)
      · refine (if_pos (Bytes.equal_iff.mpr heq)).trans
          (Eq.trans ?_ (if_neg (not_not.mpr heq.symm)).symm)
        cases Tag.ofByte? (s.carriedByte (first :: rest)) <;> rfl
      · rw [if_neg (Bytes.equal_iff.not.mpr heq), if_pos (Ne.symm heq)]

/-- A sealed chunk and the state after it, for a message that is not too long. -/
theorem push_eq {s : State} {message associated : Bytes} {tag : Tag}
    (h : message.length ≤ messageMax) :
    s.push message associated tag =
      (.ok ((s.tagBlock tag.toByte)[0] :: s.body message ++
          (s.mac associated (s.tagBlock tag.toByte) (s.body message)).toList),
        s.advance (s.mac associated (s.tagBlock tag.toByte) (s.body message)) tag.toByte) := by
  rw [push, if_neg (Nat.not_lt.mpr h)]

/-- Only messages that are not too long are sealed. -/
theorem length_le_of_push_eq_ok {s t : State} {message associated chunk : Bytes} {tag : Tag}
    (h : s.push message associated tag = (.ok chunk, t)) : message.length ≤ messageMax := by
  by_contra hlong
  rw [push, if_pos (Nat.lt_of_not_le hlong)] at h
  simp at h

/-- What was sealed opens in the same state, to the same message and tag, and leaves the same state.
-/
theorem pull_of_push {s t : State} {message associated chunk : Bytes} {tag : Tag}
    (h : s.push message associated tag = (.ok chunk, t)) :
    s.pull chunk associated = (.ok (message, tag), t) := by
  rw [push_eq (length_le_of_push_eq_ok h)] at h
  obtain ⟨hchunk, ht⟩ := Prod.mk.inj h
  rw [Except.ok.injEq] at hchunk
  generalize hm : s.mac associated (s.tagBlock tag.toByte) (s.body message) = mac at hchunk ht
  have hmac : mac.toList.length = 16 := Vector.length_toList
  -- What the receiver reads off the chunk is what the sender has put there.
  have hbyte : s.carriedByte chunk = tag.toByte := by
    rw [carriedByte, ← hchunk, List.cons_append, List.headD_cons, getElem_tagBlock, if_pos rfl,
      xor_xor_cancel]
  have hbody : sealedBody chunk = s.body message := by
    rw [← hchunk, sealedBody_cons_append hmac]
  have hexpected : s.expectedMac chunk associated = mac := by
    rw [expectedMac, hbyte, hbody, hm]
  have hclaimed : claimedMac chunk = mac.toList := by
    rw [← hchunk, claimedMac_cons_append hmac]
  have hlong : ¬ chunk.length < overhead := by
    rw [← hchunk, List.length_append, List.length_cons, hmac, overhead]
    omega
  rw [pull_eq, if_neg hlong, hexpected, if_neg (not_not.mpr hclaimed), hbyte, Tag.ofByte?_toByte,
    hbody, body_body, ht]

/-- What opens was sealed: in the same state, the message and the tag give this very chunk and the
same next state. -/
theorem push_of_pull {s t : State} {message associated chunk : Bytes} {tag : Tag}
    (fits : chunk.length ≤ messageMax + overhead)
    (h : s.pull chunk associated = (.ok (message, tag), t)) :
    s.push message associated tag = (.ok chunk, t) := by
  rw [pull_eq] at h
  split_ifs at h with hshort hforged
  · simp at h
  · simp at h
  · have hclaimed := not_not.mp hforged
    have hlong : overhead ≤ chunk.length := Nat.le_of_not_lt hshort
    cases htag : Tag.ofByte? (s.carriedByte chunk) with
    | none => simp [htag] at h
    | some carried =>
      rw [htag] at h
      obtain ⟨hresult, ht⟩ := Prod.mk.inj h
      obtain ⟨hmessage, rfl⟩ := Prod.mk.inj (Except.ok.inj hresult)
      -- The byte is that of the tag, so sealing takes the same block and the same authenticator.
      have hbyte := Tag.toByte_of_ofByte?_eq_some htag
      have hfits : message.length ≤ messageMax := by
        rw [← hmessage, length_body, sealedBody, List.length_take]
        omega
      have hbody : s.body message = sealedBody chunk := by rw [← hmessage, body_body]
      have hfirst : (s.tagBlock (s.carriedByte chunk))[0] = chunk.headD 0 := by
        rw [getElem_tagBlock, if_pos rfl, carriedByte, xor_xor_cancel]
      rw [push_eq hfits, hbyte, hbody, hfirst]
      have hmac : s.mac associated (s.tagBlock (s.carriedByte chunk)) (sealedBody chunk) =
          s.expectedMac chunk associated := rfl
      rw [hmac, ← hclaimed, ← eq_cons_sealedBody_append_claimedMac hlong, ht]

/-- A chunk that is refused leaves the state alone. -/
theorem snd_of_pull_eq_error {s t : State} {chunk associated : Bytes} {cause : Error}
    (h : s.pull chunk associated = (.error cause, t)) : t = s := by
  rw [pull_eq] at h
  split_ifs at h
  · exact (Prod.mk.inj h).2.symm
  · exact (Prod.mk.inj h).2.symm
  · split at h
    · simp at h
    · exact (Prod.mk.inj h).2.symm

/-- Opening accepts exactly what sealing can produce: a chunk opens to a message and a tag, and
leaves a state, exactly if sealing them in the same state gives this chunk and leaves this state.
Every other chunk is refused and leaves the state alone. The cause is the length below 17 bytes,
else the authenticator if it is not the expected one, else the tag byte above three. -/
theorem pull_accepts_exactly_pushed (s : State) (chunk associated : Bytes)
    (fits : chunk.length ≤ messageMax + overhead) :
    (∀ message tag t, s.pull chunk associated = (.ok (message, tag), t) ↔
      s.push message associated tag = (.ok chunk, t)) ∧
    ((¬ ∃ message tag t, s.push message associated tag = (.ok chunk, t)) →
      ∃ cause, s.pull chunk associated = (.error cause, s)) ∧
    (chunk.length < 17 → s.pull chunk associated = (.error (.malformed .shortChunk), s)) ∧
    (17 ≤ chunk.length →
      chunk.drop (chunk.length - 16) ≠ (s.expectedMac chunk associated).toList →
        s.pull chunk associated = (.error .authenticationFailure, s)) ∧
    (17 ≤ chunk.length →
      chunk.drop (chunk.length - 16) = (s.expectedMac chunk associated).toList →
        3 < s.carriedByte chunk →
          s.pull chunk associated = (.error (.malformed .unknownTag), s)) ∧
    Malformation.unknownTag.text = "unknown secretstream tag" := by
  refine ⟨fun message tag t => ⟨push_of_pull fits, pull_of_push⟩, ?_, ?_, ?_, ?_, rfl⟩
  · -- What no push gives is refused, since an opened chunk is a pushed one.
    intro hnone
    rcases hp : s.pull chunk associated with ⟨result, t⟩
    cases result with
    | ok opened => exact absurd ⟨_, _, _, push_of_pull fits hp⟩ hnone
    | error cause =>
      rw [snd_of_pull_eq_error hp]
      exact ⟨cause, rfl⟩
  · intro (hshort : chunk.length < overhead)
    rw [pull_eq, if_pos hshort]
  · intro (hlong : overhead ≤ chunk.length)
      (hforged : claimedMac chunk ≠ (s.expectedMac chunk associated).toList)
    rw [pull_eq, if_neg (Nat.not_lt.mpr hlong), if_pos hforged]
  · intro (hlong : overhead ≤ chunk.length)
      (hmac : claimedMac chunk = (s.expectedMac chunk associated).toList) hbyte
    rw [pull_eq, if_neg (Nat.not_lt.mpr hlong), if_neg (not_not.mpr hmac),
      Tag.ofByte?_eq_none_iff.mpr hbyte]

/-- The same for a chunk of 17 zeros under a state of zeros. -/
theorem pull_accepts_exactly_pushed_zeros :
    (List.replicate 17 (0 : UInt8)).length ≤ messageMax + overhead ∧
      ∀ message tag t,
        (State.ofHeader (Vector.replicate 32 0) (Vector.replicate 24 0)).pull
            (List.replicate 17 0) [] = (.ok (message, tag), t) ↔
          (State.ofHeader (Vector.replicate 32 0) (Vector.replicate 24 0)).push message [] tag =
            (.ok (List.replicate 17 0), t) :=
  ⟨by decide, (pull_accepts_exactly_pushed _ _ _ (by decide)).1⟩

end State

end SymmetricCrypto.SecretStream
