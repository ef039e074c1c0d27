import Mathlib
import SymmetricCrypto.Bytes.LittleEndian.Range
import SymmetricCrypto.Proofs.SecretStream.Acceptance

/-!
# The authenticated string determines what it was made from

An authenticator reads the parts of a transcript as one string. The transcripts of sealed messages
and of chunks both end with two lengths of 8 bytes, which are read back from the end of the string
(`flatten_append_lengths_inj`). They give the lengths of all parts, the zeros included, and strings
that are cut at the same places have the same parts. It makes no difference to this whether the zeros
fill up a block, as they do not after the message of a chunk.
-/

namespace SymmetricCrypto

open LittleEndian

/-- A byte string whose length fits 8 bytes even when a block of 64 bytes is counted with it. -/
def LengthFits (data : Bytes) : Prop := data.length < 2^64 - 64

/-- Two lengths are read back from the end of a string. -/
theorem flatten_append_lengths_inj {parts parts' : List Bytes} {a b a' b' : ℕ}
    (h : (parts ++ [encode 8 a, encode 8 b]).flatten =
      (parts' ++ [encode 8 a', encode 8 b']).flatten)
    (ha : a < 256^8) (hb : b < 256^8) (ha' : a' < 256^8) (hb' : b' < 256^8) :
    a = a' ∧ b = b' := by
  rw [List.flatten_append, List.flatten_append] at h
  simp only [List.flatten_cons, List.flatten_nil, List.append_nil] at h
  have hlengths := List.append_inj_right' h (by simp)
  obtain ⟨hfirst, hsecond⟩ := List.append_inj hlengths (by simp)
  exact ⟨encode_inj ha ha' hfirst, encode_inj hb hb' hsecond⟩

namespace Aead

/-- The transcript of a sealed message ends with two lengths. -/
theorem transcript_eq_append (associated ciphertext : Bytes) :
    transcript associated ciphertext =
      [associated, Poly1305.padding associated, ciphertext, Poly1305.padding ciphertext] ++
        [encode 8 associated.length, encode 8 ciphertext.length] := rfl

/-- The string of a sealed message determines the associated data and the ciphertext. -/
theorem flatten_transcript_inj {associated associated' ciphertext ciphertext' : Bytes}
    (ha : LengthFits associated) (hc : LengthFits ciphertext)
    (ha' : LengthFits associated') (hc' : LengthFits ciphertext')
    (h : (transcript associated ciphertext).flatten =
      (transcript associated' ciphertext').flatten) :
    associated = associated' ∧ ciphertext = ciphertext' := by
  unfold LengthFits at ha hc ha' hc'
  rw [transcript_eq_append, transcript_eq_append] at h
  obtain ⟨hassociated, hciphertext⟩ :=
    flatten_append_lengths_inj h (by omega) (by omega) (by omega) (by omega)
  -- The two lengths give those of the zeros, so both strings are cut at the same places.
  have hparts := List.eq_iff_flatten_eq.mpr
    ⟨h, by simp [Poly1305.padding, hassociated, hciphertext]⟩
  simp only [List.cons_append, List.cons.injEq] at hparts
  exact ⟨hparts.1, hparts.2.2.1⟩

end Aead

namespace SecretStream

/-- The transcript of a chunk ends with two lengths. -/
theorem transcript_eq_append (associated : Bytes) (tagBlock : Vector UInt8 64) (body : Bytes) :
    transcript associated tagBlock body =
      [associated, Poly1305.padding associated, tagBlock.toList, body,
        List.replicate (body.length % 16) 0] ++
          [encode 8 associated.length, encode 8 (64 + body.length)] := rfl

/-- The string of a chunk determines the associated data, the tag block and the encrypted message. -/
theorem flatten_transcript_inj {associated associated' body body' : Bytes}
    {tagBlock tagBlock' : Vector UInt8 64} (ha : LengthFits associated) (hb : LengthFits body)
    (ha' : LengthFits associated') (hb' : LengthFits body')
    (h : (transcript associated tagBlock body).flatten =
      (transcript associated' tagBlock' body').flatten) :
    associated = associated' ∧ tagBlock = tagBlock' ∧ body = body' := by
  unfold LengthFits at ha hb ha' hb'
  rw [transcript_eq_append, transcript_eq_append] at h
  obtain ⟨hassociated, hsum⟩ :=
    flatten_append_lengths_inj h (by omega) (by omega) (by omega) (by omega)
  have hbody : body.length = body'.length := Nat.add_left_cancel hsum
  -- The number of zeros after the message is known from its length, though they fill up no block.
  have hparts := List.eq_iff_flatten_eq.mpr
    ⟨h, by simp [Poly1305.padding, hassociated, hbody]⟩
  simp only [List.cons_append, List.cons.injEq] at hparts
  exact ⟨hparts.1, Vector.toList_inj.mp hparts.2.2.1, hparts.2.2.2.1⟩

/-- The tag block determines the first byte of the chunk that carries it. -/
theorem State.tagBlock_carriedByte_inj (s : State) {first first' : UInt8}
    (h : s.tagBlock (s.carriedByte [first]) = s.tagBlock (s.carriedByte [first'])) :
    first = first' := by
  have hread := congrArg (·[0]) h
  simpa only [getElem_tagBlock, if_pos, carriedByte, xor_xor_cancel, List.headD_cons] using hread

end SecretStream

/-- What is authenticated is unambiguous: the string of a sealed message for the associated data and
the ciphertext, the string of a chunk for the associated data, the tag block and the encrypted
message, and in any one state, where the first byte of a chunk gives the tag block, the string for
the associated data, that byte and the encrypted message. -/
theorem transcripts_unambiguous :
    (Set.InjOn (fun p : Bytes × Bytes => (Aead.transcript p.1 p.2).flatten)
      {p | LengthFits p.1 ∧ LengthFits p.2}) ∧
    (Set.InjOn (fun p : Bytes × Vector UInt8 64 × Bytes =>
        (SecretStream.transcript p.1 p.2.1 p.2.2).flatten)
      {p | LengthFits p.1 ∧ LengthFits p.2.2}) ∧
    ∀ s : SecretStream.State,
      Set.InjOn (fun p : Bytes × UInt8 × Bytes =>
        (SecretStream.transcript p.1 (s.tagBlock (s.carriedByte [p.2.1])) p.2.2).flatten)
      {p | LengthFits p.1 ∧ LengthFits p.2.2} := by
  refine ⟨?sealed, ?chunk, fun s => ?pulled⟩
  case sealed =>
    rintro ⟨a, c⟩ ⟨ha, hc⟩ ⟨a', c'⟩ ⟨ha', hc'⟩ h
    obtain ⟨rfl, rfl⟩ := Aead.flatten_transcript_inj ha hc ha' hc' h
    rfl
  case chunk =>
    rintro ⟨a, t, b⟩ ⟨ha, hb⟩ ⟨a', t', b'⟩ ⟨ha', hb'⟩ h
    obtain ⟨rfl, rfl, rfl⟩ := SecretStream.flatten_transcript_inj ha hb ha' hb' h
    rfl
  case pulled =>
    rintro ⟨a, first, b⟩ ⟨ha, hb⟩ ⟨a', first', b'⟩ ⟨ha', hb'⟩ h
    obtain ⟨rfl, hblock, rfl⟩ := SecretStream.flatten_transcript_inj ha hb ha' hb' h
    have hfirst : first = first' := SecretStream.State.tagBlock_carriedByte_inj s hblock
    rw [hfirst]

/-- Messages of 8 and of 16 zeros, which are the same bytes once the zeros of the format follow. -/
theorem transcripts_unambiguous_zeros :
    let tagBlock : Vector UInt8 64 := Vector.replicate 64 3
    (Aead.transcript [0] [5]).flatten ≠ (Aead.transcript [0, 0] [5]).flatten ∧
      (SecretStream.transcript [] tagBlock (List.replicate 8 0)).flatten ≠
        (SecretStream.transcript [] tagBlock (List.replicate 16 0)).flatten := by
  intro tagBlock
  have hshort {data : Bytes} (h : data.length ≤ 16) : LengthFits data := by
    unfold LengthFits
    omega
  refine ⟨fun h => ?_, fun h => ?_⟩
  · have hpair : (([0], [5]) : Bytes × Bytes) = ([0, 0], [5]) :=
      transcripts_unambiguous.1 ⟨hshort (by decide), hshort (by decide)⟩
        ⟨hshort (by decide), hshort (by decide)⟩ h
    exact absurd hpair (by decide)
  · have hparts : (([], tagBlock, List.replicate 8 0) : Bytes × Vector UInt8 64 × Bytes) =
        ([], tagBlock, List.replicate 16 0) :=
      transcripts_unambiguous.2.1 ⟨hshort (by decide), hshort (by decide)⟩
        ⟨hshort (by decide), hshort (by decide)⟩ h
    have hbody := congrArg (·.2.2.length) hparts
    exact absurd hbody (by decide)

end SymmetricCrypto
