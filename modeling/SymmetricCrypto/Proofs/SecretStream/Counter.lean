import Mathlib
import SymmetricCrypto.Proofs.Bytes.Increment
import SymmetricCrypto.Proofs.SecretStream.Epoch

/-!
# The counter in the nonce of a stream

The nonce of a chunk starts with the four bytes of the counter, and a chunk counts them up by the
carry from byte to byte (`take_nonce_moved`). The counter has gone around exactly if the nonce of the
chunk started with the largest number (`counter_moved_eq_zero_iff`), and then the key changes without
a tag that asks for it (`advance_eq_ite`). That this comes after `2^32` steps and not before rests on
the carry, which is exact at every width (`counting_exact`).
-/

namespace SymmetricCrypto.SecretStream

open LittleEndian

namespace State

/-- A chunk counts up the number in the first four bytes of the nonce. -/
theorem take_nonce_moved (s : State) (mac : Poly1305.Tag) :
    (s.moved mac).nonce.toList.take 4 = increment (s.nonce.toList.take 4) := by
  rw [take_nonce, take_nonce, increment_wordBytes]
  rfl

/-- The counter has gone around exactly if the nonce of the chunk started with the largest one. -/
theorem counter_moved_eq_zero_iff (s : State) (mac : Poly1305.Tag) :
    (s.moved mac).counter = 0 ↔ s.nonce.toList.take 4 = List.replicate 4 255 := by
  have hlength : (s.nonce.toList.take 4).length = 4 := List.length_take_of_le (by simp)
  have hlargest := decode_increment_eq_zero_iff (s.nonce.toList.take 4)
  rwa [← take_nonce_moved s mac, decode_take_nonce, hlength, ← UInt32.toNat_zero,
    UInt32.toNat_inj] at hlargest

/-- After a chunk the key changes if the tag asks for it, or if the nonce had the largest counter. -/
theorem advance_eq_ite (s : State) (mac : Poly1305.Tag) (tagByte : UInt8) :
    s.advance mac tagByte =
      if Tag.forcesRekey tagByte ∨ s.nonce.toList.take 4 = List.replicate 4 255 then
        (s.moved mac).rekey
      else s.moved mac := by
  rw [advance_eq]
  refine if_congr ?_ rfl rfl
  rw [Bool.or_eq_true, beq_iff_eq, counter_moved_eq_zero_iff]

end State

/-- Counting is exact at every width: the width stays, and the number goes up by one modulo `256^n`.
So from any start, `256^n` increments meet every byte string of the width once, then the start comes
back, and zero comes after the string with all bytes at 255 only. A stream counts its chunks in this
way in the first four bytes of its nonce, and it changes the key when they go around. -/
theorem counting_exact :
    (∀ bs : Bytes,
      (increment bs).length = bs.length ∧
      decode (increment bs) = (decode bs + 1) % 256^bs.length ∧
      Set.BijOn (fun k => increment^[k] bs) (Set.Iio (256^bs.length))
        {other | other.length = bs.length} ∧
      Function.minimalPeriod increment bs = 256^bs.length ∧
      (decode (increment bs) = 0 ↔ bs = List.replicate bs.length 255)) ∧
    ∀ (s : State) (mac : Poly1305.Tag) (tagByte : UInt8),
      (s.moved mac).nonce.toList.take 4 = increment (s.nonce.toList.take 4) ∧
      s.advance mac tagByte =
        if Tag.forcesRekey tagByte ∨ s.nonce.toList.take 4 = List.replicate 4 255 then
          (s.moved mac).rekey
        else s.moved mac := by
  constructor
  · intro bs
    exact ⟨length_increment bs, decode_increment bs, bijOn_iterate_increment bs,
      minimalPeriod_increment bs, decode_increment_eq_zero_iff bs⟩
  · intro s mac tagByte
    exact ⟨s.take_nonce_moved mac, s.advance_eq_ite mac tagByte⟩

end SymmetricCrypto.SecretStream
