import Mathlib
import SymmetricCrypto.Bytes.LittleEndian.Range

/-!
# Little-endian words and the numbers they make up

A number is read from its first bytes and from the rest (`decode_eq_take_add_drop`), so a byte
string is a number in base `2^32` with the words at every fourth position as digits
(`decode_eq_wordAt_add`). Words that are written one after the other are such a number again
(`decode_flatMap_wordBytes`), and `ofWords` writes them in this way (`toList_ofWords`). `words`
reads them back (`words_ofWords`), and it reads two parts one after the other (`words_append`).
-/

namespace SymmetricCrypto.LittleEndian

/-- The value of a byte string has as many bits as the bytes. -/
theorem decode_lt_two_pow (bs : Bytes) : decode bs < 2^(8 * bs.length) := by
  rw [Nat.pow_mul]
  exact decode_lt bs

/-- A number is read in two parts. -/
theorem decode_append (a b : Bytes) : decode (a ++ b) = decode a + 256^a.length * decode b := by
  induction a with
  | nil => simp [decode]
  | cons x a ih =>
    rw [List.cons_append, decode, decode, ih, List.length_cons, Nat.pow_succ']
    ring

/-- A number is read from the first bytes and from the rest; there may be fewer bytes than asked. -/
theorem decode_eq_take_add_drop (data : Bytes) (n : ℕ) :
    decode data = decode (data.take n) + 256^n * decode (data.drop n) := by
  rcases lt_or_ge data.length n with hshort | hlong
  · rw [List.take_of_length_le hshort.le, List.drop_of_length_le hshort.le]
    simp [decode]
  · conv_lhs => rw [← List.take_append_drop n data]
    rw [decode_append, List.length_take, Nat.min_eq_left hlong]

/-- Byte strings of one length are told apart by their numbers. -/
theorem decode_inj {a b : Bytes} (h : a.length = b.length) : decode a = decode b ↔ a = b := by
  constructor
  · intro hvalue
    rw [← encode_decode a, ← encode_decode b, h, hvalue]
  · rintro rfl
    rfl

/-- The bytes of a number are those of its remainder. -/
theorem encode_mod (n v : ℕ) : encode n (v % 256^n) = encode n v := by
  induction n generalizing v with
  | zero => rfl
  | succ n ih =>
    have hlow : UInt8.ofNat (v % 256^(n + 1)) = UInt8.ofNat v := by
      apply UInt8.toNat_inj.mp
      rw [UInt8.toNat_ofNat', UInt8.toNat_ofNat']
      exact Nat.mod_mod_of_dvd _ (dvd_pow_self 256 n.succ_ne_zero)
    have hhigh : v % 256^(n + 1) / 256 = v / 256 % 256^n := by
      rw [Nat.pow_succ', Nat.mod_mul_right_div_self]
    rw [encode, encode, hlow, hhigh, ih]

/-- A number is the sum of its digits, each times a power of the base. -/
theorem decode_eq_sum (data : Bytes) :
    decode data = ∑ i ∈ Finset.range data.length, (data.getD i 0).toNat * 256^i := by
  induction data with
  | nil => rfl
  | cons b data ih =>
    rw [decode, ih, List.length_cons, Finset.sum_range_succ', Finset.mul_sum, add_comm]
    congr 1
    · apply Finset.sum_congr rfl
      intro i _
      rw [List.getD_cons_succ, pow_succ]
      ring
    · rw [List.getD_cons_zero, pow_zero, mul_one]

/-- Each digit of a number. -/
theorem getElem_encode (n v i : ℕ) (hi : i < (encode n v).length) :
    (encode n v)[i] = UInt8.ofNat (v / 256^i) := by
  induction n generalizing v i with
  | zero => simp [encode] at hi
  | succ n ih =>
    cases i with
    | zero => simp [encode]
    | succ i =>
      simp only [encode, List.getElem_cons_succ]
      rw [ih, Nat.div_div_eq_div_mul, ← pow_succ']

/-- The value of a word that is read at a position. -/
theorem toNat_wordAt (data : Bytes) (start : ℕ) :
    (wordAt data start).toNat = decode ((data.drop start).take 4) := by
  have hlt : decode ((data.drop start).take 4) < 2^32 := by
    calc decode ((data.drop start).take 4)
        < 256^((data.drop start).take 4).length := decode_lt _
      _ ≤ 256^4 := Nat.pow_le_pow_right (by decide) (List.length_take_le 4 _)
      _ = 2^32 := by decide
  exact Nat.mod_eq_of_lt hlt

/-- Before the end of the first part, the words of two parts are those of the first. -/
theorem wordAt_append_left {a : Bytes} {start : ℕ} (h : start + 4 ≤ a.length) (b : Bytes) :
    wordAt (a ++ b) start = wordAt a start := by
  have hdrop : 4 ≤ (a.drop start).length := by
    rw [List.length_drop]
    omega
  rw [wordAt, wordAt, List.drop_append_of_le_length (by omega), List.take_append_of_le_length hdrop]

/-- Behind the first part, the words of two parts are those of the second. -/
theorem wordAt_append_right (a b : Bytes) (start : ℕ) :
    wordAt (a ++ b) (a.length + start) = wordAt b start := by
  rw [wordAt, wordAt, ← List.drop_drop, List.drop_left]

/-- What follows a position is the word there and what follows the word. -/
theorem decode_drop_eq_wordAt_add (data : Bytes) (start : ℕ) :
    decode (data.drop start) =
      (wordAt data start).toNat + 2^32 * decode (data.drop (start + 4)) := by
  rw [decode_eq_take_add_drop _ 4, toNat_wordAt, List.drop_drop]
  norm_num

/-- Up to 20 bytes are five words. -/
theorem decode_eq_wordAt_add {data : Bytes} (h : data.length ≤ 20) :
    decode data = (wordAt data 0).toNat + 2^32 * ((wordAt data 4).toNat +
      2^32 * ((wordAt data 8).toNat + 2^32 * ((wordAt data 12).toNat +
        2^32 * (wordAt data 16).toNat))) := by
  have hempty : decode (data.drop 20) = 0 := by
    rw [List.drop_of_length_le h, decode]
  calc decode data
      = decode (data.drop 0) := by rw [List.drop_zero]
    _ = _ := by
        rw [decode_drop_eq_wordAt_add data 0, decode_drop_eq_wordAt_add data 4,
          decode_drop_eq_wordAt_add data 8, decode_drop_eq_wordAt_add data 12,
          decode_drop_eq_wordAt_add data 16, hempty, Nat.mul_zero, Nat.add_zero]

/-- The bytes of a word, each by a shift. -/
theorem wordBytes_eq_ofFn (w : UInt32) :
    wordBytes w = List.ofFn fun j : Fin 4 => (w >>> UInt32.ofNat (8 * j.val)).toUInt8 := by
  have hbyte : ∀ j < 4, UInt8.ofNat (w.toNat / 256^j) = (w >>> UInt32.ofNat (8 * j)).toUInt8 := by
    intro j hj
    apply UInt8.toNat_inj.mp
    have hshift : (UInt32.ofNat (8 * j)).toNat % 32 = 8 * j := by
      rw [UInt32.toNat_ofNat']
      omega
    rw [UInt8.toNat_ofNat', UInt32.toNat_toUInt8, UInt32.toNat_shiftRight, hshift,
      Nat.shiftRight_eq_div_pow, Nat.pow_mul]
  rw [wordBytes]
  simp only [encode, Nat.div_div_eq_div_mul, List.ofFn_succ, List.ofFn_zero]
  have h0 := hbyte 0 (by decide)
  have h1 := hbyte 1 (by decide)
  have h2 := hbyte 2 (by decide)
  have h3 := hbyte 3 (by decide)
  norm_num at h0 h1 h2 h3 ⊢
  exact ⟨h0, h1, h2, h3⟩

/-- A word has four bytes. -/
@[simp] theorem length_wordBytes (w : UInt32) : (wordBytes w).length = 4 :=
  length_encode 4 w.toNat

/-- The bytes of a word read back. -/
theorem decode_wordBytes (w : UInt32) : decode (wordBytes w) = w.toNat := by
  rw [wordBytes, decode_encode]
  exact Nat.mod_eq_of_lt w.toNat_lt

/-- Words that are written one after the other are the digits of a number. -/
theorem decode_flatMap_wordBytes (w : UInt32) (ws : List UInt32) :
    decode ((w :: ws).flatMap wordBytes) = w.toNat + 2^32 * decode (ws.flatMap wordBytes) := by
  rw [List.flatMap_cons, decode_append, length_wordBytes, decode_wordBytes]
  norm_num

/-- The bytes of words are those of each word, one after the other. -/
theorem toList_ofWords {n : ℕ} (ws : Vector UInt32 n) :
    (ofWords ws).toList = ws.toList.flatMap wordBytes := by
  have hword : ∀ i : Fin n, (List.ofFn fun j : Fin 4 =>
      (ws[(4 * i.val + j.val) / 4] >>> UInt32.ofNat (8 * ((4 * i.val + j.val) % 4))).toUInt8) =
        wordBytes ws[i] := by
    intro i
    rw [wordBytes_eq_ofFn]
    congr 1
    funext j
    have hdiv : (4 * i.val + j.val) / 4 = i.val := by omega
    have hmod : (4 * i.val + j.val) % 4 = j.val := by omega
    simp only [hdiv, hmod]
    rfl
  have hlist : (List.ofFn fun i : Fin n => wordBytes ws[i]) = ws.toList.map wordBytes := by
    apply List.ext_getElem
    · simp
    · intro i _ _
      simp
  rw [ofWords, Vector.toList_ofFn, List.ofFn_mul', List.flatMap_def]
  simp only [hword, hlist]

/-- A word of a vector is the word at its place. -/
theorem getElem_words (n : ℕ) (bs : Vector UInt8 (4 * n)) {i : ℕ} (hi : i < n) :
    (words n bs)[i] = wordAt bs.toList (4 * i) := by
  have hfour : (bs.toList.drop (4 * i)).take 4 =
      [bs[4 * i], bs[4 * i + 1], bs[4 * i + 2], bs[4 * i + 3]] := by
    apply List.ext_getElem
    · simp only [List.length_take, List.length_drop, Vector.length_toList, List.length_cons,
        List.length_nil]
      omega
    · intro j _ hj
      have hj4 : j = 0 ∨ j = 1 ∨ j = 2 ∨ j = 3 := by
        simp only [List.length_cons, List.length_nil] at hj
        omega
      rw [List.getElem_take, List.getElem_drop, Vector.getElem_toList]
      rcases hj4 with rfl | rfl | rfl | rfl <;> rfl
  rw [wordAt, hfour]
  exact Vector.getElem_ofFn hi

/-- The words of two vectors, one after the other. -/
theorem words_append {m n : ℕ} (a : Vector UInt8 (4 * m)) (b : Vector UInt8 (4 * n))
    {bs : Vector UInt8 (4 * (m + n))} (hbs : bs.toList = a.toList ++ b.toList) :
    words (m + n) bs = words m a ++ words n b := by
  refine Vector.ext fun i hi => ?_
  rw [getElem_words, hbs, Vector.getElem_append]
  split
  case isTrue hfirst =>
    rw [getElem_words, wordAt_append_left]
    rw [Vector.length_toList]
    omega
  case isFalse hlater =>
    have hplace : 4 * i = a.toList.length + 4 * (i - m) := by
      rw [Vector.length_toList]
      omega
    rw [getElem_words, hplace, wordAt_append_right]

/-- Words read back from their bytes. -/
theorem words_ofWords {n : ℕ} (ws : Vector UInt32 n) : words n (ofWords ws) = ws := by
  refine Vector.ext fun i hi => ?_
  have hbyte (j : ℕ) (hj : j < 4) :
      (ofWords ws)[4 * i + j] = (ws[i] >>> UInt32.ofNat (8 * j)).toUInt8 := by
    have hdiv : (4 * i + j) / 4 = i := by omega
    have hmod : (4 * i + j) % 4 = j := by omega
    unfold ofWords
    rw [Vector.getElem_ofFn]
    simp only [hdiv, hmod]
  have hbytes : wordBytes ws[i] = [(ofWords ws)[4 * i], (ofWords ws)[4 * i + 1],
      (ofWords ws)[4 * i + 2], (ofWords ws)[4 * i + 3]] := by
    rw [wordBytes_eq_ofFn, hbyte 1 (by decide), hbyte 2 (by decide), hbyte 3 (by decide)]
    exact congrArg (· :: _) (hbyte 0 (by decide)).symm
  calc (words n (ofWords ws))[i]
      = UInt32.ofNat (decode (wordBytes ws[i])) := by
        rw [hbytes]
        exact Vector.getElem_ofFn hi
    _ = ws[i] := by rw [decode_wordBytes, UInt32.ofNat_toNat]

end SymmetricCrypto.LittleEndian
