import Mathlib
import SymmetricCrypto.Bytes.LittleEndian.Range
import SymmetricCrypto.Proofs.Argon2.Addresses

/-!
# The input of the initial digest determines what it was made from

The initial digest reads six numbers, each in four bytes, and then the password, the salt, the secret and
the associated data, each after its length in four bytes. A code that `Delimits` its values lets a reader
find out from the front of a string which value comes first and where it ends. Both the numbers of four
bytes and the strings after their lengths do so (`delimits_le32`, `delimits_lengthPrefixed`), and so no two
lists of values that are as long as each other have the same code (`Delimits.flatMap_append_inj`).

A string whose length does not fit its four bytes is refused, so that no length is cut
(`initialInput_eq`). Hence the input of the digest determines all that the derivation depends on
(`initialInput_unambiguous`).
-/

namespace SymmetricCrypto.Argon2

open LittleEndian Standard Stretch.Standard

/-! ## Codes that are read from the front -/

/-- Of two strings that begin with the codes of values, the codes end at the same place if the strings are
the same, and they are of the same value. -/
def Delimits {α : Type} (code : α → Bytes) (values : Set α) : Prop :=
  ∀ a ∈ values, ∀ b ∈ values, ∀ x y, code a ++ x = code b ++ y → a = b ∧ x = y

/-- Lists of values of one length are read from the front. -/
theorem Delimits.flatMap_append_inj {α : Type} {code : α → Bytes} {values : Set α}
    (h : Delimits code values) {as bs : List α} (has : ∀ a ∈ as, a ∈ values)
    (hbs : ∀ b ∈ bs, b ∈ values) (hlength : as.length = bs.length) {x y : Bytes}
    (heq : as.flatMap code ++ x = bs.flatMap code ++ y) : as = bs ∧ x = y := by
  induction as generalizing bs with
  | nil =>
    obtain rfl := List.length_eq_zero_iff.mp hlength.symm
    exact ⟨rfl, heq⟩
  | cons a as ih =>
    cases bs with
    | nil => cases hlength
    | cons b bs =>
      rw [List.forall_mem_cons] at has hbs
      rw [List.flatMap_cons, List.flatMap_cons, List.append_assoc, List.append_assoc] at heq
      obtain ⟨rfl, hrest⟩ := h a has.1 b hbs.1 _ _ heq
      obtain ⟨rfl, rfl⟩ := ih has.2 hbs.2 (Nat.succ.inj hlength) hrest
      exact ⟨rfl, rfl⟩

/-- Numbers of four bytes are read from the front. -/
theorem delimits_le32 : Delimits le32 {n | n < 2^32} := by
  intro a ha b hb x y heq
  have hrange : 2^32 = 256^4 := by decide
  rw [Set.mem_ofPred_eq, hrange] at ha hb
  rw [le32_eq_encode, le32_eq_encode] at heq
  obtain ⟨hcode, hrest⟩ := List.append_inj heq (by rw [length_encode, length_encode])
  exact ⟨encode_inj ha hb hcode, hrest⟩

/-- Strings after their lengths are read from the front. -/
theorem delimits_lengthPrefixed : Delimits Standard.lengthPrefixed {data | data.length < 2^32} := by
  intro a ha b hb x y heq
  rw [Standard.lengthPrefixed, Standard.lengthPrefixed, List.append_assoc, List.append_assoc] at heq
  obtain ⟨hlength, hdata⟩ := delimits_le32 _ ha _ hb _ _ heq
  exact List.append_inj hdata hlength

/-! ## The input of the digest -/

/-- The numbers of the input. -/
def fixedNumbers (p : Params) : List ℕ :=
  [p.lanes.toNat, p.tagLength, p.memory.toNat, p.passes.toNat, 0x13, typeNumber p.variant]

/-- The strings of the input. -/
def strings (p : Params) (password salt : Bytes) : List Bytes :=
  [password, salt, p.secret.getD [], p.associated.getD []]

/-- The standard's input is the numbers and then the strings after their lengths. -/
theorem initialBytes_eq_flatMap (p : Params) (password salt : Bytes) :
    initialBytes p password salt =
      (fixedNumbers p).flatMap le32 ++
        (strings p password salt).flatMap Standard.lengthPrefixed := by
  simp only [initialBytes, fixedNumbers, strings, List.flatMap_cons, List.flatMap_nil,
    List.append_nil, List.append_assoc]

/-- The header has the standard's numbers. -/
theorem header_eq_flatMap (p : Params) : header p = (fixedNumbers p).flatMap le32 := by
  simp only [header, wordBytes, toNat_id_eq_typeNumber, fixedNumbers, le32_eq_encode,
    List.flatMap_cons, List.flatMap_nil, List.append_nil, List.append_assoc]
  rfl

/-- A string comes after its length, if this fits four bytes. -/
theorem lengthPrefixed_eq (data : Bytes) :
    lengthPrefixed data =
      if data.length < 2^32 then .ok (Standard.lengthPrefixed data)
      else .error (.invalidParameter .longInput) := by
  rw [Standard.lengthPrefixed, le32_eq_encode]
  rfl

/-- Strings come after their lengths, if each of these fits four bytes. -/
theorem mapM_lengthPrefixed (data : List Bytes) :
    data.mapM lengthPrefixed =
      if ∀ string ∈ data, string.length < 2^32 then .ok (data.map Standard.lengthPrefixed)
      else .error (.invalidParameter .longInput) := by
  induction data with
  | nil => rfl
  | cons string data ih =>
    rw [List.mapM_cons, ih, lengthPrefixed_eq]
    simp only [List.forall_mem_cons]
    by_cases hfirst : string.length < 2^32
    · by_cases hrest : ∀ string ∈ data, string.length < 2^32
      · rw [if_pos hfirst, if_pos hrest, if_pos ⟨hfirst, hrest⟩]
        rfl
      · have hany : ¬(string.length < 2^32 ∧ ∀ string ∈ data, string.length < 2^32) :=
          fun h => hrest h.2
        rw [if_pos hfirst, if_neg hrest, if_neg hany]
        rfl
    · have hany : ¬(string.length < 2^32 ∧ ∀ string ∈ data, string.length < 2^32) :=
        fun h => hfirst h.1
      rw [if_neg hfirst, if_neg hany]
      rfl

/-- The input is the header and then the strings after their lengths. -/
theorem initialInput_eq_mapM (p : Params) (password salt : Bytes) :
    initialInput p password salt =
      if 2^32 ≤ p.tagLength then .error (.invalidParameter .longTag)
      else (fun data => header p ++ data.flatten) <$>
        (strings p password salt).mapM lengthPrefixed := by
  unfold initialInput
  congr 1
  simp only [strings, Params.secretBytes, Params.associatedBytes, List.mapM_cons, List.mapM_nil,
    bind_assoc, pure_bind, map_bind, map_pure, List.flatten_cons, List.flatten_nil, List.append_nil, List.append_assoc]

/-- The input is the standard's, if the tag length and the lengths of the strings fit four bytes. -/
theorem initialInput_eq (p : Params) (password salt : Bytes) :
    initialInput p password salt =
      if 2^32 ≤ p.tagLength then .error (.invalidParameter .longTag)
      else if ∀ data ∈ strings p password salt, data.length < 2^32 then
        .ok (initialBytes p password salt)
      else .error (.invalidParameter .longInput) := by
  rw [initialInput_eq_mapM, mapM_lengthPrefixed, header_eq_flatMap, initialBytes_eq_flatMap,
    List.flatMap_def (f := Standard.lengthPrefixed)]
  congr 1
  split_ifs <;> rfl

/-- What is accepted fits. -/
theorem fits_of_initialInput_eq_ok {p : Params} {password salt input : Bytes}
    (h : initialInput p password salt = .ok input) :
    input = initialBytes p password salt ∧ (∀ n ∈ fixedNumbers p, n < 2^32) ∧
      ∀ data ∈ strings p password salt, data.length < 2^32 := by
  rw [initialInput_eq] at h
  split_ifs at h with htag hstrings
  refine ⟨(Except.ok.inj h).symm, ?_, hstrings⟩
  have hvariant : typeNumber p.variant < 2^32 := by cases p.variant <;> decide
  simp only [fixedNumbers, List.forall_mem_cons, List.not_mem_nil, false_implies, implies_true,
    and_true]
  exact ⟨p.lanes.toNat_lt, Nat.lt_of_not_le htag, p.memory.toNat_lt, p.passes.toNat_lt, by decide,
    hvariant⟩

/-! ## What it determines -/

/-- What a derivation depends on. To have no secret is to have the empty one, and it is the same with the
associated data. -/
structure Inputs where
  /-- The number of lanes. -/
  lanes : UInt32
  /-- The number of bytes to derive. -/
  tagLength : ℕ
  /-- The memory that was asked for, in KiB. -/
  memory : UInt32
  /-- The number of passes. -/
  passes : UInt32
  /-- The way in which references are chosen. -/
  variant : Variant
  /-- The password. -/
  password : Bytes
  /-- The salt. -/
  salt : Bytes
  /-- The secret, empty where there is none. -/
  secret : Bytes
  /-- The associated data, empty where there is none. -/
  associated : Bytes

/-- What a derivation depends on, from its parameters, password and salt. -/
def Inputs.of (p : Params) (password salt : Bytes) : Inputs :=
  ⟨p.lanes, p.tagLength, p.memory, p.passes, p.variant, password, salt, p.secret.getD [],
    p.associated.getD []⟩

/-- The variants have different numbers. -/
theorem typeNumber_injective : Function.Injective typeNumber := by
  intro v w h
  cases v <;> cases w <;> first | rfl | cases h

/-- The numbers and the strings are what a derivation depends on. -/
theorem inputs_eq_iff (p p' : Params) (password password' salt salt' : Bytes) :
    Inputs.of p password salt = Inputs.of p' password' salt' ↔
      fixedNumbers p = fixedNumbers p' ∧ strings p password salt = strings p' password' salt' := by
  simp only [Inputs.of, Inputs.mk.injEq, fixedNumbers, strings, List.cons.injEq, UInt32.toNat_inj,
    typeNumber_injective.eq_iff, and_true, true_and]
  tauto

/-- The standard's input determines the numbers and the strings. -/
theorem initialBytes_inj {p p' : Params} {password password' salt salt' : Bytes}
    (hnumbers : ∀ n ∈ fixedNumbers p, n < 2^32)
    (hstrings : ∀ data ∈ strings p password salt, data.length < 2^32)
    (hnumbers' : ∀ n ∈ fixedNumbers p', n < 2^32)
    (hstrings' : ∀ data ∈ strings p' password' salt', data.length < 2^32)
    (h : initialBytes p password salt = initialBytes p' password' salt') :
    Inputs.of p password salt = Inputs.of p' password' salt' := by
  rw [initialBytes_eq_flatMap, initialBytes_eq_flatMap] at h
  obtain ⟨hfixed, hrest⟩ := delimits_le32.flatMap_append_inj hnumbers hnumbers' rfl h
  -- No bytes are left after the strings.
  rw [← List.append_nil (List.flatMap _ (strings p password salt)),
    ← List.append_nil (List.flatMap _ (strings p' password' salt'))] at hrest
  obtain ⟨hvariable, -⟩ := delimits_lengthPrefixed.flatMap_append_inj hstrings hstrings' rfl hrest
  exact (inputs_eq_iff _ _ _ _ _ _).mpr ⟨hfixed, hvariable⟩

/-- The input of the initial digest is the same for two derivations exactly if they depend on the same: the
numbers of lanes, of bytes of the tag, of blocks and of passes, the variant, the password, the salt, the
secret and the associated data, where one that is absent is empty. A derivation with a tag length in range
is refused exactly if the length of one of the four strings does not fit its four bytes; otherwise its input
is the standard's, with every string whole. -/
theorem initialInput_unambiguous :
    (∀ (p p' : Params) (password password' salt salt' input input' : Bytes),
      initialInput p password salt = .ok input → initialInput p' password' salt' = .ok input' →
      (input = input' ↔ Inputs.of p password salt = Inputs.of p' password' salt')) ∧
    ∀ (p : Params) (password salt : Bytes),
      minTagLength ≤ p.tagLength → p.tagLength ≤ maxTagLength →
      let long := 2^32 - 1 < password.length ∨ 2^32 - 1 < salt.length ∨
        2^32 - 1 < (p.secret.getD []).length ∨ 2^32 - 1 < (p.associated.getD []).length
      ((∃ cause, initialInput p password salt = .error (.invalidParameter cause)) ↔ long) ∧
      (long → initialInput p password salt = .error (.invalidParameter .longInput)) ∧
      (¬long → initialInput p password salt = .ok (initialBytes p password salt)) := by
  refine ⟨fun p p' password password' salt salt' input input' h h' => ?_,
    fun p password salt _ htag => ?_⟩
  · -- An input that was given is the encoding of numbers and strings that fit, which is injective.
    obtain ⟨rfl, hnumbers, hstrings⟩ := fits_of_initialInput_eq_ok h
    obtain ⟨rfl, hnumbers', hstrings'⟩ := fits_of_initialInput_eq_ok h'
    refine ⟨initialBytes_inj hnumbers hstrings hnumbers' hstrings', fun hsame => ?_⟩
    obtain ⟨hfixed, hvariable⟩ := (inputs_eq_iff _ _ _ _ _ _).mp hsame
    rw [initialBytes_eq_flatMap, initialBytes_eq_flatMap, hfixed, hvariable]
  · intro long
    have hmax : maxTagLength < 2^32 := by decide
    -- The strings that do not fit are the long ones.
    have hfits : (∀ data ∈ strings p password salt, data.length < 2^32) ↔ ¬long := by
      simp only [strings, List.forall_mem_cons, List.not_mem_nil, false_implies, implies_true,
        and_true, long]
      omega
    rw [initialInput_eq, if_neg (by omega)]
    by_cases hlong : long
    · rw [if_neg fun h => hfits.mp h hlong]
      exact ⟨iff_of_true ⟨_, rfl⟩ hlong, fun _ => rfl, fun h => absurd hlong h⟩
    · rw [if_pos (hfits.mpr hlong)]
      exact ⟨iff_of_false (by rintro ⟨cause, ⟨⟩⟩) hlong, fun h => absurd h hlong, fun _ => rfl⟩

/-- An empty secret is as good as none, but the input changes if a byte moves from the salt to the password
or to the secret. A password of `2^32` bytes is refused. -/
theorem initialInput_unambiguous_moved_byte :
    let p := Params.interactive
    let input := initialInput p [1] [2, 3]
    input = initialInput { p with secret := some [] } [1] [2, 3] ∧
      input ≠ initialInput p [1, 2] [3] ∧
      input ≠ initialInput { p with secret := some [3] } [1] [2] ∧
      initialInput p (List.replicate (2^32) 0) [2, 3] = .error (.invalidParameter .longInput) := by
  intro p input
  obtain ⟨hsame, haccepts⟩ := initialInput_unambiguous
  -- The strings of the first four are short.
  have hnone : input = _ := (haccepts p [1] [2, 3] (by decide) (by decide)).2.2 (by decide)
  have hempty :=
    (haccepts { p with secret := some [] } [1] [2, 3] (by decide) (by decide)).2.2 (by decide)
  have hpassword := (haccepts p [1, 2] [3] (by decide) (by decide)).2.2 (by decide)
  have hsecret :=
    (haccepts { p with secret := some [3] } [1] [2] (by decide) (by decide)).2.2 (by decide)
  refine ⟨?_, fun heq => ?_, fun heq => ?_, ?_⟩
  · rw [hnone, hempty, (hsame _ _ _ _ _ _ _ _ hnone hempty).mpr rfl]
  · rw [hnone, hpassword] at heq
    have hinputs := (hsame _ _ _ _ _ _ _ _ hnone hpassword).mp (Except.ok.inj heq)
    exact absurd (congrArg Inputs.password hinputs) (by decide)
  · rw [hnone, hsecret] at heq
    have hinputs := (hsame _ _ _ _ _ _ _ _ hnone hsecret).mp (Except.ok.inj heq)
    exact absurd (congrArg Inputs.secret hinputs) (by decide)
  · refine (haccepts p (List.replicate (2^32) 0) [2, 3] (by decide) (by decide)).2.1 (.inl ?_)
    rw [List.length_replicate]
    decide

end SymmetricCrypto.Argon2
