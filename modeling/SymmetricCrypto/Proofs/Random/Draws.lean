import Mathlib
import SymmetricCrypto.Argon2.Derivation
import SymmetricCrypto.SecretStream.State
import SymmetricCrypto.Proofs.Aes.Chaining
import SymmetricCrypto.Proofs.Aes.Counting
import SymmetricCrypto.Proofs.Argon2.Conformance
import SymmetricCrypto.Proofs.Random.Law

/-!
# Random calls are deterministic ones on what they draw

A generator may be handed to any number of calls one after the other, in any order: sessions and
messages of the two modes of operation, stream keys, senders, derivations, arrays and requests to the
generator itself. For each of them there is a deterministic counterpart, which takes the initial block,
the counter block, the key, the header or the salt from its caller (`Call.explicit`).

Each call draws once, as many bytes as it needs, and is its counterpart on these bytes (`perform_eq`).
Only a derivation under faulty parameters draws nothing (`Call.draws`). By induction a run is one draw
after the other (`snd_performAll`, `getElem?_performAll`), so the generator after it depends on the
sizes alone, and what each call draws depends on the sizes of those before it.
-/

namespace SymmetricCrypto.Random

open Aes (Block Session Sealed)

/-- A call to which a generator is handed. -/
inductive Call
  /-- A request to the generator itself. -/
  | plain (request : Request)
  /-- An array of so many bytes. -/
  | array (n : ℕ)
  /-- A session of cipher block chaining under a random initial block. -/
  | cbcSession (key : Aes.Key)
  /-- A session of counter mode from a random counter block. -/
  | ctrSession (key : Aes.Key)
  /-- A message in cipher block chaining. -/
  | cbcMessage (key : Aes.Key) (message : Bytes)
  /-- A message in counter mode. -/
  | ctrMessage (key : Aes.Key) (message : Bytes)
  /-- A key of a stream. -/
  | streamKey
  /-- The sending end of a stream under a random header. -/
  | sender (key : ChaCha.Key)
  /-- A tag under a random salt. -/
  | hasher (a : Argon2.Hasher) (available : ℕ) (password : Bytes)
  /-- A tag under a random salt, and under parameters that are checked first. -/
  | derivation (p : Argon2.Params) (available : ℕ) (password : Bytes)

/-- What a call gives. -/
inductive Reply
  /-- The answer of the generator. -/
  | plain (answer : Answer Error)
  /-- An array. -/
  | array (data : Bytes)
  /-- A session of cipher block chaining. -/
  | cbcSession (s : Session Block)
  /-- A session of counter mode. -/
  | ctrSession (s : Session Aes.Ctr.Counter)
  /-- An encrypted message. -/
  | message (result : Except Error Sealed)
  /-- A key of a stream. -/
  | streamKey (key : ChaCha.Key)
  /-- A header, and the sending end for it. -/
  | sender (header : SecretStream.Header) (s : SecretStream.State)
  /-- A tag with its salt. -/
  | derived (result : Except Error Argon2.Derived)

/-- The first `n` bytes of some data. -/
def vectorOf (n : ℕ) (data : Bytes) : Vector UInt8 n := Vector.ofFn fun i => data.getD i.val 0

namespace Call

/-- The number of bytes that a call needs. -/
def size : Call → ℕ
  | plain request => request.size
  | array n => n
  | cbcSession _ => 16
  | ctrSession _ => 16
  | cbcMessage _ _ => 16
  | ctrMessage _ _ => 16
  | streamKey => 32
  | sender _ => 24
  | hasher _ _ _ => 64
  | derivation _ _ _ => 64

/-- The sizes of the draws of a call: one, or none under faulty parameters. -/
def draws : Call → List ℕ
  | derivation p _ _ => if p.fault? = none then [64] else []
  | call => [call.size]

/-- The deterministic counterpart of a call: what it gives for the bytes that it needs. -/
def explicit : Call → Bytes → Reply
  | plain request, data => .plain (request.answer data)
  | array _, data => .array data
  | cbcSession key, data =>
    .cbcSession (Session.start Aes.Cbc.mode key .encrypting (vectorOf 16 data))
  | ctrSession key, data =>
    .ctrSession (Session.start Aes.Ctr.mode key .encrypting (vectorOf 16 data))
  | cbcMessage key message, data =>
    .message ((Session.start Aes.Cbc.mode key .encrypting (vectorOf 16 data)).complete Aes.Cbc.mode
      message Aes.Cbc.encrypt)
  | ctrMessage key message, data =>
    .message ((Session.start Aes.Ctr.mode key .encrypting (vectorOf 16 data)).complete Aes.Ctr.mode
      message Aes.Ctr.encrypt)
  | streamKey, data => .streamKey (vectorOf 32 data)
  | sender key, data =>
    .sender (vectorOf 24 data) (SecretStream.State.ofHeader key (vectorOf 24 data))
  | hasher a available password, data =>
    .derived ((a.derive available password data).map fun tag => ⟨tag, data⟩)
  | derivation p available password, data =>
    .derived ((Argon2.derive available p password data).map fun tag => ⟨tag, data⟩)

/-- The call with another key, message and password. -/
def withSecrets (aes : Aes.Key) (stream : ChaCha.Key) (message password : Bytes) : Call → Call
  | cbcSession _ => cbcSession aes
  | ctrSession _ => ctrSession aes
  | cbcMessage _ _ => cbcMessage aes message
  | ctrMessage _ _ => ctrMessage aes message
  | sender _ => sender stream
  | hasher a available _ => hasher a available password
  | derivation p available _ => derivation p available password
  | call => call

end Call

/-- A reply reports some bytes unchanged: as its data, or with the result that it made from them. A
message is always encrypted; a derivation may have failed and then reports nothing. -/
def Reply.Reports (drawn : Bytes) : Reply → Prop
  | plain (.bytes data) => data = drawn
  | plain (.tried data) => data = .ok drawn
  | plain (.number value) => value = LittleEndian.decode drawn
  | array data => data = drawn
  | cbcSession s => s.initial.toList = drawn
  | ctrSession s => s.initial.toList = drawn
  | message result => ∃ s, result = .ok s ∧ s.initial.toList = drawn
  | streamKey key => key.toList = drawn
  | sender header _ => header.toList = drawn
  | derived result => ∀ d, result = .ok d → d.salt = drawn

namespace Generator

/-- Hands the generator to a call. -/
def perform (g : Generator) : Call → Reply × Generator
  | .plain request =>
    let served : Answer Error × Generator := g.serve request
    (.plain served.1, served.2)
  | .array n =>
    let drawn := g.vector n
    (.array drawn.1.toList, drawn.2)
  | .cbcSession key =>
    let started := Session.startRandom Aes.Cbc.mode key g
    (.cbcSession started.1, started.2)
  | .ctrSession key =>
    let started := Session.startRandom Aes.Ctr.mode key g
    (.ctrSession started.1, started.2)
  | .cbcMessage key message =>
    let encrypted := Aes.Cbc.encryptMessage key message g
    (.message encrypted.1, encrypted.2)
  | .ctrMessage key message =>
    let encrypted := Aes.Ctr.encryptMessage key message g
    (.message encrypted.1, encrypted.2)
  | .streamKey =>
    let drawn := SecretStream.newKey g
    (.streamKey drawn.1, drawn.2)
  | .sender key =>
    let started := SecretStream.startSending key g
    (.sender started.1.1 started.1.2, started.2)
  | .hasher a available password =>
    let derived := a.deriveRandom available password g
    (.derived derived.1, derived.2)
  | .derivation p available password =>
    let derived := Argon2.deriveRandom available p password g
    (.derived derived.1, derived.2)

/-- Hands the generator to calls one after the other. -/
def performAll (g : Generator) : List Call → List Reply × Generator
  | [] => ([], g)
  | call :: calls =>
    let first := g.perform call
    let rest := first.2.performAll calls
    (first.1 :: rest.1, rest.2)

/-- The generator after fills of these sizes. -/
def after (g : Generator) (sizes : List ℕ) : Generator :=
  sizes.foldl (fun g n => (g.bytes n).2) g

end Generator

/-! ## The counterparts -/

/-- As many bytes as there are. -/
theorem toList_vectorOf {n : ℕ} {data : Bytes} (h : data.length = n) :
    (vectorOf n data).toList = data := by
  apply List.ext_getElem
  · rw [Vector.length_toList, h]
  · intro i hi hi'
    rw [Vector.getElem_toList]
    unfold vectorOf
    rw [Vector.getElem_ofFn]
    exact List.getD_eq_getElem _ _ hi'

/-- A message is encrypted, with the initial block beside the ciphertext. -/
theorem cbc_complete (key : Aes.Key) (initial : Block) (message : Bytes) :
    ∃ ciphertext, (Session.start Aes.Cbc.mode key .encrypting initial).complete Aes.Cbc.mode message
      Aes.Cbc.encrypt = .ok ⟨ciphertext, initial⟩ := by
  rw [Session.complete_eq_completeAll, Aes.Cbc.completeAll_encrypt]
  exact ⟨_, rfl⟩

/-- A message under counting is encrypted, and comes with its initial block. -/
theorem ctr_complete (key : Aes.Key) (initial : Block) (message : Bytes) :
    ∃ ciphertext, (Session.start Aes.Ctr.mode key .encrypting initial).complete Aes.Ctr.mode message
      Aes.Ctr.encrypt = .ok ⟨ciphertext, initial⟩ := by
  rw [Session.complete_eq_completeAll, Aes.Ctr.completeAll_encrypt]
  exact ⟨_, rfl⟩

/-- The salt of a derived tag is the one that was drawn. -/
theorem salt_of_map_eq_ok {result : Except Error Bytes} {salt : Bytes} {d : Argon2.Derived}
    (h : (result.map fun tag => (⟨tag, salt⟩ : Argon2.Derived)) = .ok d) : d.salt = salt := by
  cases result with
  | error e => cases h
  | ok tag =>
    cases h
    rfl

namespace Call

/-- The reply of a counterpart reports the bytes that it was given. -/
theorem reports_explicit (call : Call) {drawn : Bytes} (h : drawn.length = call.size) :
    (call.explicit drawn).Reports drawn := by
  cases call with
  | plain request => cases request <;> rfl
  | array n => rfl
  | cbcSession key => exact toList_vectorOf h
  | ctrSession key => exact toList_vectorOf h
  | cbcMessage key message =>
    obtain ⟨ciphertext, hsealed⟩ := cbc_complete key (vectorOf 16 drawn) message
    exact ⟨_, hsealed, toList_vectorOf h⟩
  | ctrMessage key message =>
    obtain ⟨ciphertext, hsealed⟩ := ctr_complete key (vectorOf 16 drawn) message
    exact ⟨_, hsealed, toList_vectorOf h⟩
  | streamKey => exact toList_vectorOf h
  | sender key => exact toList_vectorOf h
  | hasher a available password =>
    exact fun d => salt_of_map_eq_ok
  | derivation p available password =>
    exact fun d => salt_of_map_eq_ok

/-- A derivation with parameters in range draws its salt. -/
theorem draws_derivation_of_sound {p : Argon2.Params} (hp : p.fault? = none) (available : ℕ)
    (password : Bytes) : (derivation p available password).draws = [64] :=
  if_pos hp

/-- A derivation that is refused for its parameters draws nothing. -/
theorem draws_derivation_of_fault {p : Argon2.Params} {cause : Parameter}
    (hp : p.fault? = some cause) (available : ℕ) (password : Bytes) :
    (derivation p available password).draws = [] := by
  refine if_neg ?_
  rw [hp]
  exact Option.some_ne_none cause

/-- What a call draws does not depend on its keys, message and password. -/
theorem draws_withSecrets (aes : Aes.Key) (stream : ChaCha.Key) (message password : Bytes)
    (call : Call) : (call.withSecrets aes stream message password).draws = call.draws := by
  cases call <;> rfl

end Call

/-! ## One call -/

namespace Generator

/-- An array is the bytes. -/
theorem vector_eq (g : Generator) (n : ℕ) :
    g.vector n = (vectorOf n (g.bytes n).1, (g.bytes n).2) := by
  refine Prod.ext (Vector.toList_inj.mp ?_) rfl
  rw [toList_vectorOf (g.length_bytes n)]
  rfl

variable {ρ : Type}

/-- A random session is one with the initial block that was drawn. -/
theorem startRandom_eq (g : Generator) (mode : Aes.Mode ρ) (key : Aes.Key) :
    Session.startRandom mode key g =
      (Session.start mode key .encrypting (vectorOf 16 (g.bytes 16).1), (g.bytes 16).2) := by
  rw [Session.startRandom, vector_eq]

/-- A random derivation is one with the salt that was drawn. -/
theorem deriveRandom_eq (g : Generator) (a : Argon2.Hasher) (available : ℕ) (password : Bytes) :
    a.deriveRandom available password g =
      ((a.derive available password (g.bytes 64).1).map fun tag => ⟨tag, (g.bytes 64).1⟩,
        (g.bytes 64).2) := by
  have hlength : Argon2.randomSaltLength = 64 := rfl
  rw [Argon2.Hasher.deriveRandom, hlength]

/-- Parameters that break no bound derive as their hasher. -/
theorem derive_eq_hasher {p : Argon2.Params} (hp : p.fault? = none) (available : ℕ)
    (password salt : Bytes) :
    Argon2.derive available p password salt =
      Argon2.Hasher.derive ⟨p, hp⟩ available password salt := by
  rw [Argon2.derive, Argon2.Hasher.ofParams_eq_ok hp]
  exact pure_bind _ _

/-- With parameters in range, it is that of their hasher. -/
theorem deriveRandom_eq_hasher {p : Argon2.Params} (hp : p.fault? = none) (available : ℕ)
    (password : Bytes) (g : Generator) :
    Argon2.deriveRandom available p password g =
      Argon2.Hasher.deriveRandom ⟨p, hp⟩ available password g := by
  rw [Argon2.deriveRandom, Argon2.Hasher.ofParams_eq_ok hp]

/-- Parameters that break a bound fail before the salt is drawn. -/
theorem deriveRandom_eq_error {p : Argon2.Params} {cause : Parameter} (hp : p.fault? = some cause)
    (available : ℕ) (password : Bytes) (g : Generator) :
    Argon2.deriveRandom available p password g = (.error (.invalidParameter cause), g) := by
  rw [Argon2.deriveRandom, Argon2.Hasher.ofParams_eq_error hp]

/-- A call is its counterpart on one draw. -/
theorem perform_eq (g : Generator) (call : Call) :
    g.perform call = (call.explicit (g.bytes call.size).1, g.after call.draws) := by
  cases call with
  | plain request =>
    rw [perform, serve_eq]
    rfl
  | array n =>
    rw [perform, vector_eq, toList_vectorOf (g.length_bytes n)]
    rfl
  | cbcSession key =>
    rw [perform, startRandom_eq]
    rfl
  | ctrSession key =>
    rw [perform, startRandom_eq]
    rfl
  | cbcMessage key message =>
    rw [perform, Aes.Cbc.encryptMessage, startRandom_eq]
    rfl
  | ctrMessage key message =>
    rw [perform, Aes.Ctr.encryptMessage, startRandom_eq]
    rfl
  | streamKey =>
    rw [perform, SecretStream.newKey, vector_eq]
    rfl
  | sender key =>
    rw [perform, SecretStream.startSending, vector_eq]
    rfl
  | hasher a available password =>
    simp only [perform, deriveRandom_eq, Call.explicit, Call.size]
    rfl
  | derivation p available password =>
    -- Parameters are checked before the salt is drawn.
    rcases hp : p.fault? with _ | cause
    · rw [Call.draws_derivation_of_sound hp]
      simp only [perform, deriveRandom_eq_hasher hp, deriveRandom_eq, Call.explicit, Call.size,
        derive_eq_hasher hp]
      rfl
    · -- The counterpart fails in the same way, whatever it is given.
      rw [Call.draws_derivation_of_fault hp]
      simp only [perform, deriveRandom_eq_error hp, Call.explicit, Argon2.derive,
        Argon2.Hasher.ofParams_eq_error hp]
      rfl

/-! ## A run -/

/-- Draws that are made in two parts. -/
theorem after_append (g : Generator) (sizes more : List ℕ) :
    g.after (sizes ++ more) = (g.after sizes).after more :=
  List.foldl_append

/-- The generator after a run is that after its draws alone. -/
theorem snd_performAll (g : Generator) (calls : List Call) :
    (g.performAll calls).2 = g.after (calls.flatMap Call.draws) := by
  induction calls generalizing g with
  | nil => rfl
  | cons call calls ih =>
    rw [performAll, ih, perform_eq, List.flatMap_cons, after_append]

/-- Each call has one reply. -/
theorem length_performAll (g : Generator) (calls : List Call) :
    (g.performAll calls).1.length = calls.length := by
  induction calls generalizing g with
  | nil => rfl
  | cons call calls ih => rw [performAll, List.length_cons, ih, List.length_cons]

/-- Each reply of a run is that of the counterpart on the next bytes after the draws before. -/
theorem getElem?_performAll (g : Generator) {calls : List Call} {i : ℕ} {call : Call}
    (h : calls[i]? = some call) :
    (g.performAll calls).1[i]? = some (call.explicit
      ((g.after ((calls.take i).flatMap Call.draws)).bytes call.size).1) := by
  -- The first call moves the generator on, and the others start from there.
  induction calls generalizing g i with
  | nil => cases h
  | cons first calls ih =>
    rw [performAll, perform_eq]
    cases i with
    | zero =>
      obtain rfl := Option.some.inj h
      rfl
    | succ i =>
      rw [List.getElem?_cons_succ] at h ⊢
      rw [ih _ h, List.take_succ_cons, List.flatMap_cons, after_append]

/-- A call draws once, or it is a derivation under parameters that break a bound. -/
theorem draws_eq_or (call : Call) :
    call.draws = [call.size] ∨
      call.draws = [] ∧ ∃ p available password cause,
        call = .derivation p available password ∧ p.fault? = some cause ∧
        ∀ g : Generator, g.perform call = (.derived (.error (.invalidParameter cause)), g) := by
  cases call with
  | derivation p available password =>
    rcases hp : p.fault? with _ | cause
    · exact .inl (Call.draws_derivation_of_sound hp available password)
    · refine .inr ⟨Call.draws_derivation_of_fault hp available password, p, available, password,
        cause, rfl, hp, fun g => ?_⟩
      rw [perform, deriveRandom_eq_error hp]
  | _ => exact .inl rfl

/-- In a run of calls on one generator, whatever their order, each reply is that of the deterministic
counterpart on the bytes that the call drew, after the draws of the calls before it, and reports these
bytes unchanged. The generator after the run is that after the draws alone. Every call draws once, as many
bytes as it needs, except a derivation under parameters that break a bound: this one fails and leaves the
generator untouched. So with other keys, messages and passwords the generator is the same after the run. -/
theorem performAll_eq_explicit (g : Generator) (calls : List Call) :
    let run := g.performAll calls
    run.1.length = calls.length ∧ run.2 = g.after (calls.flatMap Call.draws) ∧
    (∀ (i : ℕ) (call : Call), calls[i]? = some call →
      let drawn := ((g.after ((calls.take i).flatMap Call.draws)).bytes call.size).1
      drawn.length = call.size ∧ run.1[i]? = some (call.explicit drawn) ∧
      (call.explicit drawn).Reports drawn) ∧
    (∀ call : Call, call.draws = [call.size] ∨
      call.draws = [] ∧ ∃ p available password cause,
        call = .derivation p available password ∧ p.fault? = some cause ∧
        ∀ g : Generator, g.perform call = (.derived (.error (.invalidParameter cause)), g)) ∧
    ∀ (aes : Aes.Key) (stream : ChaCha.Key) (message password : Bytes),
      (g.performAll (calls.map (Call.withSecrets aes stream message password))).2 = run.2 := by
  refine ⟨length_performAll g calls, snd_performAll g calls, fun i call h => ?_, draws_eq_or,
    fun aes stream message password => ?_⟩
  · have hlength := length_bytes (g.after ((calls.take i).flatMap Call.draws)) call.size
    exact ⟨hlength, getElem?_performAll g h, call.reports_explicit hlength⟩
  · rw [snd_performAll, snd_performAll, List.flatMap_map]
    simp only [Call.draws_withSecrets]

/-- A derivation that fails, between a stream key and a message: the message takes the 16 bytes after the
32 bytes of the key. -/
theorem performAll_eq_explicit_after_failure :
    let g : Generator := .ofSeed (Vector.replicate 32 7)
    let key : Aes.Key := ⟨.aes128, Vector.replicate _ 1⟩
    let faulty : Argon2.Params := { Argon2.Params.interactive with lanes := 0 }
    let calls : List Call := [.streamKey, .derivation faulty 0 [], .cbcMessage key [2], .plain (.fill 3)]
    calls[2]? = some (.cbcMessage key [2]) ∧
    (g.performAll calls).2 = g.after [32, 16, 3] ∧
    (g.performAll calls).1[2]? =
      some ((Call.cbcMessage key [2]).explicit ((g.after [32]).bytes 16).1) := by
  intro g key faulty calls
  have hfaulty : faulty.fault? = some .laneCount := by decide
  have hdraws := Call.draws_derivation_of_fault hfaulty 0 []
  have hall : calls.flatMap Call.draws = [32, 16, 3] := by
    simp only [calls, List.flatMap_cons, hdraws]
    rfl
  have hbefore : (calls.take 2).flatMap Call.draws = [32] := by
    simp only [calls, List.take_succ_cons, List.take_zero, List.flatMap_cons, hdraws]
    rfl
  obtain ⟨-, hafter, hreplies, -, -⟩ := performAll_eq_explicit g calls
  have hmessage : calls[2]? = some (.cbcMessage key [2]) := rfl
  refine ⟨hmessage, ?_, ?_⟩
  · rw [hafter, hall]
  · have hreply := (hreplies 2 _ hmessage).2.1
    rw [hbefore] at hreply
    exact hreply

end Generator

end SymmetricCrypto.Random
