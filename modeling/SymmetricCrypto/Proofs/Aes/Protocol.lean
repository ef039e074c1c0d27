import Mathlib
import SymmetricCrypto.Proofs.Aes.Acceptance
import SymmetricCrypto.Proofs.Aes.Counting

/-!
# The protocol of a session

To its caller, a session of either mode is a machine with three things in its state: its direction,
whether it is finalized, and the bytes that it has accepted (`Machine`). Whatever the calls and their
order, the session answers as the machine does, and no answer depends on its chunker, its register or
its output in another way (`run_eq_machine`).

`Operations.Spec` states what the two finalizers of a mode have to do, and each mode meets it
(`spec_operations`). The relation `Agrees` holds between the machine and the session: they have the
same direction and flag, and an open session has taken the accepted bytes. Each call keeps it
(`Agrees.perform`), and so does a run (`Agrees.run`).
-/

namespace SymmetricCrypto.Aes

open Session (Taken)
open Standard (cbcEncrypt cbcOpen ctr)

/-! ## Calls and answers -/

/-- What a caller asks of a session. -/
inductive Call
  /-- More data. -/
  | add (data : Bytes)
  /-- The finalizer of encryption. -/
  | encrypt
  /-- The finalizer of decryption. -/
  | decrypt
  /-- The initial block of the session. -/
  | initial

/-- What the session answers. -/
inductive Reply
  /-- Whether the data was taken. -/
  | added (result : Except Error Unit)
  /-- What the finalizer of encryption gives. -/
  | ciphertext (result : Except Error Sealed)
  /-- What the finalizer of decryption gives. -/
  | plaintext (result : Except Error Bytes)
  /-- The initial block. -/
  | initial (block : Block)

/-- The error of a result, if it is one. -/
def errorOf {α : Type} : Except Error α → Option Error
  | .error e => some e
  | .ok _ => none

/-- The error of an answer, if it is one. -/
def Reply.error? : Reply → Option Error
  | added result => errorOf result
  | ciphertext result => errorOf result
  | plaintext result => errorOf result
  | initial _ => none

/-- What a mode of operation offers to a caller. -/
structure Operations where
  /-- What the mode keeps from block to block. -/
  Register : Type
  /-- The mode itself. -/
  mode : Mode Register
  /-- The finalizer of encryption. -/
  encrypt : Session Register → Except Error Sealed × Session Register
  /-- The finalizer of decryption. -/
  decrypt : Session Register → Except Error Bytes × Session Register

/-- The operations of the two modes. -/
def operations : BlockMode → Operations
  | .cbc => ⟨Block, Cbc.mode, Cbc.encrypt, Cbc.decrypt⟩
  | .ctr => ⟨Ctr.Counter, Ctr.mode, Ctr.encrypt, Ctr.decrypt⟩

namespace Operations

variable (ops : Operations)

/-- Answers a call. -/
def perform (s : Session ops.Register) : Call → Reply × Session ops.Register
  | .add data => Prod.map .added id (s.add ops.mode data)
  | .encrypt => Prod.map .ciphertext id (ops.encrypt s)
  | .decrypt => Prod.map .plaintext id (ops.decrypt s)
  | .initial => (.initial s.initial, s)

/-- Answers calls one after the other. -/
def run : Session ops.Register → List Call → List Reply × Session ops.Register
  | s, [] => ([], s)
  | s, call :: calls =>
    let (reply, s) := ops.perform s call
    let (replies, s) := run s calls
    (reply :: replies, s)

end Operations

/-! ## The machine -/

/-- The ciphertext of a message. -/
def ciphertextOf (mode : BlockMode) (key : Key) (initial : Block) (message : Bytes) : Bytes :=
  match mode with
  | .cbc => cbcEncrypt key.permutation initial message
  | .ctr => ctr key.permutation initial message

/-- What a ciphertext opens to. -/
def plaintextOf (mode : BlockMode) (key : Key) (initial : Block) (ciphertext : Bytes) :
    Except Error Bytes :=
  match mode with
  | .cbc => cbcOpen key.permutation initial ciphertext
  | .ctr => .ok (ctr key.permutation initial ciphertext)

/-- All of a session that its caller can tell. -/
structure Machine where
  /-- What the session was opened for. -/
  direction : Direction
  /-- Whether the session was finalized. -/
  finished : Bool
  /-- The data that was accepted, as one byte string. -/
  accepted : Bytes

namespace Machine

/-- The finalizer of a direction. A wrong direction is refused first, then a second finalizer. -/
def finalize {α : Type} (mode : BlockMode) (m : Machine) (d : Direction)
    (result : Bytes → Except Error α) : Except Error α × Machine :=
  if m.direction ≠ d then (.error (.misuse (.wrongDirection mode)), m)
  else if m.finished then (.error (.misuse (.finalized mode)), m)
  else (result m.accepted, { m with finished := true })

/-- Answers a call. -/
def step (mode : BlockMode) (key : Key) (initial : Block) (m : Machine) : Call → Reply × Machine
  | .add data =>
    if m.finished then (.added (.error (.misuse (.finalized mode))), m)
    else (.added (.ok ()), { m with accepted := m.accepted ++ data })
  | .encrypt => Prod.map .ciphertext id
      (m.finalize mode .encrypting fun data => .ok ⟨ciphertextOf mode key initial data, initial⟩)
  | .decrypt => Prod.map .plaintext id
      (m.finalize mode .decrypting (plaintextOf mode key initial))
  | .initial => (.initial initial, m)

/-- Answers calls one after the other. -/
def run (mode : BlockMode) (key : Key) (initial : Block) : Machine → List Call → List Reply × Machine
  | m, [] => ([], m)
  | m, call :: calls =>
    let (reply, m) := m.step mode key initial call
    let (replies, m) := run mode key initial m calls
    (reply :: replies, m)

/-- The machine before its first call. -/
def start (direction : Direction) : Machine := ⟨direction, false, []⟩

end Machine

/-! ## What the modes have to do -/

/-- A finalizer gives the result for the data that its session has taken, unless it is refused. -/
structure Finalizes {ρ α : Type} (mode : Mode ρ) (d : Direction)
    (finalizer : Session ρ → Except Error α × Session ρ)
    (result : Key → Block → Bytes → Except Error α) : Prop where
  /-- A refused finalizer changes nothing. -/
  refused : ∀ s cause, s.refusal mode d = some cause → finalizer s = (.error (.misuse cause), s)
  /-- Of an open session, the result is that for all the data that it has taken. -/
  taken : ∀ key initial data s, Taken mode key d initial data s →
    ∃ register, finalizer s = (result key initial data, s.finish register)
  /-- The result itself is no refusal. -/
  result_ne : ∀ key initial data cause, result key initial data ≠ .error (.misuse cause)

/-- What the protocol needs of the operations of a mode. -/
structure Operations.Spec (ops : Operations) (mode : BlockMode) : Prop where
  /-- Refusals name this mode. -/
  name_eq : ops.mode.name = mode
  /-- No block is refused. -/
  total : ops.mode.Total
  /-- Encryption gives the ciphertext and the initial block. -/
  encrypt : Finalizes ops.mode .encrypting ops.encrypt fun key initial data =>
    .ok ⟨ciphertextOf mode key initial data, initial⟩
  /-- Decryption gives the plaintext, or what is wrong with the ciphertext. -/
  decrypt : Finalizes ops.mode .decrypting ops.decrypt (plaintextOf mode)

/-- Opening refuses nothing: what does not open is malformed. -/
theorem plaintextOf_ne_misuse (mode : BlockMode) (key : Key) (initial : Block) (data : Bytes)
    (cause : Misuse) : plaintextOf mode key initial data ≠ .error (.misuse cause) := by
  cases mode with
  | cbc =>
    have hopen := Cbc.cbcOpen_eq_ok_or_malformed key.permutation initial data
    rcases hopen with ⟨message, hok⟩ | ⟨malformation, herror⟩
    · rw [plaintextOf, hok]
      exact nofun
    · rw [plaintextOf, herror]
      exact nofun
  | ctr => exact nofun

/-- The finalizer of chained encryption gives the ciphertext of the data. -/
theorem Cbc.finalizes_encrypt : Finalizes mode .encrypting encrypt fun key initial data =>
    .ok ⟨ciphertextOf .cbc key initial data, initial⟩ where
  refused s cause hrefusal := by rw [encrypt, hrefusal]
  taken _ _ _ _ taken := ⟨_, encrypt_of_taken taken⟩
  result_ne := nofun

/-- The finalizer of chained decryption gives what the data opens to. -/
theorem Cbc.finalizes_decrypt : Finalizes mode .decrypting decrypt (plaintextOf .cbc) where
  refused s cause hrefusal := by rw [decrypt, hrefusal]
  taken _ _ _ _ taken := ⟨_, decrypt_of_taken taken⟩
  result_ne := plaintextOf_ne_misuse .cbc

/-- The finalizer of counting encryption gives the ciphertext of the data. -/
theorem Ctr.finalizes_encrypt : Finalizes mode .encrypting encrypt fun key initial data =>
    .ok ⟨ciphertextOf .ctr key initial data, initial⟩ where
  refused s cause hrefusal := by rw [encrypt, hrefusal]
  taken _ _ _ _ taken := encrypt_of_taken taken
  result_ne := nofun

/-- The finalizer of counting decryption gives the plaintext of the data. -/
theorem Ctr.finalizes_decrypt : Finalizes mode .decrypting decrypt (plaintextOf .ctr) where
  refused s cause hrefusal := by rw [decrypt, hrefusal]
  taken _ _ _ _ taken := decrypt_of_taken taken
  result_ne := plaintextOf_ne_misuse .ctr

/-- The operations of both modes do what the protocol needs. -/
theorem spec_operations (mode : BlockMode) : (operations mode).Spec mode := by
  cases mode with
  | cbc => exact ⟨rfl, Cbc.total_mode, Cbc.finalizes_encrypt, Cbc.finalizes_decrypt⟩
  | ctr => exact ⟨rfl, Ctr.total_mode, Ctr.finalizes_encrypt, Ctr.finalizes_decrypt⟩

/-! ## The session and the machine -/

/-- The session is in the state that the machine tells. Of a finalized session, only its direction and
its initial block are told: nothing else shows again. -/
structure Agrees (ops : Operations) (key : Key) (initial : Block) (m : Machine)
    (s : Session ops.Register) : Prop where
  /-- One direction. -/
  direction_eq : s.direction = m.direction
  /-- The initial block of the session. -/
  initial_eq : s.initial = initial
  /-- Both are finalized or both are open. -/
  finished_eq : s.finished = m.finished
  /-- An open session has taken the data that the machine has accepted. -/
  taken : m.finished = false → Taken ops.mode key m.direction initial m.accepted s

variable {ops : Operations} {mode : BlockMode} {key : Key} {initial : Block} {m : Machine}
  {s : Session ops.Register}

/-- An open session that has taken the accepted data. -/
theorem agrees_of_taken {direction : Direction} {data : Bytes}
    (taken : Taken ops.mode key direction initial data s) :
    Agrees ops key initial ⟨direction, false, data⟩ s where
  direction_eq := taken.direction_eq
  initial_eq := taken.initial_eq
  finished_eq := taken.unfinished
  taken _ := taken

/-- A finalized session agrees with the finalized machine, whatever it holds. -/
theorem Agrees.finish (agrees : Agrees ops key initial m s) (register : ops.Register) :
    Agrees ops key initial { m with finished := true } (s.finish register) where
  direction_eq := agrees.direction_eq
  initial_eq := agrees.initial_eq
  finished_eq := rfl
  taken := nofun

/-- The machine and the session give the same answer to a call: they refuse it and stay as they are, or
they do not refuse it and agree again. -/
inductive Answered (ops : Operations) (key : Key) (initial : Block) (m : Machine)
    (s : Session ops.Register) : Reply × Machine → Reply × Session ops.Register → Prop
  /-- Both refuse, with one error, and stay. -/
  | refused (reply : Reply) (cause : Misuse) (error_eq : reply.error? = some (.misuse cause))
      (cause_ne : cause ≠ .blockSpent) : Answered ops key initial m s (reply, m) (reply, s)
  /-- Neither refuses, and they agree again. -/
  | accepted (reply : Reply) (m' : Machine) (s' : Session ops.Register)
      (error_ne : ∀ cause, reply.error? ≠ some (.misuse cause))
      (agrees : Agrees ops key initial m' s') : Answered ops key initial m s (reply, m') (reply, s')

/-- Data is accepted unless the session is finalized. -/
theorem Agrees.add (agrees : Agrees ops key initial m s) (spec : ops.Spec mode) (data : Bytes) :
    Answered ops key initial m s (m.step mode key initial (.add data)) (ops.perform s (.add data)) := by
  obtain ⟨direction, finished, accepted⟩ := m
  rw [Machine.step, Operations.perform]
  cases finished with
  | true =>
    rw [Session.add, if_pos agrees.finished_eq, if_pos rfl, spec.name_eq]
    exact .refused _ (.finalized mode) rfl nofun
  | false =>
    -- The step of the mode cannot fail, so the chunker takes all of the data.
    obtain ⟨t, hadd, htaken⟩ := (agrees.taken rfl).add spec.total data
    rw [hadd, if_neg Bool.false_ne_true]
    exact .accepted _ _ _ nofun (agrees_of_taken htaken)

/-- A finalizer is refused for the reason that the machine gives, and else gives its result. -/
theorem Agrees.finalize {α : Type} {d : Direction}
    {finalizer : Session ops.Register → Except Error α × Session ops.Register}
    {result : Key → Block → Bytes → Except Error α} (agrees : Agrees ops key initial m s)
    (name_eq : ops.mode.name = mode) (finalizes : Finalizes ops.mode d finalizer result)
    (wrap : Except Error α → Reply) (error_wrap : ∀ r, (wrap r).error? = errorOf r) :
    Answered ops key initial m s
      (Prod.map wrap id (m.finalize mode d (result key initial)))
      (Prod.map wrap id (finalizer s)) := by
  -- The session refuses for the reasons of the machine, since it has its direction and its flag.
  have hrefusal : s.refusal ops.mode d =
      if m.direction ≠ d then some (.wrongDirection mode)
      else if m.finished then some (.finalized mode) else none := by
    rw [Session.refusal, agrees.direction_eq, agrees.finished_eq, name_eq]
  unfold Machine.finalize
  by_cases hdirection : m.direction ≠ d
  · rw [if_pos hdirection] at hrefusal
    rw [if_pos hdirection, finalizes.refused s _ hrefusal]
    exact .refused _ (.wrongDirection mode) (error_wrap _) (by simp)
  by_cases hm : m.finished = true
  · rw [if_neg hdirection, if_pos hm] at hrefusal
    rw [if_neg hdirection, if_pos hm, finalizes.refused s _ hrefusal]
    exact .refused _ (.finalized mode) (error_wrap _) (by simp)
  · obtain rfl : m.direction = d := not_not.mp hdirection
    obtain ⟨register, hresult⟩ := finalizes.taken key initial m.accepted s
      (agrees.taken (Bool.eq_false_of_not_eq_true hm))
    rw [if_neg hdirection, if_neg hm, hresult]
    refine .accepted _ _ _ ?_ (agrees.finish register)
    -- An error of the result is no refusal.
    intro cause herror
    have hne := finalizes.result_ne key initial m.accepted cause
    rw [error_wrap] at herror
    cases hr : result key initial m.accepted with
    | error e =>
      rw [hr] at herror hne
      exact hne (congrArg Except.error (Option.some.inj herror))
    | ok a =>
      rw [hr] at herror
      exact absurd herror (Option.some_ne_none _).symm

/-- One call. -/
theorem Agrees.perform (agrees : Agrees ops key initial m s) (spec : ops.Spec mode) (call : Call) :
    Answered ops key initial m s (m.step mode key initial call) (ops.perform s call) := by
  cases call with
  | add data => exact agrees.add spec data
  | encrypt => exact agrees.finalize spec.name_eq spec.encrypt .ciphertext fun _ => rfl
  | decrypt => exact agrees.finalize spec.name_eq spec.decrypt .plaintext fun _ => rfl
  | initial =>
    rw [Machine.step, Operations.perform, agrees.initial_eq]
    exact .accepted _ _ _ nofun agrees

/-- A run of calls. -/
theorem Agrees.run (agrees : Agrees ops key initial m s) (spec : ops.Spec mode)
    (calls : List Call) :
    (ops.run s calls).1 = (m.run mode key initial calls).1 ∧
      Agrees ops key initial (m.run mode key initial calls).2 (ops.run s calls).2 ∧
      ∀ reply ∈ (ops.run s calls).1, reply.error? ≠ some (.misuse .blockSpent) := by
  induction calls generalizing m s with
  | nil => exact ⟨rfl, agrees, nofun⟩
  | cons call calls ih =>
    have hanswered := agrees.perform spec call
    rw [Operations.run, Machine.run]
    -- Whether the call was refused or not, session and machine agree for the rest of the run.
    generalize m.step mode key initial call = expected at *
    generalize ops.perform s call = answer at *
    cases hanswered with
    | refused reply cause herror hcause =>
      obtain ⟨hreplies, hagrees, hspent⟩ := ih agrees
      refine ⟨congrArg _ hreplies, hagrees, List.forall_mem_cons.mpr ⟨?_, hspent⟩⟩
      rw [herror]
      exact fun h => hcause (Error.misuse.inj (Option.some.inj h))
    | accepted reply m' s' herror hagain =>
      obtain ⟨hreplies, hagrees, hspent⟩ := ih hagain
      exact ⟨congrArg _ hreplies, hagrees, List.forall_mem_cons.mpr ⟨herror .blockSpent, hspent⟩⟩

/-- A call that is refused leaves the session as it is. -/
theorem Agrees.perform_eq_self (agrees : Agrees ops key initial m s) (spec : ops.Spec mode)
    (call : Call) {cause : Misuse} (h : (ops.perform s call).1.error? = some (.misuse cause)) :
    (ops.perform s call).2 = s := by
  have hanswered := agrees.perform spec call
  generalize m.step mode key initial call = expected at *
  generalize ops.perform s call = answer at *
  cases hanswered with
  | refused => rfl
  | accepted reply m' s' herror => exact absurd h (herror cause)

/-- Whatever is called and in whatever order, a session of either mode answers as the machine does,
whose state is the direction, the flag and the accepted bytes. They agree in the end, and the initial
block is that of the start. A call that is refused as misuse leaves the session as it is, and no call
is refused because a block was transformed before. -/
theorem run_eq_machine (mode : BlockMode) (key : Key) (direction : Direction) (initial : Block)
    (calls : List Call) :
    let ops := operations mode
    let answered := ops.run (Session.start ops.mode key direction initial) calls
    let expected := (Machine.start direction).run mode key initial calls
    answered.1 = expected.1 ∧
    (answered.2.direction = expected.2.direction ∧ answered.2.finished = expected.2.finished ∧
      answered.2.initial = initial) ∧
    (∀ call cause, (ops.perform answered.2 call).1.error? = some (.misuse cause) →
      (ops.perform answered.2 call).2 = answered.2) ∧
    ∀ reply ∈ answered.1, reply.error? ≠ some (.misuse .blockSpent) := by
  intro ops answered expected
  have spec : ops.Spec mode := spec_operations mode
  have hstart : Agrees ops key initial (Machine.start direction)
      (Session.start ops.mode key direction initial) :=
    agrees_of_taken (Session.taken_start ops.mode key direction initial)
  obtain ⟨hreplies, hagrees, hspent⟩ := hstart.run spec calls
  refine ⟨hreplies, ⟨hagrees.direction_eq, hagrees.finished_eq, hagrees.initial_eq⟩, ?_, hspent⟩
  exact fun call cause => hagrees.perform_eq_self spec call

end SymmetricCrypto.Aes
