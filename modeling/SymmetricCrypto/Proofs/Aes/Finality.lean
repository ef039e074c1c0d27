import Mathlib
import SymmetricCrypto.Proofs.Aes.Protocol

/-!
# How often a session is finalized

Between two wipes, a session of either mode is finalized at most once, and after its finalizer it takes
neither data nor another finalizer. A wipe opens it again: the flag goes with everything else, while the
direction stays. So a run of requests finalizes the session once and for all (`FinalizesOnce`) exactly
if nothing that needs an open session comes after a finalizer and a wipe (`finalizesOnce_iff`). Such a
session goes on without a round key (`wiped_session_finalizes_again`).

What a request does depends on two things of the session, its direction and its flag (`Handled`), and
not on its keys, its register or its data. Hence the theorems on runs hold of every session, also one
that was wiped before.
-/

namespace SymmetricCrypto.Aes

open Chunker (blocks)

/-! ## Requests and events -/

/-- What is done to a session. -/
inductive Request
  /-- One of the calls of the protocol. -/
  | call (call : Call)
  /-- The secrets are overwritten. -/
  | wipe

/-- What has been done to a session, with the answer to a call. -/
inductive Event
  /-- A call was answered. -/
  | answered (call : Call) (reply : Reply)
  /-- The secrets were overwritten. -/
  | wiped

namespace Operations

variable (ops : Operations)

/-- Does what is requested. -/
def handle (s : Session ops.Register) : Request → Event × Session ops.Register
  | .call call => Prod.map (.answered call) id (ops.perform s call)
  | .wipe => (.wiped, s.wipe ops.mode)

/-- The events of requests that are handled one after the other. -/
def history : Session ops.Register → List Request → List Event
  | _, [] => []
  | s, request :: requests =>
    let (event, s) := ops.handle s request
    event :: history s requests

end Operations

/-- The answer is that the call is not allowed. -/
def Reply.Refuses (reply : Reply) : Prop := ∃ cause, reply.error? = some (.misuse cause)

/-- A reply without an error is no refusal. -/
theorem Reply.not_refuses_of_error?_eq_none {reply : Reply} (h : reply.error? = none) :
    ¬ reply.Refuses := by
  rintro ⟨cause, hcause⟩
  rw [h] at hcause
  contradiction

/-- A finalizer was let through, whatever it made of the data. -/
def Event.Finalizes : Event → Prop
  | answered .encrypt reply => ¬ reply.Refuses
  | answered .decrypt reply => ¬ reply.Refuses
  | _ => False

/-- Neither data nor a finalizer was let through. -/
def Event.Closed : Event → Prop
  | answered (.add _) reply => reply.Refuses
  | answered .encrypt reply => reply.Refuses
  | answered .decrypt reply => reply.Refuses
  | answered .initial _ => True
  | wiped => True

/-- At most one finalizer was let through, and after it neither data nor a finalizer. -/
def FinalizesOnce (events : List Event) : Prop :=
  events.Pairwise fun earlier later => earlier.Finalizes → ¬ later.Finalizes ∧ later.Closed

/-- The finalizer of a direction. -/
def Direction.finalizer : Direction → Call
  | encrypting => .encrypt
  | decrypting => .decrypt

/-- What only an open session of this direction takes: data, and the finalizer. -/
def Request.NeedsOpen (d : Direction) (request : Request) : Prop :=
  (∃ data, request = .call (.add data)) ∨ request = .call d.finalizer

/-- To call is not to wipe. -/
theorem Request.call_ne_wipe (call : Call) : Request.call call ≠ .wipe := nofun

/-- The two directions have different finalizers. -/
theorem Direction.finalizer_injective : Function.Injective finalizer := by
  rintro (_ | _) (_ | _) h
  · rfl
  · contradiction
  · contradiction
  · rfl

/-- A finalizer does not add data. -/
theorem Direction.finalizer_ne_add (d : Direction) (data : Bytes) : d.finalizer ≠ .add data := by
  cases d <;> exact nofun

/-- Of the two finalizers, a session needs to be open for that of its own direction. -/
theorem Request.needsOpen_finalizer_iff {d d' : Direction} :
    (Request.call d'.finalizer).NeedsOpen d ↔ d' = d := by
  constructor
  · rintro (⟨data, h⟩ | h)
    · exact absurd (Request.call.inj h) (d'.finalizer_ne_add data)
    · exact Direction.finalizer_injective (Request.call.inj h)
  · rintro rfl
    exact .inr rfl

/-- The answer to a finalizer finalizes unless it is a refusal. -/
theorem Event.finalizes_finalizer_iff (d : Direction) (reply : Reply) :
    (answered d.finalizer reply).Finalizes ↔ ¬ reply.Refuses := by
  cases d <;> rfl

/-- The answer to a finalizer lets nothing through exactly if it is a refusal. -/
theorem Event.closed_finalizer_iff (d : Direction) (reply : Reply) :
    (answered d.finalizer reply).Closed ↔ reply.Refuses := by
  cases d <;> rfl

/-- An event that lets nothing through finalizes nothing. -/
theorem Event.Closed.not_finalizes {event : Event} (closed : event.Closed) : ¬ event.Finalizes := by
  match event with
  | answered .encrypt _ | answered .decrypt _ => exact not_not.mpr closed
  | answered (.add _) _ => exact id
  | answered .initial _ => exact id
  | wiped => exact id

/-- Where nothing is let through, no finalizer is. -/
theorem finalizesOnce_of_closed {events : List Event} (h : ∀ event ∈ events, event.Closed) :
    FinalizesOnce events :=
  List.pairwise_of_forall_mem_list fun earlier hearlier _ _ hfinalizes =>
    absurd hfinalizes (h earlier hearlier).not_finalizes

/-! ## One request -/

/-- A request is answered as the direction and the flag of the session say. -/
structure Handled {ρ : Type} (s : Session ρ) (request : Request) (event : Event) (t : Session ρ) :
    Prop where
  /-- The direction stays. -/
  direction_eq : t.direction = s.direction
  /-- The flag is set by the finalizer of the direction and cleared by a wipe. -/
  finished_iff : t.finished = true ↔
    request ≠ .wipe ∧ (s.finished = true ∨ request = .call s.direction.finalizer)
  /-- The finalizer of the direction gives its result in an open session only. -/
  finalizes_iff : event.Finalizes ↔ request = .call s.direction.finalizer ∧ s.finished = false
  /-- A request that needs an open session is refused in a finalized one only. -/
  closed_iff : event.Closed ↔ (request.NeedsOpen s.direction → s.finished = true)

/-- Where the finalizer is allowed, its answer is no refusal, and it finalizes the session. -/
def Closes {ρ α : Type} (mode : Mode ρ) (d : Direction)
    (finalizer : Session ρ → Except Error α × Session ρ) : Prop :=
  ∀ s, s.refusal mode d = none → ∃ result register, finalizer s = (result, s.finish register) ∧
    ∀ cause, errorOf result ≠ some (.misuse cause)

/-- Padding that cannot be taken off is malformed. -/
theorem Padding.strip_ne_misuse (padded : Bytes) (cause : Misuse) :
    errorOf (Padding.strip padded) ≠ some (.misuse cause) := by
  unfold Padding.strip
  split
  · exact nofun
  · dsimp only
    split_ifs <;> exact nofun

/-- Encrypting with chaining closes the session. -/
theorem Cbc.closes_encrypt : Closes mode .encrypting encrypt := by
  intro s hrefusal
  obtain ⟨⟨out, register⟩, hstep⟩ := total_mode s.schedule s.direction s.register
    (Padding.fill s.pending.pending s.pending.length_le)
  refine ⟨.ok ⟨(s.output ++ out.toArray).toList, s.initial⟩, register, ?_, nofun⟩
  simp only [encrypt, hrefusal, Session.advance, hstep]

/-- Decrypting with chaining closes the session, even if the padding is malformed. -/
theorem Cbc.closes_decrypt : Closes mode .decrypting decrypt := by
  intro s hrefusal
  refine ⟨_, s.register, by rw [decrypt, hrefusal], fun cause => ?_⟩
  split_ifs
  · simp [errorOf]
  · exact Padding.strip_ne_misuse _ cause

/-- Whether a block is pending or not, the output is given. -/
theorem Ctr.exists_flush_eq (s : Session Counter) :
    ∃ output register, flush s = (.ok output, s.finish register) := by
  unfold flush
  split_ifs
  · exact ⟨_, _, rfl⟩
  · exact ⟨_, _, rfl⟩

/-- Encrypting with counting closes the session. -/
theorem Ctr.closes_encrypt : Closes mode .encrypting encrypt := by
  intro s hrefusal
  obtain ⟨output, register, hflush⟩ := exists_flush_eq s
  refine ⟨.ok ⟨output, s.initial⟩, register, ?_, nofun⟩
  simp only [encrypt, hrefusal, hflush]
  rfl

/-- Decrypting with counting closes the session. -/
theorem Ctr.closes_decrypt : Closes mode .decrypting decrypt := by
  intro s hrefusal
  obtain ⟨output, register, hflush⟩ := exists_flush_eq s
  refine ⟨.ok output, register, ?_, nofun⟩
  simp only [decrypt, hrefusal, hflush]

/-- An open session takes data, whatever its keys are. -/
theorem Session.exists_add_eq {ρ : Type} {mode : Mode ρ} (total : mode.Total) (s : Session ρ)
    (hopen : s.finished = false) (data : Bytes) :
    ∃ register output pending,
      s.add mode data = (.ok (), { s with register, output, pending }) := by
  obtain ⟨⟨register, output⟩, hrun⟩ := exists_foldlM_eq_ok total s.schedule s.direction
    (blocks 16 (s.pending.pending ++ data)) (s.register, s.output)
  have hstate := (Chunker.absorb_eq (by decide) (advance mode s.schedule s.direction)
    (s.register, s.output) s.pending data).1
  rw [hrun] at hstate
  unfold Session.add
  rw [if_neg (by rw [hopen]; exact Bool.false_ne_true)]
  generalize s.pending.absorb (advance mode s.schedule s.direction) (s.register, s.output) data =
    result at *
  obtain ⟨_, pending⟩ := result
  obtain rfl : _ = Except.ok (register, output) := hstate
  exact ⟨register, output, pending, rfl⟩

variable {ops : Operations} {mode : BlockMode}

/-- Data is taken unless the session is finalized. -/
theorem handled_add (spec : ops.Spec mode) (s : Session ops.Register) (data : Bytes) :
    Handled s (.call (.add data)) (.answered (.add data) (.added (s.add ops.mode data).1))
      (s.add ops.mode data).2 := by
  have hfinalizer : Request.call (.add data) ≠ .call s.direction.finalizer := fun h =>
    s.direction.finalizer_ne_add data (Request.call.inj h).symm
  cases hs : s.finished with
  | true =>
    rw [Session.add, if_pos hs]
    exact
      { direction_eq := rfl
        finished_iff := by simp [hs]
        finalizes_iff := by simp [Event.Finalizes, hs]
        closed_iff := ⟨fun _ _ => hs, fun _ => ⟨_, rfl⟩⟩ }
  | false =>
    obtain ⟨register, output, pending, hadd⟩ := s.exists_add_eq spec.total hs data
    rw [hadd]
    exact
      { direction_eq := rfl
        finished_iff := by simp [hs, hfinalizer]
        finalizes_iff := by simp [Event.Finalizes, hfinalizer]
        closed_iff := ⟨fun h => absurd h (Reply.not_refuses_of_error?_eq_none rfl),
          fun h => absurd (h (.inl ⟨data, rfl⟩)) (by rw [hs]; exact Bool.false_ne_true)⟩ }

/-- A finalizer is let through in its direction, unless the session is finalized. -/
theorem handled_finalizer {α : Type} {d : Direction}
    {finalizer : Session ops.Register → Except Error α × Session ops.Register}
    (refused : ∀ s cause, s.refusal ops.mode d = some cause →
      finalizer s = (.error (.misuse cause), s))
    (closes : Closes ops.mode d finalizer) (wrap : Except Error α → Reply)
    (error_wrap : ∀ r, (wrap r).error? = errorOf r) (s : Session ops.Register) :
    Handled s (.call d.finalizer) (.answered d.finalizer (wrap (finalizer s).1)) (finalizer s).2 := by
  have hrequest : Request.call d.finalizer = .call s.direction.finalizer ↔ d = s.direction :=
    ⟨fun h => Direction.finalizer_injective (Request.call.inj h), fun h => by rw [h]⟩
  cases hrefusal : s.refusal ops.mode d with
  | some cause =>
    -- The session has the other direction, or it is finalized.
    have hclosed : d = s.direction → s.finished = true := by
      rintro rfl
      by_contra hopen
      rw [Session.refusal, if_neg (not_not.mpr rfl), if_neg hopen] at hrefusal
      contradiction
    have hreply : (wrap (finalizer s).1).Refuses :=
      ⟨cause, by rw [error_wrap, refused s cause hrefusal]; rfl⟩
    rw [refused s cause hrefusal] at hreply ⊢
    exact
      { direction_eq := rfl
        finished_iff := ⟨fun h => ⟨Request.call_ne_wipe _, .inl h⟩,
          fun h => h.2.elim id (hclosed ∘ hrequest.mp)⟩
        finalizes_iff := by
          rw [Event.finalizes_finalizer_iff, hrequest]
          constructor
          · exact absurd hreply
          · rintro ⟨hd, hopen⟩
            exact absurd (hclosed hd) (by rw [hopen]; exact Bool.false_ne_true)
        closed_iff := by
          rw [Event.closed_finalizer_iff, Request.needsOpen_finalizer_iff]
          exact ⟨fun _ => hclosed, fun _ => hreply⟩ }
  | none =>
    -- The session has this direction, and it is open.
    obtain ⟨hd, hopen⟩ : d = s.direction ∧ s.finished = false := by
      rw [Session.refusal] at hrefusal
      split_ifs at hrefusal with hdirection hfinished
      exact ⟨(not_not.mp hdirection).symm, Bool.eq_false_of_not_eq_true hfinished⟩
    obtain ⟨result, register, hfinalizer, hresult⟩ := closes s hrefusal
    have hreply : ¬ (wrap result).Refuses := by
      rintro ⟨cause, herror⟩
      rw [error_wrap] at herror
      exact hresult cause herror
    rw [hfinalizer]
    exact
      { direction_eq := rfl
        finished_iff := ⟨fun _ => ⟨Request.call_ne_wipe _, .inr (hrequest.mpr hd)⟩, fun _ => rfl⟩
        finalizes_iff := by
          rw [Event.finalizes_finalizer_iff, hrequest]
          exact ⟨fun _ => ⟨hd, hopen⟩, fun _ => hreply⟩
        closed_iff := by
          rw [Event.closed_finalizer_iff, Request.needsOpen_finalizer_iff]
          exact ⟨fun h => absurd h hreply,
            fun h => absurd (h hd) (by rw [hopen]; exact Bool.false_ne_true)⟩ }

/-- The finalizers of both modes give an answer where they are allowed. -/
theorem closes_operations (mode : BlockMode) :
    Closes (operations mode).mode .encrypting (operations mode).encrypt ∧
      Closes (operations mode).mode .decrypting (operations mode).decrypt := by
  cases mode with
  | cbc => exact ⟨Cbc.closes_encrypt, Cbc.closes_decrypt⟩
  | ctr => exact ⟨Ctr.closes_encrypt, Ctr.closes_decrypt⟩

/-- One request. -/
theorem handled (mode : BlockMode) (s : Session (operations mode).Register) (request : Request) :
    Handled s request ((operations mode).handle s request).1
      ((operations mode).handle s request).2 := by
  have spec := spec_operations mode
  obtain ⟨hencrypt, hdecrypt⟩ := closes_operations mode
  cases request with
  | wipe =>
    exact
      { direction_eq := rfl
        finished_iff := ⟨nofun, fun h => absurd rfl h.1⟩
        finalizes_iff := ⟨False.elim, fun h => nomatch h.1⟩
        closed_iff := ⟨fun _ h => by simp [Request.NeedsOpen] at h, fun _ => trivial⟩ }
  | call call =>
    cases call with
    | add data => exact handled_add spec s data
    | encrypt => exact handled_finalizer spec.encrypt.refused hencrypt .ciphertext (fun _ => rfl) s
    | decrypt => exact handled_finalizer spec.decrypt.refused hdecrypt .plaintext (fun _ => rfl) s
    | initial =>
      -- To ask for the initial block is no finalizer, so it changes nothing.
      have hfinalizer : Request.call .initial ≠ .call s.direction.finalizer := by
        cases s.direction <;> exact nofun
      exact
        { direction_eq := rfl
          finished_iff := ⟨fun h => ⟨Request.call_ne_wipe _, .inl h⟩,
            fun h => h.2.elim id fun h => absurd h hfinalizer⟩
          finalizes_iff := ⟨False.elim, fun h => absurd h.1 hfinalizer⟩
          closed_iff := ⟨fun _ h => by simp [Request.NeedsOpen, hfinalizer] at h, fun _ => trivial⟩ }

/-! ## Runs -/

/-- An open session takes what needs one, so nothing of the kind may be requested of it. -/
theorem closed_history_iff_of_open (mode : BlockMode) (s : Session (operations mode).Register)
    (hopen : s.finished = false) (requests : List Request) :
    (∀ event ∈ (operations mode).history s requests, event.Closed) ↔
      ∀ request, request.NeedsOpen s.direction → request ∉ requests := by
  -- Induction on the requests: up to the first one that needs it, the session stays open.
  induction requests generalizing s with
  | nil => exact ⟨fun _ _ _ => List.not_mem_nil, fun _ => nofun⟩
  | cons first requests ih =>
    have handled := handled mode s first
    rw [Operations.history, List.forall_mem_cons]
    by_cases hneeds : first.NeedsOpen s.direction
    · -- The first request is let through.
      constructor
      · rintro ⟨hclosed, -⟩
        rw [handled.closed_iff.mp hclosed hneeds] at hopen
        contradiction
      · intro hnone
        exact absurd List.mem_cons_self (hnone first hneeds)
    · -- The first request leaves the session open.
      have hstill : ((operations mode).handle s first).2.finished = false := by
        rw [Bool.eq_false_iff, Ne, handled.finished_iff, hopen]
        exact fun h => h.2.elim nofun fun h => hneeds (.inr h)
      rw [ih _ hstill, handled.direction_eq]
      constructor
      · rintro ⟨-, hrest⟩ request hrequest hmem
        rcases List.mem_cons.mp hmem with rfl | hmem
        · exact hneeds hrequest
        · exact hrest request hrequest hmem
      · intro hnone
        exact ⟨handled.closed_iff.mpr fun h => absurd h hneeds,
          fun request hrequest hmem => hnone request hrequest (List.mem_cons_of_mem _ hmem)⟩

/-- A finalized session takes nothing before a wipe. -/
theorem closed_history_iff_of_finished (mode : BlockMode) (s : Session (operations mode).Register)
    (hfinished : s.finished = true) (requests : List Request) :
    (∀ event ∈ (operations mode).history s requests, event.Closed) ↔
      ∀ request, request.NeedsOpen s.direction → ¬ [.wipe, request].Sublist requests := by
  induction requests generalizing s with
  | nil => exact ⟨fun _ _ _ => nofun, fun _ => nofun⟩
  | cons first requests ih =>
    have handled := handled mode s first
    have hclosed : ((operations mode).handle s first).1.Closed :=
      handled.closed_iff.mpr fun _ => hfinished
    rw [Operations.history, List.forall_mem_cons, and_iff_right hclosed]
    by_cases hwipe : first = .wipe
    · -- The wipe opens the session.
      have hopen : ((operations mode).handle s first).2.finished = false := by
        rw [Bool.eq_false_iff, Ne, handled.finished_iff]
        exact fun h => h.1 hwipe
      rw [closed_history_iff_of_open mode _ hopen, handled.direction_eq, hwipe]
      simp only [List.cons_sublist_cons, List.singleton_sublist]
    · -- Any other request leaves the session finalized.
      have hstill := handled.finished_iff.mpr ⟨hwipe, .inl hfinished⟩
      rw [ih _ hstill, handled.direction_eq]
      simp only [List.cons_sublist_cons', Ne.symm hwipe, false_and, or_false]

/-- An open session is finalized once and for all unless what needs an open session comes after a
finalizer and a wipe. -/
theorem finalizesOnce_history_iff (mode : BlockMode) (s : Session (operations mode).Register)
    (hopen : s.finished = false) (requests : List Request) :
    FinalizesOnce ((operations mode).history s requests) ↔
      ∀ request, request.NeedsOpen s.direction →
        ¬ [.call s.direction.finalizer, .wipe, request].Sublist requests := by
  induction requests generalizing s with
  | nil => exact ⟨fun _ _ _ => nofun, fun _ => .nil⟩
  | cons first requests ih =>
    have handled := handled mode s first
    rw [Operations.history, FinalizesOnce, List.pairwise_cons]
    by_cases hfirst : first = .call s.direction.finalizer
    · -- The session is finalized, and must be closed from here on.
      have hfinished := handled.finished_iff.mpr ⟨hfirst ▸ Request.call_ne_wipe _, .inr hfirst⟩
      have hclosed := closed_history_iff_of_finished mode _ hfinished requests
      rw [handled.direction_eq] at hclosed
      simp only [hfirst, List.cons_sublist_cons]
      rw [hfirst] at hclosed
      rw [← hclosed]
      constructor
      · rintro ⟨hlater, -⟩ event hevent
        rw [← hfirst] at hlater hevent
        exact (hlater event hevent (handled.finalizes_iff.mpr ⟨hfirst, hopen⟩)).2
      · intro hall
        exact ⟨fun event hevent _ => ⟨(hall event hevent).not_finalizes, hall event hevent⟩,
          finalizesOnce_of_closed hall⟩
    · -- The session stays open.
      have hstill : ((operations mode).handle s first).2.finished = false := by
        rw [Bool.eq_false_iff, Ne, handled.finished_iff, hopen]
        exact fun h => h.2.elim nofun hfirst
      have hnot : ¬ ((operations mode).handle s first).1.Finalizes := fun h =>
        hfirst (handled.finalizes_iff.mp h).1
      have hrest := ih _ hstill
      rw [FinalizesOnce, handled.direction_eq] at hrest
      simp only [hrest, hnot, false_imp_iff, implies_true, true_and, List.cons_sublist_cons',
        Ne.symm hfirst, false_and, or_false]

/-- Requests of a new session in either mode and direction finalize it once and for all, so that at most
one finalizer is let through and afterwards every call for more is refused as misuse, exactly if neither
data nor the finalizer of the direction comes after this finalizer and a wipe. -/
theorem finalizesOnce_iff (mode : BlockMode) (key : Key) (direction : Direction) (initial : Block)
    (requests : List Request) :
    let ops := operations mode
    FinalizesOnce (ops.history (Session.start ops.mode key direction initial) requests) ↔
      ∀ request, request.NeedsOpen direction →
        ¬ [.call direction.finalizer, .wipe, request].Sublist requests :=
  finalizesOnce_history_iff mode (Session.start (operations mode).mode key direction initial) rfl
    requests

/-- A session under the zero key is finalized, wiped, given one byte, and finalized again: the byte is
summed with a block that no key went into. -/
theorem wiped_session_finalizes_again :
    let key : Key := ⟨.aes128, Vector.replicate 16 0⟩
    let history := (operations .ctr).history (Session.start Ctr.mode key .encrypting Block.zero)
      [.call .encrypt, .wipe, .call (.add [0x61]), .call .encrypt]
    history = [.answered .encrypt (.ciphertext (.ok ⟨[], Block.zero⟩)), .wiped,
      .answered (.add [0x61]) (.added (.ok ())),
      .answered .encrypt (.ciphertext (.ok ⟨[0x02], Block.zero⟩))] ∧
    ¬ FinalizesOnce history := by
  intro key history
  let wiped := (Session.start Ctr.mode key .encrypting Block.zero).wipe Ctr.mode
  have hadd : wiped.add Ctr.mode [0x61] = (.ok (), { wiped with pending := ⟨[0x61], by decide⟩ }) := by
    simp [wiped, Session.wipe, Session.add, Chunker.absorb, Chunker.empty, Chunker.deliver]
  have hkeystream : Bytes.xor [0x61] (Schedule.wiped.encrypt wiped.register.toBlock).toList =
      [0x02] := by
    decide +kernel
  have hhistory : history = [.answered .encrypt (.ciphertext (.ok ⟨[], Block.zero⟩)), .wiped,
      .answered (.add [0x61]) (.added (wiped.add Ctr.mode [0x61]).1),
      .answered .encrypt (.ciphertext (Ctr.encrypt (wiped.add Ctr.mode [0x61]).2).1)] := rfl
  have hlast : (Ctr.encrypt (wiped.add Ctr.mode [0x61]).2).1 = .ok ⟨[0x02], Block.zero⟩ := by
    rw [hadd, ← hkeystream]
    rfl
  rw [hlast, hadd] at hhistory
  refine ⟨hhistory, ?_⟩
  rw [hhistory]
  simp [FinalizesOnce, Event.Finalizes, Event.Closed, Reply.Refuses, Reply.error?, errorOf]

end SymmetricCrypto.Aes
