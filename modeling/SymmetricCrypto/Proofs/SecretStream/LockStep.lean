import Mathlib
import SymmetricCrypto.Proofs.SecretStream.Acceptance

/-!
# The two ends of a stream stay in step

A `Link` is a stream with both of its ends. The sender works through a script of items: it seals a
message or changes the key on request. Each item gives a parcel, and the parcels travel in order. At
any time the sender issues its next item, the receiver processes the oldest parcel, or somebody
offers the receiver a chunk that it refuses (`Step`).

The invariant is `InStep`: what is underway is what the sender, starting from the receiver's state,
makes of the items that are not processed yet, and it ends in the sender's state (`Carries`). One
parcel keeps it because opening inverts sealing in the same state (`accept_of_issue`), and a refused
chunk keeps it because it leaves the receiver alone. The theorem at the end reads the invariant off
after any run.
-/

namespace SymmetricCrypto.SecretStream

/-- One thing that a sender does with its end of a stream. -/
inductive Item
  /-- It seals a message. -/
  | message (message associated : Bytes) (tag : Tag)
  /-- It changes the key on request. -/
  | rekey

/-- What an item asks of the receiver. -/
inductive Parcel
  /-- A chunk, with the data that it is associated with. -/
  | chunk (chunk associated : Bytes)
  /-- A change of the key. -/
  | rekey

namespace Item

/-- The item can be carried out: its message is not too long. -/
def Fits : Item → Prop
  | message m _ _ => m.length ≤ messageMax
  | rekey => True

/-- What the receiver should open, if the item is a message. -/
def content : Item → Option (Bytes × Tag)
  | message m _ tag => some (m, tag)
  | rekey => none

end Item

namespace State

/-- The sender carries out an item: the parcel for the receiver, and the state after it. -/
def issue (s : State) : Item → Except Error Parcel × State
  | .message m associated tag =>
    let (sealed, t) := s.push m associated tag
    (sealed.map (.chunk · associated), t)
  | .rekey => (.ok .rekey, s.rekey)

/-- The receiver processes a parcel: what it opens, if the parcel is a chunk, and the state after
it. -/
def accept (s : State) : Parcel → Option (Except Error (Bytes × Tag)) × State
  | .chunk chunk associated =>
    let (opened, t) := s.pull chunk associated
    (some opened, t)
  | .rekey => (none, s.rekey)

/-- An item that fits can be issued. -/
theorem exists_issue_eq_ok (s : State) {item : Item} (fits : item.Fits) :
    ∃ parcel t, s.issue item = (.ok parcel, t) := by
  cases item with
  | message m associated tag =>
    rw [issue, push_eq fits]
    exact ⟨_, _, rfl⟩
  | rekey => exact ⟨_, _, rfl⟩

/-- A receiver in the state of the sender opens what the item holds and ends in the sender's next
state. -/
theorem accept_of_issue {s t : State} {item : Item} {parcel : Parcel}
    (h : s.issue item = (.ok parcel, t)) : s.accept parcel = (item.content.map .ok, t) := by
  cases item with
  | message m associated tag =>
    rw [issue] at h
    rcases hp : s.push m associated tag with ⟨sealed, u⟩
    rw [hp] at h
    cases sealed with
    | error cause => cases h
    | ok chunk =>
      cases h
      rw [accept, pull_of_push hp]
      rfl
  | rekey =>
    cases h
    rfl

end State

/-- A stream with both of its ends, what is between them, and a record of what has happened. -/
structure Link where
  /-- The items that the sender has still to issue. -/
  script : List Item
  /-- The sender's end. -/
  sender : State
  /-- The parcels that the receiver has still to process, the oldest first. -/
  underway : List Parcel
  /-- The receiver's end. -/
  receiver : State
  /-- The sender's state after each item that it has issued. -/
  sent : List State
  /-- The receiver's state after each parcel that it has processed. -/
  received : List State
  /-- What came of each chunk that the receiver has processed. -/
  opened : List (Except Error (Bytes × Tag))

namespace Link

/-- Two ends before the first item. -/
def start (sender receiver : State) (script : List Item) : Link :=
  ⟨script, sender, [], receiver, [], [], []⟩

/-- What can happen next. -/
inductive Step : Link → Link → Prop
  /-- The sender issues the next item. -/
  | send {l : Link} {item : Item} {rest : List Item} {parcel : Parcel} {s : State}
      (next : l.script = item :: rest) (issued : l.sender.issue item = (.ok parcel, s)) :
      Step l { l with
        script := rest
        sender := s
        underway := l.underway ++ [parcel]
        sent := l.sent ++ [s] }
  /-- The receiver processes the oldest parcel. -/
  | receive {l : Link} {parcel : Parcel} {rest : List Parcel}
      {result : Option (Except Error (Bytes × Tag))} {s : State}
      (next : l.underway = parcel :: rest) (accepted : l.receiver.accept parcel = (result, s)) :
      Step l { l with
        underway := rest
        receiver := s
        received := l.received ++ [s]
        opened := l.opened ++ result.toList }
  /-- The receiver is offered a chunk that it refuses. -/
  | offer {l : Link} {chunk associated : Bytes} {cause : Error} {s : State}
      (refused : l.receiver.pull chunk associated = (.error cause, s)) :
      Step l { l with receiver := s }

/-- Any number of steps, in any order in which they are possible. -/
abbrev Run : Link → Link → Prop := Relation.ReflTransGen Step

end Link

/-- From a state, the items give the parcels and, one after the other, the states, of which the last
one is the final state. -/
inductive Carries : State → List Item → List Parcel → List State → State → Prop
  /-- Nothing moves nothing. -/
  | nil (s : State) : Carries s [] [] [] s
  /-- One item, and then the others from the state that it leaves. -/
  | cons {s t u : State} {item : Item} {items : List Item} {parcel : Parcel} {parcels : List Parcel}
      {states : List State} (first : s.issue item = (.ok parcel, t))
      (rest : Carries t items parcels states u) :
      Carries s (item :: items) (parcel :: parcels) (t :: states) u

/-- One more item at the end. -/
theorem Carries.concat {s t u : State} {items : List Item} {parcels : List Parcel}
    {states : List State} {item : Item} {parcel : Parcel} (h : Carries s items parcels states t)
    (last : t.issue item = (.ok parcel, u)) :
    Carries s (items ++ [item]) (parcels ++ [parcel]) (states ++ [u]) u := by
  induction h with
  | nil s => exact .cons last (.nil u)
  | cons first _ ih => exact .cons first (ih last)

/-- Each item has left a state. -/
theorem Carries.length_eq {s t : State} {items : List Item} {parcels : List Parcel}
    {states : List State} (h : Carries s items parcels states t) :
    states.length = items.length := by
  induction h with
  | nil => rfl
  | cons _ _ ih => rw [List.length_cons, List.length_cons, ih]

/-- Without a parcel the state stays. -/
theorem Carries.eq_of_nil {s t : State} {items : List Item} {states : List State}
    (h : Carries s items [] states t) : s = t := by
  cases h
  rfl

/-- The link is in step: `processed` are the items that have reached the receiver, `pending` those
that are underway, and `ahead` the sender's states after these. -/
structure Link.InStep (receiver : State) (script : List Item) (l : Link)
    (processed pending : List Item) (ahead : List State) : Prop where
  /-- No item is lost. -/
  script_eq : script = processed ++ (pending ++ l.script)
  /-- The receiver has been in the sender's states. -/
  sent_eq : l.sent = l.received ++ ahead
  /-- Each processed item has left a state. -/
  length_eq : l.received.length = processed.length
  /-- Each processed message was opened. -/
  opened_eq : l.opened = (processed.filterMap Item.content).map .ok
  /-- What is underway leads from the receiver's state to the sender's. -/
  carries : Carries l.receiver pending l.underway ahead l.sender
  /-- Nothing but the parcels has moved the receiver. -/
  receiver_eq : l.receiver = l.received.getLastD receiver

namespace Link.InStep

variable {receiver : State} {script : List Item} {l : Link} {processed pending : List Item}
  {ahead : List State}

/-- Two equal states are in step before the first item. -/
theorem start (s : State) (script : List Item) :
    InStep s script (Link.start s s script) [] [] [] where
  script_eq := rfl
  sent_eq := rfl
  length_eq := rfl
  opened_eq := rfl
  carries := .nil s
  receiver_eq := rfl

/-- Any step keeps the link in step. -/
theorem step {m : Link} (h : InStep receiver script l processed pending ahead) (hstep : Step l m) :
    ∃ processed pending ahead, InStep receiver script m processed pending ahead := by
  cases hstep with
  | @send item rest parcel s next issued =>
    -- The item joins those that are underway, at the end.
    refine ⟨processed, pending ++ [item], ahead ++ [s], ?_⟩
    exact
      { h with
        script_eq := by simpa [next] using h.script_eq
        sent_eq := by simp [h.sent_eq]
        carries := h.carries.concat issued }
  | @receive parcel rest result s next accepted =>
    have hcarries := h.carries
    rw [next] at hcarries
    cases hcarries with
    | @cons _ t _ item items _ _ states first hrest =>
      -- The parcel was made in the state that the receiver is in.
      have hsame := State.accept_of_issue first
      rw [accepted] at hsame
      obtain ⟨rfl, rfl⟩ := Prod.mk.inj hsame
      refine ⟨processed ++ [item], items, states, ?_⟩
      exact
        { script_eq := by simp [h.script_eq]
          sent_eq := by simp [h.sent_eq]
          length_eq := by simp [h.length_eq]
          opened_eq := by cases hc : item.content <;> simp [h.opened_eq, hc]
          carries := hrest
          receiver_eq := by simp }
  | offer refused =>
    -- The refused chunk has left the receiver alone.
    rw [State.snd_of_pull_eq_error refused]
    exact ⟨processed, pending, ahead, { h with }⟩

end Link.InStep

/-- Every run from two equal states keeps them in step. -/
theorem Link.Run.inStep {s : State} {script : List Item} {l : Link}
    (run : Run (Link.start s s script) l) :
    ∃ processed pending ahead, InStep s script l processed pending ahead := by
  induction run with
  | refl => exact ⟨[], [], [], InStep.start s script⟩
  | tail _ hstep ih =>
    obtain ⟨_, _, _, h⟩ := ih
    exact h.step hstep

/-- Two ends that start in one state stay in step, however far the sender is ahead and whatever
chunks that it refuses the receiver is offered in between. The sender can issue every item that is
left. After each item the receiver has been in the sender's state after that item. Each message that
has arrived was opened, with its tag, and nothing else was. When nothing is underway, both are in
one state. -/
theorem ends_stay_in_step {sender receiver : State} (same : sender = receiver) {script : List Item}
    (fits : ∀ item ∈ script, item.Fits) {l : Link}
    (run : Link.Run (Link.start sender receiver script) l) :
    l.script = script.drop l.sent.length ∧
    (∀ item ∈ l.script, ∃ parcel t, l.sender.issue item = (.ok parcel, t)) ∧
    l.received <+: l.sent ∧
    l.opened = ((script.take l.received.length).filterMap Item.content).map .ok ∧
    l.receiver = l.received.getLastD receiver ∧
    (l.underway = [] → l.receiver = l.sender) := by
  subst same
  obtain ⟨processed, pending, ahead, h⟩ := run.inStep
  have hahead : ahead.length = pending.length := h.carries.length_eq
  have hsent : l.sent.length = processed.length + pending.length := by
    rw [h.sent_eq, List.length_append, h.length_eq, hahead]
  -- The script is the processed items, those that are underway, and those that are left.
  refine ⟨?_, ?_, ⟨ahead, h.sent_eq.symm⟩, ?_, h.receiver_eq, ?_⟩
  · rw [h.script_eq, hsent, ← List.append_assoc, ← List.length_append, List.drop_left]
  · intro item hitem
    apply State.exists_issue_eq_ok
    apply fits
    rw [h.script_eq]
    exact List.mem_append_right _ (List.mem_append_right _ hitem)
  · rw [h.opened_eq, h.length_eq, h.script_eq, List.take_left]
  · intro hnone
    have hcarries := h.carries
    rw [hnone] at hcarries
    exact hcarries.eq_of_nil

/-- The sender of a random header and the receiver of this header start in one state. -/
theorem snd_startSending (key : ChaCha.Key) (g : Random.Generator) :
    (startSending key g).1.2 = State.ofHeader key (startSending key g).1.1 := rfl

/-- A sender under a random header and the receiver of this header, one message of two bytes and a
change of the key: the sender runs ahead by both items, and the receiver refuses an empty chunk
before it processes them. -/
theorem ends_stay_in_step_ahead :
    ∃ l : Link,
      Link.Run
        (Link.start
          (startSending (Vector.replicate 32 7) (.ofSeed (Vector.replicate 32 1))).1.2
          (State.ofHeader (Vector.replicate 32 7)
            (startSending (Vector.replicate 32 7) (.ofSeed (Vector.replicate 32 1))).1.1)
          [.message [104, 105] [] .push, .rekey]) l ∧
        l.received.length = 2 ∧ l.received <+: l.sent ∧ l.opened = [.ok ([104, 105], .push)] := by
  rw [snd_startSending]
  generalize State.ofHeader (Vector.replicate 32 7)
    (startSending (Vector.replicate 32 7) (.ofSeed (Vector.replicate 32 1))).1.1 = s
  have hmessage : (Item.message [104, 105] [] .push).Fits := by
    show 2 ≤ messageMax
    decide
  have hfits : ∀ item ∈ [Item.message [104, 105] [] .push, .rekey], item.Fits := by
    simpa using ⟨hmessage, trivial⟩
  obtain ⟨parcel, t, hissue⟩ := s.exists_issue_eq_ok hmessage
  have haccept : s.accept parcel = (some (.ok ([104, 105], .push)), t) :=
    State.accept_of_issue hissue
  have hoffer : s.pull [] [] = (.error (.malformed .shortChunk), s) := rfl
  -- The sender seals, the receiver refuses, the sender changes the key, and both parcels arrive.
  have h1 : Link.Step (Link.start s s [.message [104, 105] [] .push, .rekey])
      ⟨[.rekey], t, [parcel], s, [t], [], []⟩ := .send rfl hissue
  have h2 : Link.Step ⟨[.rekey], t, [parcel], s, [t], [], []⟩
      ⟨[.rekey], t, [parcel], s, [t], [], []⟩ := .offer hoffer
  have h3 : Link.Step ⟨[.rekey], t, [parcel], s, [t], [], []⟩
      ⟨[], t.rekey, [parcel, .rekey], s, [t, t.rekey], [], []⟩ := .send rfl rfl
  have h4 : Link.Step ⟨[], t.rekey, [parcel, .rekey], s, [t, t.rekey], [], []⟩
      ⟨[], t.rekey, [.rekey], t, [t, t.rekey], [t], [.ok ([104, 105], .push)]⟩ :=
    @Link.Step.receive _ _ _ (some (.ok ([104, 105], .push))) _ rfl haccept
  have h5 : Link.Step ⟨[], t.rekey, [.rekey], t, [t, t.rekey], [t], [.ok ([104, 105], .push)]⟩
      ⟨[], t.rekey, [], t.rekey, [t, t.rekey], [t, t.rekey], [.ok ([104, 105], .push)]⟩ :=
    @Link.Step.receive _ _ _ none _ rfl rfl
  have hrun := ((((Relation.ReflTransGen.single h1).tail h2).tail h3).tail h4).tail h5
  obtain ⟨-, -, hprefix, hopened, -⟩ := ends_stay_in_step rfl hfits hrun
  exact ⟨_, hrun, rfl, hprefix, hopened⟩

end SymmetricCrypto.SecretStream
