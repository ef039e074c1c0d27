import Mathlib
import SymmetricCrypto.Proofs.Bytes.Refusal

/-!
# An account of every byte

Blocks may be refused again and again, a block that stayed is handed over again, and what is pending may
be cleared. A `Ledger` follows every byte through all of this by its place in the input: whether a
consumer was given it, whether it is pending, and if not, whether a refusal lost it or it was cleared.
An `Account` keeps the ledger of a chunker beside it.

A ledger is only told the data of a call, the blocks that were accepted and the one that was refused
(`Ledger.record`). It is `Sound` if the places of the accepted blocks and the pending places are, in order,
the places of the input that are neither lost nor cleared. Each entry keeps it sound (`Sound.arrive`,
`Sound.accept`, `Sound.refuse`, `Sound.cut`, `Sound.clear`), so a call does, since its outcome `Follows` the
law of calls (`Sound.record`), and so do any actions (`Balanced.run`).
-/

namespace SymmetricCrypto.Chunker

variable {n : ℕ}

/-- A block that was given to a consumer, and the places of its bytes in the input. -/
structure Delivery (n : ℕ) where
  /-- The block. -/
  block : Vector UInt8 n
  /-- Whether the consumer accepted it. -/
  accepted : Bool
  /-- Where its bytes were in the input. -/
  places : List ℕ

/-- What became of the bytes of the input. A byte is named by its place. -/
structure Ledger (n : ℕ) where
  /-- All the data so far. -/
  input : Bytes
  /-- The blocks that consumers were given, in order. -/
  deliveries : List (Delivery n)
  /-- The bytes that are pending. -/
  pending : List ℕ
  /-- The bytes that refusals lost. -/
  lost : List ℕ
  /-- The bytes that were pending when the chunker was cleared. -/
  cleared : List ℕ

namespace Ledger

/-- The ledger of a new chunker. -/
def opening (n : ℕ) : Ledger n := ⟨[], [], [], [], []⟩

/-- The bytes at some places. -/
def bytesAt (l : Ledger n) (places : List ℕ) : Bytes := places.map fun p => l.input.getD p 0

/-- The blocks that consumers accepted. -/
def accepted (l : Ledger n) : List (Delivery n) := l.deliveries.filter Delivery.accepted

/-- The places of the input that are neither lost nor cleared, in order. -/
def kept (l : Ledger n) : List ℕ :=
  (List.range l.input.length).filter fun p => p ∉ l.lost ∧ p ∉ l.cleared

/-! ## Entries -/

/-- Data arrives after what is pending. -/
def arrive (l : Ledger n) (data : Bytes) : Ledger n :=
  { l with
    input := l.input ++ data
    pending := l.pending ++ List.range' l.input.length data.length }

/-- The first `n` pending bytes are given to a consumer, which accepts them. -/
def accept (l : Ledger n) (block : Vector UInt8 n) : Ledger n :=
  { l with
    deliveries := l.deliveries ++ [⟨block, true, l.pending.take n⟩]
    pending := l.pending.drop n }

/-- The first `n` pending bytes are given to a consumer, which refuses them. -/
def refuse (l : Ledger n) (block : Vector UInt8 n) : Ledger n :=
  { l with deliveries := l.deliveries ++ [⟨block, false, l.pending.take n⟩] }

/-- All but the first `k` pending bytes are lost. -/
def cut (l : Ledger n) (k : ℕ) : Ledger n :=
  { l with
    pending := l.pending.take k
    lost := l.lost ++ l.pending.drop k }

/-- What is pending is cleared. -/
def clear (l : Ledger n) : Ledger n :=
  { l with
    pending := []
    cleared := l.cleared ++ l.pending }

/-- The entries for a call. A refusal loses what is pending, except for a refused block that bytes of an
earlier call begin. -/
def record (l : Ledger n) (data : Bytes) (o : Outcome n) : Ledger n :=
  let after := o.accepted.foldl accept (l.arrive data)
  match o.refused with
  | none => after
  | some block => (after.refuse block).cut (if l.pending ≠ [] ∧ o.accepted = [] then n else 0)

end Ledger

/-- What can be done with a chunker. Each call brings its own consumer. -/
inductive Action (n : ℕ) : Type 1
  /-- More data, for a consumer that may refuse. -/
  | absorb {σ ε : Type} (consume : σ → Vector UInt8 n → Except ε σ) (s : σ) (data : Bytes)
  /-- More data, for a consumer that takes everything. -/
  | feed {σ : Type} (consume : σ → Vector UInt8 n → σ) (s : σ) (data : Bytes)
  /-- What is pending is given up. -/
  | clear

/-- The data of an action. -/
def Action.data : Action n → Bytes
  | absorb _ _ data => data
  | feed _ _ data => data
  | clear => []

/-- A chunker and its ledger. -/
structure Account (n : ℕ) where
  /-- The chunker. -/
  chunker : Chunker n
  /-- What became of the bytes that it was given. -/
  ledger : Ledger n

namespace Account

/-- Performs an action and records what it did. -/
def perform (a : Account n) : Action n → Account n
  | .absorb consume s data =>
    ⟨(absorb consume s a.chunker data).2, a.ledger.record data (absorbed consume s a.chunker data)⟩
  | .feed consume s data =>
    ⟨(feed consume s a.chunker data).2, a.ledger.record data (fed consume s a.chunker data)⟩
  | .clear => ⟨empty n, a.ledger.clear⟩

/-- Performs actions one after the other, from a new chunker on. -/
def run (actions : List (Action n)) : Account n :=
  actions.foldl perform ⟨empty n, Ledger.opening n⟩

end Account

/-! ## What the entries keep -/

namespace Ledger

/-- A ledger that accounts for each byte of the input. -/
structure Sound (l : Ledger n) : Prop where
  /-- The accepted blocks and the pending bytes are the kept bytes, in order. -/
  accounted : (l.accepted.map Delivery.places).flatten ++ l.pending = l.kept
  /-- What comes after an accepted block was after it in the input. -/
  ordered : l.deliveries.Pairwise fun earlier later =>
    earlier.accepted → ∀ p ∈ earlier.places, ∀ q ∈ later.places, p < q
  /-- The bytes of a block are those at its places. -/
  block_eq : ∀ d ∈ l.deliveries, d.block.toList = l.bytesAt d.places
  /-- Deliveries are of bytes of the input. -/
  delivery_lt : ∀ d ∈ l.deliveries, ∀ p ∈ d.places, p < l.input.length
  /-- Only bytes of the input are lost. -/
  lost_lt : ∀ p ∈ l.lost, p < l.input.length
  /-- Only bytes of the input are cleared. -/
  cleared_lt : ∀ p ∈ l.cleared, p < l.input.length

/-- A ledger without entries is sound. -/
theorem sound_opening : (opening n).Sound where
  accounted := rfl
  ordered := .nil
  block_eq _ h := by cases h
  delivery_lt _ h := by cases h
  lost_lt _ h := by cases h
  cleared_lt _ h := by cases h

variable {l : Ledger n}

/-- Bytes at places, one after the other. -/
theorem bytesAt_append (l : Ledger n) (a b : List ℕ) :
    l.bytesAt (a ++ b) = l.bytesAt a ++ l.bytesAt b := List.map_append

/-- The bytes at the first places. -/
theorem bytesAt_take (l : Ledger n) (places : List ℕ) (k : ℕ) :
    l.bytesAt (places.take k) = (l.bytesAt places).take k := List.map_take

/-- The bytes at the places behind the first ones. -/
theorem bytesAt_drop (l : Ledger n) (places : List ℕ) (k : ℕ) :
    l.bytesAt (places.drop k) = (l.bytesAt places).drop k := List.map_drop

/-- Later data does not change the bytes at earlier places. -/
theorem bytesAt_arrive {places : List ℕ} (h : ∀ p ∈ places, p < l.input.length) (data : Bytes) :
    (l.arrive data).bytesAt places = l.bytesAt places := by
  apply List.map_congr_left
  intro p hp
  exact List.getD_append _ _ _ _ (h p hp)

/-- The new places have the new bytes. -/
theorem bytesAt_arrive_range' (l : Ledger n) (data : Bytes) :
    (l.arrive data).bytesAt (List.range' l.input.length data.length) = data := by
  apply List.ext_getElem
  · rw [bytesAt, List.length_map, List.length_range']
  · intro i hi hdata
    simp [bytesAt, arrive, List.getD_eq_getElem?_getD, hdata]

/-- The kept places are in order. -/
theorem pairwise_kept (l : Ledger n) : l.kept.Pairwise (· < ·) :=
  List.pairwise_lt_range.filter _

/-- What was kept has arrived. -/
theorem lt_of_mem_kept {p : ℕ} (h : p ∈ l.kept) : p < l.input.length :=
  List.mem_range.mp (List.mem_filter.mp h).1

/-- The pending bytes are bytes of the input. -/
theorem Sound.pending_lt (h : l.Sound) {p : ℕ} (hp : p ∈ l.pending) : p < l.input.length := by
  apply lt_of_mem_kept
  rw [← h.accounted]
  exact List.mem_append_right _ hp

/-- The pending bytes come after all the accepted blocks. -/
theorem Sound.lt_of_mem_pending (h : l.Sound) {d : Delivery n} (hd : d ∈ l.deliveries)
    (haccepted : d.accepted) {p q : ℕ} (hp : p ∈ d.places) (hq : q ∈ l.pending) : p < q := by
  have hordered := l.pairwise_kept
  rw [← h.accounted] at hordered
  refine (List.pairwise_append.mp hordered).2.2 p (List.mem_flatten.mpr ⟨_, ?_, hp⟩) q hq
  exact List.mem_map_of_mem (List.mem_filter.mpr ⟨hd, haccepted⟩)

/-- Data arrives. -/
theorem Sound.arrive (h : l.Sound) (data : Bytes) : (l.arrive data).Sound where
  accounted := by
    -- A new place is at the end of the input, where nothing was lost or cleared yet.
    have hnew : (List.range' l.input.length data.length).filter
        (fun p => p ∉ l.lost ∧ p ∉ l.cleared) = List.range' l.input.length data.length := by
      rw [List.filter_eq_self]
      intro p hp
      have hle : l.input.length ≤ p := (List.mem_range'_1.mp hp).1
      exact decide_eq_true
        ⟨fun hlost => (h.lost_lt p hlost).not_ge hle, fun hcleared => (h.cleared_lt p hcleared).not_ge hle⟩
    have hkept : (l.arrive data).kept = l.kept ++ List.range' l.input.length data.length := by
      show (List.range (l.input ++ data).length).filter _ = _
      rw [List.length_append, List.range_eq_range', ← List.range'_append_1, List.filter_append,
        ← List.range_eq_range', Nat.zero_add]
      exact congrArg (l.kept ++ ·) hnew
    rw [hkept, ← h.accounted, List.append_assoc]
    rfl
  ordered := h.ordered
  block_eq d hd := by rw [bytesAt_arrive (h.delivery_lt d hd), h.block_eq d hd]
  delivery_lt d hd p hp := (h.delivery_lt d hd p hp).trans_le (by simp [Ledger.arrive])
  lost_lt p hp := (h.lost_lt p hp).trans_le (by simp [Ledger.arrive])
  cleared_lt p hp := (h.cleared_lt p hp).trans_le (by simp [Ledger.arrive])

/-- What arrives is pending after what was. -/
theorem Sound.bytesAt_pending_arrive (h : l.Sound) (data : Bytes) :
    (l.arrive data).bytesAt (l.arrive data).pending = l.bytesAt l.pending ++ data := by
  show (l.arrive data).bytesAt (l.pending ++ List.range' l.input.length data.length) = _
  rw [bytesAt_append, bytesAt_arrive fun p => h.pending_lt, bytesAt_arrive_range']

/-- The deliveries of a ledger, after one more of the first pending bytes. -/
theorem Sound.deliver (h : l.Sound) {block : Vector UInt8 n}
    (hblock : block.toList = l.bytesAt (l.pending.take n)) (accepted : Bool) :
    let deliveries := l.deliveries ++ [⟨block, accepted, l.pending.take n⟩]
    (deliveries.Pairwise fun earlier later =>
      earlier.accepted → ∀ p ∈ earlier.places, ∀ q ∈ later.places, p < q) ∧
    (∀ d ∈ deliveries, d.block.toList = l.bytesAt d.places) ∧
    ∀ d ∈ deliveries, ∀ p ∈ d.places, p < l.input.length := by
  refine ⟨List.pairwise_append.mpr ⟨h.ordered, List.pairwise_singleton _ _, ?_⟩, ?_, ?_⟩
  · intro d hd last hlast haccepted p hp q hq
    obtain rfl := List.mem_singleton.mp hlast
    exact h.lt_of_mem_pending hd haccepted hp (List.mem_of_mem_take hq)
  · exact List.forall_mem_append.mpr ⟨h.block_eq, List.forall_mem_singleton.mpr hblock⟩
  · refine List.forall_mem_append.mpr ⟨h.delivery_lt, List.forall_mem_singleton.mpr ?_⟩
    exact fun p hp => h.pending_lt (List.mem_of_mem_take hp)

/-- A block is accepted. -/
theorem Sound.accept (h : l.Sound) {block : Vector UInt8 n}
    (hblock : block.toList = l.bytesAt (l.pending.take n)) : (l.accept block).Sound where
  accounted := by
    have haccepted : (l.accept block).accepted = l.accepted ++ [⟨block, true, l.pending.take n⟩] := by
      show (l.deliveries ++ _).filter _ = _
      rw [List.filter_append]
      rfl
    -- The block goes from the pending bytes to the accepted ones.
    have hplaces : ((l.accept block).accepted.map Delivery.places).flatten =
        (l.accepted.map Delivery.places).flatten ++ l.pending.take n := by
      rw [haccepted, List.map_append, List.flatten_append]
      simp
    rw [hplaces, List.append_assoc]
    exact (congrArg _ (List.take_append_drop n l.pending)).trans h.accounted
  ordered := (h.deliver hblock true).1
  block_eq := (h.deliver hblock true).2.1
  delivery_lt := (h.deliver hblock true).2.2
  lost_lt := h.lost_lt
  cleared_lt := h.cleared_lt

/-- A block is refused. -/
theorem Sound.refuse (h : l.Sound) {block : Vector UInt8 n}
    (hblock : block.toList = l.bytesAt (l.pending.take n)) : (l.refuse block).Sound where
  accounted := by
    have haccepted : (l.refuse block).accepted = l.accepted := by
      show (l.deliveries ++ _).filter _ = _
      rw [List.filter_append]
      exact List.append_nil _
    rw [haccepted]
    exact h.accounted
  ordered := (h.deliver hblock false).1
  block_eq := (h.deliver hblock false).2.1
  delivery_lt := (h.deliver hblock false).2.2
  lost_lt := h.lost_lt
  cleared_lt := h.cleared_lt

/-- To take the last places of a list out of it leaves those before them. -/
theorem filter_notMem_append {before last : List ℕ} (h : (before ++ last).Nodup) :
    (before ++ last).filter (fun p => p ∉ last) = before := by
  have hdisjoint := List.disjoint_of_nodup_append h
  rw [List.filter_append, List.filter_eq_self.mpr, List.filter_eq_nil_iff.mpr, List.append_nil]
  · intro p hp
    simp [hp]
  · intro p hp
    exact decide_eq_true (hdisjoint hp)

/-- If the last pending bytes are lost or cleared, the others are kept after the accepted blocks. -/
theorem Sound.accounted_of_gone (h : l.Sound) {u : Ledger n} {stay gone : List ℕ}
    (hpending : stay ++ gone = l.pending) (hinput : u.input = l.input)
    (hgone : ∀ p, p ∈ u.lost ∨ p ∈ u.cleared ↔ (p ∈ l.lost ∨ p ∈ l.cleared) ∨ p ∈ gone) :
    (l.accepted.map Delivery.places).flatten ++ stay = u.kept := by
  have hsplit : ((l.accepted.map Delivery.places).flatten ++ stay) ++ gone = l.kept := by
    rw [List.append_assoc, hpending, h.accounted]
  have hkept : u.kept = l.kept.filter fun p => p ∉ gone := by
    rw [kept, kept, hinput, List.filter_filter]
    apply List.filter_congr
    intro p _
    rw [← Bool.decide_and]
    apply decide_eq_decide.mpr
    rw [← not_or, hgone, not_or, not_or, and_comm]
  have hnodup : l.kept.Nodup := l.pairwise_kept.nodup
  rw [hkept, ← hsplit, filter_notMem_append (by rwa [hsplit])]

/-- The last pending bytes are lost. -/
theorem Sound.cut (h : l.Sound) (k : ℕ) : (l.cut k).Sound where
  accounted := by
    refine h.accounted_of_gone (u := l.cut k) (List.take_append_drop k l.pending) rfl fun p => ?_
    rw [show (l.cut k).lost = l.lost ++ l.pending.drop k from rfl, List.mem_append]
    exact or_right_comm
  ordered := h.ordered
  block_eq := h.block_eq
  delivery_lt := h.delivery_lt
  lost_lt p hp := (List.mem_append.mp hp).elim (h.lost_lt p) fun hdrop =>
    h.pending_lt (List.mem_of_mem_drop hdrop)
  cleared_lt := h.cleared_lt

/-- The pending bytes are cleared. -/
theorem Sound.clear (h : l.Sound) : l.clear.Sound where
  accounted := by
    refine h.accounted_of_gone (u := l.clear) (List.nil_append l.pending) rfl fun p => ?_
    rw [show l.clear.cleared = l.cleared ++ l.pending from rfl, List.mem_append]
    exact or_assoc.symm
  ordered := h.ordered
  block_eq := h.block_eq
  delivery_lt := h.delivery_lt
  lost_lt := h.lost_lt
  cleared_lt p hp := (List.mem_append.mp hp).elim (h.cleared_lt p) fun hpending =>
    h.pending_lt hpending

/-- The bytes of the accepted blocks are those at their places. -/
theorem Sound.bytesAt_accepted (h : l.Sound) :
    l.bytesAt (l.accepted.map Delivery.places).flatten =
      (l.accepted.map fun d => d.block.toList).flatten := by
  rw [bytesAt, List.map_flatten, List.map_map]
  congr 1
  apply List.map_congr_left
  intro d hd
  exact (h.block_eq d (List.mem_filter.mp hd).1).symm

/-! ## What a call keeps -/

/-- Blocks that the pending bytes begin with are accepted one after the other. -/
theorem Sound.accept_all (h : l.Sound) {bs : List (Vector UInt8 n)} {rest : Bytes}
    (hpending : l.bytesAt l.pending = (bs.map Vector.toList).flatten ++ rest) :
    (bs.foldl Ledger.accept l).Sound ∧
    (bs.foldl Ledger.accept l).bytesAt (bs.foldl Ledger.accept l).pending = rest := by
  induction bs generalizing l with
  | nil => exact ⟨h, hpending⟩
  | cons block bs ih =>
    rw [List.map_cons, List.flatten_cons, List.append_assoc] at hpending
    have hlength : block.toList.length = n := Vector.length_toList
    have hblock : block.toList = l.bytesAt (l.pending.take n) := by
      rw [bytesAt_take, hpending, List.take_left' hlength]
    have hrest : l.bytesAt (l.pending.drop n) = (bs.map Vector.toList).flatten ++ rest := by
      rw [bytesAt_drop, hpending, List.drop_left' hlength]
    exact ih (h.accept hblock) hrest

/-- A call keeps the ledger sound, and the pending places are those of the pending bytes. -/
theorem Sound.record (hn : 0 < n) (h : l.Sound) {c : Chunker n}
    (hpending : c.pending = l.bytesAt l.pending) {data : Bytes} {o : Outcome n}
    (follows : Follows c data o) :
    (l.record data o).Sound ∧
    o.chunker.pending = (l.record data o).bytesAt (l.record data o).pending := by
  have harrived : (l.arrive data).bytesAt (l.arrive data).pending = c.pending ++ data := by
    rw [h.bytesAt_pending_arrive, hpending]
  have hsplit := flatten_blocks_append_remainder hn (c.pending ++ data)
  unfold Ledger.record
  cases hrefused : o.refused with
  | none =>
    rw [← follows.all_accepted hrefused] at hsplit
    obtain ⟨hsound, hrest⟩ := (h.arrive data).accept_all (harrived.trans hsplit.symm)
    exact ⟨hsound, (follows.rest_pending hrefused).trans hrest.symm⟩
  | some block =>
    obtain ⟨later, hlater⟩ := follows.given_prefix
    rw [← hlater, given_of_refused_eq_some hrefused, List.append_assoc, List.map_append,
      List.flatten_append, List.append_assoc] at hsplit
    -- The accepted blocks and the refused one are the first of the blocks that arrived.
    obtain ⟨hsound, hrest⟩ := (h.arrive data).accept_all (harrived.trans hsplit.symm)
    dsimp only
    generalize o.accepted.foldl Ledger.accept (l.arrive data) = after at *
    -- The refused block is the next `n` pending bytes.
    have hblock : block.toList = after.bytesAt (after.pending.take n) := by
      rw [bytesAt_take, hrest, List.singleton_append, List.map_cons, List.flatten_cons,
        List.append_assoc, List.take_left' Vector.length_toList]
    refine ⟨(hsound.refuse hblock).cut _, ?_⟩
    have hempty : l.pending ≠ [] ↔ c.pending ≠ [] := by
      rw [hpending, bytesAt, Ne, Ne, List.map_eq_nil_iff]
    by_cases hstays : c.pending ≠ [] ∧ o.accepted = []
    · rw [if_pos (by rwa [hempty]), follows.block_pending block hrefused hstays, hblock]
      rfl
    · rw [if_neg (by rwa [hempty]), follows.nothing_pending block hrefused hstays]
      rfl

end Ledger

/-! ## What actions keep -/

namespace Account

variable {a : Account n}

/-- The ledger is sound and tells what is pending. -/
structure Balanced (a : Account n) : Prop where
  /-- Each byte of the input is accounted for. -/
  sound : a.ledger.Sound
  /-- The ledger knows what is pending. -/
  pending_eq : a.chunker.pending = a.ledger.bytesAt a.ledger.pending

/-- An action keeps the ledger balanced, refusals included. -/
theorem Balanced.perform (hn : 0 < n) (balanced : a.Balanced) (action : Action n) :
    (a.perform action).Balanced := by
  cases action with
  | absorb consume s data =>
    obtain ⟨sound, pending_eq⟩ := balanced.sound.record hn balanced.pending_eq
      (follows_absorbed hn consume s a.chunker data)
    rw [chunker_absorbed] at pending_eq
    exact ⟨sound, pending_eq⟩
  | feed consume s data =>
    obtain ⟨sound, pending_eq⟩ := balanced.sound.record hn balanced.pending_eq
      (follows_fed hn consume s a.chunker data)
    rw [chunker_fed hn] at pending_eq
    exact ⟨sound, pending_eq⟩
  | clear => exact ⟨balanced.sound.clear, rfl⟩

/-- So the ledger is balanced after all actions. -/
theorem Balanced.run (hn : 0 < n) (actions : List (Action n)) : (run actions).Balanced := by
  have hfold : ∀ (a : Account n), a.Balanced → (actions.foldl Account.perform a).Balanced := by
    induction actions with
    | nil => exact fun a balanced => balanced
    | cons action actions ih => exact fun a balanced => ih _ (balanced.perform hn action)
  exact hfold _ ⟨Ledger.sound_opening, rfl⟩

end Account

/-! ## The account -/

/-- Only the arrival of data changes the input. -/
theorem Ledger.input_record (l : Ledger n) (data : Bytes) (o : Outcome n) :
    (l.record data o).input = l.input ++ data := by
  have hfold : ∀ (bs : List (Vector UInt8 n)) (l : Ledger n), (bs.foldl accept l).input = l.input := by
    intro bs
    induction bs with
    | nil => exact fun l => rfl
    | cons b bs ih => exact fun l => ih (l.accept b)
  unfold Ledger.record
  cases o.refused with
  | none => exact hfold o.accepted (l.arrive data)
  | some block => exact hfold o.accepted (l.arrive data)

/-- An action adds its data to the input. -/
theorem Account.input_perform (a : Account n) (action : Action n) :
    (a.perform action).ledger.input = a.ledger.input ++ action.data := by
  cases action with
  | absorb consume s data => exact a.ledger.input_record data _
  | feed consume s data => exact a.ledger.input_record data _
  | clear => exact (List.append_nil _).symm

/-- The input is the data of all the actions. -/
theorem Account.input_run (actions : List (Action n)) :
    (Account.run actions).ledger.input = (actions.map Action.data).flatten := by
  have hfold : ∀ a : Account n, (actions.foldl Account.perform a).ledger.input =
      a.ledger.input ++ (actions.map Action.data).flatten := by
    induction actions with
    | nil => exact fun a => (List.append_nil _).symm
    | cons action actions ih =>
      intro a
      rw [List.foldl_cons, ih, input_perform, List.map_cons, List.flatten_cons, List.append_assoc]
  exact hfold _

/-- A call of a chunker of block length `n` gives its consumer the blocks of the pending bytes and the
data, up to the first that it refuses. If this is the first block and bytes were pending before the call,
then it is what is pending afterwards, and the next call gives it first; any other refusal leaves nothing
pending. So over any actions, with consumers that may refuse any block, an accepted block is not given
again, since all that is given after it comes later in the input, and the accepted blocks and the
pending bytes are the bytes of the input, in order, except for those that refusals lost and those that were
pending when the chunker was cleared. -/
theorem accounts_for_every_byte (hn : 0 < n) :
    (∀ (σ ε : Type) (consume : σ → Vector UInt8 n → Except ε σ) (s : σ) (c : Chunker n) (data : Bytes),
      let handed := blocks n (c.pending ++ data)
      let o := absorbed consume s c data
      o.chunker = (absorb consume s c data).2 ∧
      (o.refused = none →
        (∃ t, handed.foldlM consume s = .ok t ∧ (absorb consume s c data).1 = .ok t) ∧
        o.given = handed ∧ o.chunker.pending = remainder n (c.pending ++ data)) ∧
      ∀ block, o.refused = some block →
        let j := o.accepted.length
        (∃ t e, (handed.take j).foldlM consume s = .ok t ∧ consume t block = .error e ∧
          (absorb consume s c data).1 = .error e) ∧
        o.given = handed.take (j + 1) ∧ o.given.length = j + 1 ∧
        (c.pending ≠ [] ∧ j = 0 →
          o.chunker.pending = block.toList ∧
          (∀ (σ' ε' : Type) (next : σ' → Vector UInt8 n → Except ε' σ') (s' : σ') (more : Bytes),
            (absorbed next s' o.chunker more).given.head? = some block) ∧
          ∀ (σ' : Type) (next : σ' → Vector UInt8 n → σ') (s' : σ') (more : Bytes),
            (fed next s' o.chunker more).given.head? = some block) ∧
        (¬(c.pending ≠ [] ∧ j = 0) → o.chunker.pending = [])) ∧
    (∀ (σ : Type) (consume : σ → Vector UInt8 n → σ) (s : σ) (c : Chunker n) (data : Bytes),
      let handed := blocks n (c.pending ++ data)
      let o := fed consume s c data
      o.chunker = (feed consume s c data).2 ∧ (feed consume s c data).1 = handed.foldl consume s ∧
      o.given = handed ∧ o.chunker.pending = remainder n (c.pending ++ data)) ∧
    ∀ actions : List (Action n),
      let a := Account.run actions
      a.ledger.input = (actions.map Action.data).flatten ∧
      (∀ d ∈ a.ledger.deliveries, d.block.toList = a.ledger.bytesAt d.places) ∧
      (a.ledger.deliveries.Pairwise fun earlier later =>
        earlier.accepted → ∀ p ∈ earlier.places, ∀ q ∈ later.places, p < q) ∧
      (a.ledger.accepted.map Delivery.places).flatten ++ a.ledger.pending = a.ledger.kept ∧
      (a.ledger.accepted.map fun d => d.block.toList).flatten ++ a.chunker.pending =
        a.ledger.bytesAt a.ledger.kept := by
  refine ⟨fun σ ε consume s c data => ?_, fun σ consume s c data => ?_, fun actions => ?_⟩
  · -- A call with a consumer that may refuse.
    intro handed o
    have follows : Follows c data o := follows_absorbed hn consume s c data
    refine ⟨chunker_absorbed consume s c data, fun hnone => ?_, fun block hblock => ?_⟩
    · refine ⟨result_of_refused_eq_none hn consume s c data hnone, ?_, follows.rest_pending hnone⟩
      rw [given_of_refused_eq_none hnone, follows.all_accepted hnone]
    · have hgiven : o.given = o.accepted ++ [block] := given_of_refused_eq_some hblock
      have hlength : o.given.length = o.accepted.length + 1 := by
        rw [hgiven, List.length_append, List.length_singleton]
      -- The blocks that were given are the first ones, up to the refused one.
      have htake : o.given = handed.take (o.accepted.length + 1) := by
        rw [← hlength]
        exact List.prefix_iff_eq_take.mp follows.given_prefix
      have hempty : o.accepted.length = 0 ↔ o.accepted = [] := List.length_eq_zero_iff
      refine ⟨?_, htake, hlength, fun hstays => ?_, fun hlost => ?_⟩
      · exact result_of_refused_eq_some hn consume s c data hblock
      · rw [hempty] at hstays
        have hpending := follows.block_pending block hblock hstays
        exact ⟨hpending,
          fun σ' ε' next s' more =>
            (follows_absorbed hn next s' o.chunker more).head?_given_of_eq hn hpending,
          fun σ' next s' more =>
            (follows_fed hn next s' o.chunker more).head?_given_of_eq hn hpending⟩
      · rw [hempty] at hlost
        exact follows.nothing_pending block hblock hlost
  · -- A call with a consumer that takes everything.
    have hgiven : (fed consume s c data).given = blocks n (c.pending ++ data) := by
      rw [given_of_refused_eq_none rfl, accepted_fed hn]
    exact ⟨chunker_fed hn consume s c data, (feed_eq hn consume s c data).1, hgiven,
      (follows_fed hn consume s c data).rest_pending rfl⟩
  · -- A run: the balance is carried from action to action.
    obtain ⟨sound, pending_eq⟩ := Account.Balanced.run hn actions
    refine ⟨Account.input_run actions, sound.block_eq, sound.ordered, sound.accounted, ?_⟩
    rw [← sound.accounted, Ledger.bytesAt_append, pending_eq, sound.bytesAt_accepted]

/-- Blocks of two bytes: a block that was pending in part is refused and given again, a block that comes
whole with its data is refused, and a byte is cleared. -/
theorem accounts_for_every_byte_pairs :
    let refuse : ℕ → Vector UInt8 2 → Except Unit ℕ := fun _ _ => .error ()
    let count : ℕ → Vector UInt8 2 → ℕ := fun s _ => s + 1
    let actions : List (Action 2) :=
      [.feed count 0 [1], .absorb refuse 0 [2, 3], .feed count 0 [], .absorb refuse 0 [4, 5, 6, 7],
        .feed count 0 [8], .clear, .feed count 0 [9]]
    let a := Account.run actions
    0 < 2 ∧
    (absorbed refuse 0 ⟨[1], by decide⟩ [2, 3]).chunker.pending = [1, 2] ∧
    a.ledger.deliveries.map Delivery.accepted = [false, true, false] ∧
    a.ledger.lost = [2, 3, 4, 5, 6] ∧ a.ledger.cleared = [7] ∧
    (a.ledger.accepted.map fun d => d.block.toList).flatten ++ a.chunker.pending = [1, 2, 9] := by
  intro refuse count actions a
  obtain ⟨hcall, -, hrun⟩ := accounts_for_every_byte (n := 2) (by decide)
  -- The refused call of the run, on the chunker that the first call left.
  obtain ⟨-, -, hrefused⟩ := hcall ℕ Unit refuse 0 ⟨[1], by decide⟩ [2, 3]
  obtain ⟨-, -, -, hstays, -⟩ := hrefused #v[1, 2] (by cbv)
  obtain ⟨-, -, -, -, haccount⟩ := hrun actions
  have hkept : a.ledger.bytesAt a.ledger.kept = [1, 2, 9] := by cbv
  exact ⟨by decide, (hstays ⟨by decide, by cbv⟩).1, by cbv, by cbv, by cbv, haccount.trans hkept⟩

end SymmetricCrypto.Chunker
