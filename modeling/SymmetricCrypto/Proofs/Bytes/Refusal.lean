import Mathlib
import SymmetricCrypto.Proofs.Bytes.Conservation

/-!
# What a refusal leaves behind

A consumer may refuse a block, and a refusal ends the call. The `Outcome` of a call tells the blocks that
were accepted, the one that was refused, if any, and the chunker afterwards. It is read off the call
itself, with a consumer that keeps a record (`witnessed`), and to forget the record gives the call back
(`absorb_eq_witnessed`).

Both calls follow one law (`Follows`): the consumer is given the first blocks of the pending bytes and the
data, up to the refused one. A refused block stays pending if it completes bytes that had been pending,
so that the next call hands it over again (`Follows.head?_given_of_eq`), and is lost otherwise.
-/

namespace SymmetricCrypto.Chunker

open Transfer (recording)

variable {n : ℕ} {σ ε : Type}

/-- What a call did. -/
structure Outcome (n : ℕ) where
  /-- The blocks that the consumer accepted. -/
  accepted : List (Vector UInt8 n)
  /-- The block that it refused, if it did. -/
  refused : Option (Vector UInt8 n)
  /-- The chunker after the call. -/
  chunker : Chunker n

/-- The blocks that the consumer was given, in order. -/
def Outcome.given (o : Outcome n) : List (Vector UInt8 n) := o.accepted ++ o.refused.toList

/-- A consumer with a record of the blocks that it accepted, and of the one that it refused. -/
def witnessed (consume : σ → Vector UInt8 n → Except ε σ) (s : σ × List (Vector UInt8 n))
    (block : Vector UInt8 n) :
    Except (ε × List (Vector UInt8 n) × Vector UInt8 n) (σ × List (Vector UInt8 n)) :=
  match consume s.1 block with
  | .error e => .error (e, s.2, block)
  | .ok t => .ok (t, s.2 ++ [block])

/-- What `absorb` did. -/
def absorbed (consume : σ → Vector UInt8 n → Except ε σ) (s : σ) (c : Chunker n) (data : Bytes) :
    Outcome n :=
  let result := absorb (witnessed consume) (s, []) c data
  match result.1 with
  | .ok t => ⟨t.2, none, result.2⟩
  | .error e => ⟨e.2.1, some e.2.2, result.2⟩

/-- What `feed` did. -/
def fed (consume : σ → Vector UInt8 n → σ) (s : σ) (c : Chunker n) (data : Bytes) : Outcome n :=
  let result := feed (recording consume) (s, []) c data
  ⟨result.1.2, none, result.2⟩

/-! ## The record -/

/-- The record aside, a consumer with a record is the consumer. -/
theorem witnessed_fst (consume : σ → Vector UInt8 n → Except ε σ) (s : σ × List (Vector UInt8 n))
    (block : Vector UInt8 n) :
    consume s.1 block = ((witnessed consume s block).map Prod.fst).mapError Prod.fst := by
  unfold witnessed
  cases consume s.1 block <;> rfl

/-- The record aside, the call with a record is the call. -/
theorem absorb_eq_witnessed (consume : σ → Vector UInt8 n → Except ε σ) (s : σ) (c : Chunker n)
    (data : Bytes) :
    absorb consume s c data = Prod.map (fun r => (r.map Prod.fst).mapError Prod.fst) id
      (absorb (witnessed consume) (s, []) c data) :=
  absorb_map (witnessed_fst consume) (s, []) c data

/-- A run over blocks with a record accepts all of them, or the first ones up to a refused one. -/
theorem foldlM_witnessed (consume : σ → Vector UInt8 n → Except ε σ) (bs : List (Vector UInt8 n))
    (s : σ) (log : List (Vector UInt8 n)) :
    (∃ t, bs.foldlM consume s = .ok t ∧
      bs.foldlM (witnessed consume) (s, log) = .ok (t, log ++ bs)) ∨
    ∃ done block rest t e, bs = done ++ block :: rest ∧ done.foldlM consume s = .ok t ∧
      consume t block = .error e ∧
      bs.foldlM (witnessed consume) (s, log) = .error (e, log ++ done, block) := by
  induction bs generalizing s log with
  | nil => exact .inl ⟨s, rfl, by rw [List.append_nil]; rfl⟩
  | cons b bs ih =>
    rw [List.foldlM_cons, List.foldlM_cons, witnessed]
    cases hb : consume s b with
    | error e => exact .inr ⟨[], b, bs, s, e, rfl, rfl, hb, by rw [List.append_nil]; rfl⟩
    | ok t =>
      rcases ih t (log ++ [b]) with ⟨u, hrun, hlog⟩ | ⟨done, block, rest, u, e, rfl, hrun, he, hlog⟩
      · refine .inl ⟨u, hrun, hlog.trans ?_⟩
        rw [List.append_assoc, List.singleton_append]
      · refine .inr ⟨b :: done, block, rest, u, e, rfl, ?_, he, hlog.trans ?_⟩
        · rw [List.foldlM_cons, hb]
          exact hrun
        · rw [List.append_assoc, List.singleton_append]

/-! ## What a refusal leaves pending -/

/-- A block that is refused with nothing pending before it is lost. -/
theorem pending_deliver_of_error {consume : σ → Vector UInt8 n → Except ε σ} {s : σ} {data : Bytes}
    {e : ε} (h : (deliver consume s data).1 = .error e) :
    (deliver consume s data).2.pending = [] := by
  fun_induction deliver consume s data with
  | case1 s data hlong e' hrefused => rfl
  | case2 s data hlong t haccepted ih => exact ih h
  | case3 s data hshort => cases h

/-- A call that completes the pending bytes to a block begins with this block. -/
theorem absorb_of_blocks_eq_cons (hn : 0 < n) {c : Chunker n} (hc : c.pending ≠ [])
    (consume : σ → Vector UInt8 n → Except ε σ) (s : σ) {data : Bytes} {block : Vector UInt8 n}
    {rest : List (Vector UInt8 n)} (hblocks : blocks n (c.pending ++ data) = block :: rest) :
    ∃ more, absorb consume s c data =
      match consume s block with
      | .error e => (.error e, ⟨block.toList, by simp⟩)
      | .ok t => deliver consume t more := by
  have hsplit := flatten_blocks_append_remainder hn (c.pending ++ data)
  rw [hblocks, List.map_cons, List.flatten_cons, List.append_assoc] at hsplit
  exact ⟨_, absorb_of_le hc consume s data block _ hsplit.symm⟩

/-- A block that completes the pending bytes stays if it is refused. -/
theorem pending_absorb_of_first_refused (hn : 0 < n) {c : Chunker n} (hc : c.pending ≠ [])
    {consume : σ → Vector UInt8 n → Except ε σ} {s : σ} {data : Bytes} {block : Vector UInt8 n}
    {rest : List (Vector UInt8 n)} (hblocks : blocks n (c.pending ++ data) = block :: rest) {e : ε}
    (hrefused : consume s block = .error e) :
    (absorb consume s c data).2.pending = block.toList := by
  obtain ⟨more, habsorb⟩ := absorb_of_blocks_eq_cons hn hc consume s hblocks
  rw [habsorb, hrefused]

/-- After the block that completes the pending bytes was accepted, a refusal leaves nothing. -/
theorem pending_absorb_of_first_accepted (hn : 0 < n) {c : Chunker n} (hc : c.pending ≠ [])
    {consume : σ → Vector UInt8 n → Except ε σ} {s t : σ} {data : Bytes} {block : Vector UInt8 n}
    {rest : List (Vector UInt8 n)} (hblocks : blocks n (c.pending ++ data) = block :: rest)
    (haccepted : consume s block = .ok t) {e : ε} (h : (absorb consume s c data).1 = .error e) :
    (absorb consume s c data).2.pending = [] := by
  obtain ⟨more, habsorb⟩ := absorb_of_blocks_eq_cons hn hc consume s hblocks
  rw [haccepted] at habsorb
  rw [habsorb] at h ⊢
  exact pending_deliver_of_error h

/-! ## The law of a call -/

/-- The outcome `o` of a call with `data` on the chunker `c`. -/
structure Follows (c : Chunker n) (data : Bytes) (o : Outcome n) : Prop where
  /-- The consumer is given the first blocks of the pending bytes and the data. -/
  given_prefix : o.given <+: blocks n (c.pending ++ data)
  /-- If it refuses none, it is given all of them. -/
  all_accepted : o.refused = none → o.accepted = blocks n (c.pending ++ data)
  /-- If it refuses none, the rest is pending. -/
  rest_pending : o.refused = none → o.chunker.pending = remainder n (c.pending ++ data)
  /-- A refused block that completes the pending bytes stays. -/
  block_pending : ∀ block, o.refused = some block → c.pending ≠ [] ∧ o.accepted = [] →
    o.chunker.pending = block.toList
  /-- Any other refusal leaves nothing. -/
  nothing_pending : ∀ block, o.refused = some block → ¬(c.pending ≠ [] ∧ o.accepted = []) →
    o.chunker.pending = []

/-- If no block was refused, all that were given were accepted. -/
theorem given_of_refused_eq_none {o : Outcome n} (h : o.refused = none) : o.given = o.accepted := by
  rw [Outcome.given, h, Option.toList_none, List.append_nil]

/-- A refused block is the last one that was given. -/
theorem given_of_refused_eq_some {o : Outcome n} {block : Vector UInt8 n}
    (h : o.refused = some block) : o.given = o.accepted ++ [block] := by
  rw [Outcome.given, h, Option.toList_some]

/-- The consumer is given the first block there is. -/
theorem Follows.head?_given {c : Chunker n} {data : Bytes} {o : Outcome n} (h : Follows c data o) :
    o.given.head? = (blocks n (c.pending ++ data)).head? := by
  obtain ⟨later, hlater⟩ := h.given_prefix
  cases hrefused : o.refused with
  | none => rw [given_of_refused_eq_none hrefused, h.all_accepted hrefused]
  | some block =>
    rw [← hlater, given_of_refused_eq_some hrefused, List.append_assoc, List.head?_append,
      List.head?_append]
    cases o.accepted <;> rfl

/-- A block that stayed is the first that the next call gives, whatever the data of this call is. -/
theorem Follows.head?_given_of_eq (hn : 0 < n) {c : Chunker n} {data : Bytes} {o : Outcome n}
    (h : Follows c data o) {block : Vector UInt8 n} (hpending : c.pending = block.toList) :
    o.given.head? = some block := by
  rw [h.head?_given, hpending, blocks_append_left hn, List.head?_cons]

/-- What `absorb` did, by the decisions of the consumer: it accepts all the blocks, or the first ones up
to a refused one. -/
theorem absorbed_cases (hn : 0 < n) (consume : σ → Vector UInt8 n → Except ε σ) (s : σ)
    (c : Chunker n) (data : Bytes) :
    (∃ t, (blocks n (c.pending ++ data)).foldlM consume s = .ok t ∧
      (absorb consume s c data).1 = .ok t ∧
      absorbed consume s c data =
        ⟨blocks n (c.pending ++ data), none, (absorb consume s c data).2⟩) ∨
    ∃ done block rest t e, blocks n (c.pending ++ data) = done ++ block :: rest ∧
      done.foldlM consume s = .ok t ∧ consume t block = .error e ∧
      (absorb consume s c data).1 = .error e ∧
      absorbed consume s c data = ⟨done, some block, (absorb consume s c data).2⟩ := by
  obtain ⟨hrecord, -⟩ := absorb_eq hn (witnessed consume) (s, []) c data
  rw [absorb_eq_witnessed, absorbed]
  generalize absorb (witnessed consume) (s, []) c data = result at *
  obtain ⟨decided, chunker⟩ := result
  dsimp only at hrecord ⊢
  rcases foldlM_witnessed consume (blocks n (c.pending ++ data)) s [] with
    ⟨t, hrun, hlog⟩ | ⟨done, block, rest, t, e, hblocks, hrun, hrefused, hlog⟩
  · obtain rfl := hrecord.trans hlog
    exact .inl ⟨t, hrun, rfl, rfl⟩
  · obtain rfl := hrecord.trans hlog
    exact .inr ⟨done, block, rest, t, e, hblocks, hrun, hrefused, rfl, rfl⟩

/-- If no block is refused, all are accepted, and the call ends in the state after them. -/
theorem result_of_refused_eq_none (hn : 0 < n) (consume : σ → Vector UInt8 n → Except ε σ) (s : σ)
    (c : Chunker n) (data : Bytes) (h : (absorbed consume s c data).refused = none) :
    ∃ t, (blocks n (c.pending ++ data)).foldlM consume s = .ok t ∧
      (absorb consume s c data).1 = .ok t := by
  rcases absorbed_cases hn consume s c data with
    ⟨t, hrun, hresult, -⟩ | ⟨done, block, rest, t, e, -, -, -, -, ho⟩
  · exact ⟨t, hrun, hresult⟩
  · rw [ho] at h
    cases h

/-- The blocks before a refused one are accepted, and the call ends with the refusal. -/
theorem result_of_refused_eq_some (hn : 0 < n) (consume : σ → Vector UInt8 n → Except ε σ) (s : σ)
    (c : Chunker n) (data : Bytes) {block : Vector UInt8 n}
    (h : (absorbed consume s c data).refused = some block) :
    ∃ t e, ((blocks n (c.pending ++ data)).take
        (absorbed consume s c data).accepted.length).foldlM consume s = .ok t ∧
      consume t block = .error e ∧ (absorb consume s c data).1 = .error e := by
  rcases absorbed_cases hn consume s c data with
    ⟨t, -, -, ho⟩ | ⟨done, block', rest, t, e, hblocks, hrun, hrefused, hresult, ho⟩
  · rw [ho] at h
    cases h
  · rw [ho] at h ⊢
    obtain rfl := Option.some.inj h
    refine ⟨t, e, ?_, hrefused, hresult⟩
    rw [hblocks, List.take_left]
    exact hrun

/-- The record of `absorb` has the chunker of the call. -/
theorem chunker_absorbed (consume : σ → Vector UInt8 n → Except ε σ) (s : σ) (c : Chunker n)
    (data : Bytes) : (absorbed consume s c data).chunker = (absorb consume s c data).2 := by
  rw [absorb_eq_witnessed, absorbed]
  generalize absorb (witnessed consume) (s, []) c data = result
  obtain ⟨_ | _, chunker⟩ := result <;> rfl

/-- A call whose blocks can be refused does what the outcome says. -/
theorem follows_absorbed (hn : 0 < n) (consume : σ → Vector UInt8 n → Except ε σ) (s : σ)
    (c : Chunker n) (data : Bytes) : Follows c data (absorbed consume s c data) := by
  rcases absorbed_cases hn consume s c data with
    ⟨t, -, hresult, ho⟩ | ⟨done, block, rest, t, e, hblocks, hrun, hrefused, hresult, ho⟩
  · -- No block was refused.
    rw [ho]
    exact {
      given_prefix := by rw [given_of_refused_eq_none rfl]
      all_accepted := fun _ => rfl
      rest_pending := fun _ => (absorb_eq hn consume s c data).2 t hresult
      block_pending := fun _ h => by cases h
      nothing_pending := fun _ h => by cases h }
  · -- The block after `done` was refused.
    rw [ho]
    refine { given_prefix := ?_, all_accepted := fun h => ?_, rest_pending := fun h => ?_,
             block_pending := ?_, nothing_pending := ?_ }
    · rw [given_of_refused_eq_some rfl, hblocks]
      exact ⟨rest, by rw [List.append_assoc, List.singleton_append]⟩
    · cases h
    · cases h
    · -- The first block is refused, so no state came before it.
      rintro _ ⟨⟩ ⟨hc, hdone⟩
      dsimp only at hdone
      subst hdone
      obtain rfl : s = t := Except.ok.inj hrun
      exact pending_absorb_of_first_refused hn hc hblocks hrefused
    · rintro _ ⟨⟩ hlost
      dsimp only at hlost ⊢
      -- Either nothing was pending before the call, or the pending block was accepted.
      rcases eq_or_ne c.pending [] with hc | hc
      · have hdeliver : absorb consume s c data = deliver consume s data := by rw [absorb, if_pos hc]
        rw [hdeliver] at hresult ⊢
        exact pending_deliver_of_error hresult
      · cases done with
        | nil => exact absurd ⟨hc, rfl⟩ hlost
        | cons first later =>
          rw [List.foldlM_cons] at hrun
          cases haccepted : consume s first with
          | error e' =>
            rw [haccepted] at hrun
            cases hrun
          | ok u => exact pending_absorb_of_first_accepted hn hc hblocks haccepted hresult

/-- The record of `feed` has the chunker of the call. -/
theorem chunker_fed (hn : 0 < n) (consume : σ → Vector UInt8 n → σ) (s : σ) (c : Chunker n)
    (data : Bytes) : (fed consume s c data).chunker = (feed consume s c data).2 := by
  have hrecord := (feed_eq hn (recording consume) (s, []) c data).2
  have hcall := (feed_eq hn consume s c data).2
  exact ext_pending (hrecord.trans hcall.symm)

/-- What `feed` did: its consumer accepts all the blocks. -/
theorem accepted_fed (hn : 0 < n) (consume : σ → Vector UInt8 n → σ) (s : σ) (c : Chunker n)
    (data : Bytes) : (fed consume s c data).accepted = blocks n (c.pending ++ data) := by
  have hstate := (feed_eq hn (recording consume) (s, []) c data).1
  rw [foldl_recording, List.nil_append] at hstate
  exact congrArg Prod.snd hstate

/-- A call whose blocks are all accepted does what the outcome says. -/
theorem follows_fed (hn : 0 < n) (consume : σ → Vector UInt8 n → σ) (s : σ) (c : Chunker n)
    (data : Bytes) : Follows c data (fed consume s c data) := by
  have haccepted := accepted_fed hn consume s c data
  exact {
    given_prefix := by rw [given_of_refused_eq_none rfl, haccepted]
    all_accepted := fun _ => haccepted
    rest_pending := fun _ => (feed_eq hn (recording consume) (s, []) c data).2
    block_pending := fun _ h => by cases h
    nothing_pending := fun _ h => by cases h }

end SymmetricCrypto.Chunker
