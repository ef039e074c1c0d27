import Mathlib
import SymmetricCrypto.Proofs.Bytes.Ledger

/-!
# When a chunker is full

Blocks go to the consumer as soon as they are complete, so fewer than `n` bytes should be pending between
the actions on a chunker. There is one exception. An action `Strands` a block if bytes were pending before
it, its data completes them to a block, and its consumer refuses this block: the block stays, and the
chunker is full.

What is delivered straight from the data leaves less than a block, also where a block of it is refused
(`length_pending_deliver_lt`). So an action that strands no block leaves less than a block
(`length_pending_after_lt`), and whether a run keeps to the bound is read off its actions, each at the
chunker that the ones before it left (`pending_bounded_iff`).
-/

namespace SymmetricCrypto.Chunker

variable {n : ℕ} {σ ε : Type} {c : Chunker n} {action : Action n} {block : Vector UInt8 n}

/-- The chunker after an action. -/
def after (c : Chunker n) : Action n → Chunker n
  | .absorb consume s data => (absorb consume s c data).2
  | .feed consume s data => (feed consume s c data).2
  | .clear => empty n

/-- The action completes bytes that were pending to a block, and its consumer refuses this block. -/
def Action.Strands (c : Chunker n) (block : Vector UInt8 n) : Action n → Prop
  | .absorb consume s data =>
    c.pending ≠ [] ∧ (blocks n (c.pending ++ data)).head? = some block ∧
      ∃ e, consume s block = .error e
  | .feed _ _ _ => False
  | .clear => False

/-! ## One action -/

/-- What is delivered straight from the data leaves less than a block, whatever is refused. -/
theorem length_pending_deliver_lt (hn : 0 < n) (consume : σ → Vector UInt8 n → Except ε σ) (s : σ)
    (data : Bytes) : (deliver consume s data).2.pending.length < n := by
  fun_induction deliver consume s data with
  | case1 s data hlong e hrefused => exact hn
  | case2 s data hlong t haccepted ih => exact ih
  | case3 s data hshort =>
    rw [List.length_take] at hshort ⊢
    omega

/-- A stranded block is what is pending. -/
theorem pending_after_of_strands (hn : 0 < n) (h : action.Strands c block) :
    (c.after action).pending = block.toList := by
  cases action with
  | absorb consume s data =>
    obtain ⟨hc, hfirst, e, hrefused⟩ := h
    obtain ⟨rest, hblocks⟩ := List.head?_eq_some_iff.mp hfirst
    exact pending_absorb_of_first_refused hn hc hblocks hrefused
  | feed consume s data => exact h.elim
  | clear => exact h.elim

/-- A call whose consumer accepts the block that completes the pending bytes, if there is one, leaves
less than a block. -/
theorem length_pending_absorb_lt (hn : 0 < n) (consume : σ → Vector UInt8 n → Except ε σ) (s : σ)
    (c : Chunker n) (data : Bytes)
    (h : ∀ block, c.pending ≠ [] → (blocks n (c.pending ++ data)).head? = some block →
      ∃ t, consume s block = .ok t) :
    (absorb consume s c data).2.pending.length < n := by
  rcases eq_or_ne c.pending [] with hc | hc
  · have hdeliver : absorb consume s c data = deliver consume s data := by rw [absorb, if_pos hc]
    rw [hdeliver]
    exact length_pending_deliver_lt hn consume s data
  cases hblocks : blocks n (c.pending ++ data) with
  | nil =>
    -- The pending bytes are not completed, and stay with the data.
    have hcount := length_blocks hn (c.pending ++ data)
    rw [hblocks, List.length_nil, eq_comm, Nat.div_eq_zero_iff_lt hn] at hcount
    rw [absorb_of_lt hc consume s data hcount]
    exact hcount
  | cons block rest =>
    obtain ⟨t, haccepted⟩ := h block hc (by rw [hblocks, List.head?_cons])
    obtain ⟨more, habsorb⟩ := absorb_of_blocks_eq_cons hn hc consume s hblocks
    rw [habsorb, haccepted]
    exact length_pending_deliver_lt hn consume t more

/-- An action that strands no block leaves less than a block. -/
theorem length_pending_after_lt (hn : 0 < n) (h : ∀ block, ¬action.Strands c block) :
    (c.after action).pending.length < n := by
  cases action with
  | absorb consume s data =>
    refine length_pending_absorb_lt hn consume s c data fun block hc hfirst => ?_
    cases hdecided : consume s block with
    | error e => exact absurd ⟨hc, hfirst, e, hdecided⟩ (h block)
    | ok t => exact ⟨t, rfl⟩
  | feed consume s data =>
    rw [after, (feed_eq hn consume s c data).2, length_remainder]
    exact Nat.mod_lt _ hn
  | clear => exact hn

/-- An action leaves less than a block exactly if it strands none. -/
theorem length_pending_after_lt_iff (hn : 0 < n) :
    (c.after action).pending.length < n ↔ ∀ block, ¬action.Strands c block := by
  refine ⟨fun hlt block hstrands => ?_, length_pending_after_lt hn⟩
  rw [pending_after_of_strands hn hstrands, Vector.length_toList] at hlt
  exact Nat.lt_irrefl n hlt

/-! ## Runs -/

namespace Account

/-- The last action of a run is an action on the chunker that the others left. -/
theorem chunker_run_concat (before : List (Action n)) (action : Action n) :
    (run (before ++ [action])).chunker = (run before).chunker.after action := by
  rw [run, List.foldl_append]
  cases action <;> rfl

end Account

/-- After any actions on a new chunker of block length `n`, an action that strands a block leaves it
pending, all `n` bytes of it, and any other action leaves fewer than `n` bytes. So fewer than `n` bytes are
pending after each action of a run exactly if none of them strands a block. -/
theorem pending_bounded_iff (hn : 0 < n) :
    (∀ (before : List (Action n)) (action : Action n),
      let c := (Account.run before).chunker
      let d := (Account.run (before ++ [action])).chunker
      (∀ block, action.Strands c block → d.pending = block.toList ∧ d.pending.length = n) ∧
      ((∀ block, ¬action.Strands c block) → d.pending.length < n)) ∧
    ∀ actions : List (Action n),
      (∀ before, before <+: actions → (Account.run before).chunker.pending.length < n) ↔
        ∀ before action, before ++ [action] <+: actions →
          ∀ block, ¬action.Strands (Account.run before).chunker block := by
  refine ⟨fun before action => ⟨fun block hstrands => ?_, fun hnone => ?_⟩, fun actions => ⟨?_, ?_⟩⟩
  · rw [Account.chunker_run_concat, pending_after_of_strands hn hstrands]
    exact ⟨rfl, Vector.length_toList⟩
  · rw [Account.chunker_run_concat]
    exact length_pending_after_lt hn hnone
  · intro hbounded before action hprefix
    rw [← length_pending_after_lt_iff hn, ← Account.chunker_run_concat]
    exact hbounded _ hprefix
  · intro hnone before hprefix
    -- A run without actions leaves a new chunker, and any other is read off its last action.
    rcases List.eq_nil_or_concat' before with rfl | ⟨earlier, action, rfl⟩
    · exact hn
    · rw [Account.chunker_run_concat, length_pending_after_lt_iff hn]
      exact hnone earlier action hprefix

/-- A block of two bytes that is refused when it is completed, refused again without new data, and then
accepted. -/
theorem pending_bounded_iff_redelivered :
    let refuse : ℕ → Vector UInt8 2 → Except Unit ℕ := fun _ _ => .error ()
    let count : ℕ → Vector UInt8 2 → ℕ := fun s _ => s + 1
    let started : List (Action 2) := [.feed count 0 [1]]
    let actions : List (Action 2) :=
      started ++ [.absorb refuse 0 [2, 3], .absorb refuse 0 [], .feed count 0 []]
    0 < 2 ∧ (Account.run (started ++ [.absorb refuse 0 [2, 3]])).chunker.pending = [1, 2] ∧
      ¬∀ before, before <+: actions → (Account.run before).chunker.pending.length < 2 := by
  intro refuse count started actions
  obtain ⟨heach, hrun⟩ := pending_bounded_iff (n := 2) (by decide)
  have hpending : (Account.run started).chunker.pending = [1] := by cbv
  have hstrands : (Action.absorb refuse 0 [2, 3]).Strands (Account.run started).chunker #v[1, 2] :=
    ⟨by rw [hpending]; decide, by cbv, (), rfl⟩
  refine ⟨by decide, ((heach _ _).1 _ hstrands).1, fun hbounded => ?_⟩
  exact (hrun actions).mp hbounded started _ ⟨[.absorb refuse 0 [], .feed count 0 []], rfl⟩ _ hstrands

/-- A byte is pending, and the byte that completes it to a block comes with a consumer that refuses. After
this call all of the block is pending. -/
theorem refused_block_fills_chunker :
    let refuse : ℕ → Vector UInt8 2 → Except Unit ℕ := fun _ _ => .error ()
    let actions : List (Action 2) := [.absorb refuse 0 [0x61], .absorb refuse 0 [0x62]]
    ¬∀ before, before <+: actions → (Account.run before).chunker.pending.length < 2 := by
  intro refuse actions hbounded
  have hfull : (Account.run actions).chunker.pending.length = 2 := by cbv
  exact absurd (hbounded actions (List.prefix_refl actions)) (by rw [hfull]; decide)

end SymmetricCrypto.Chunker
