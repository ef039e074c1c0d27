import SymmetricCrypto.Bytes.Basic

/-!
# Regrouping a byte stream into blocks

A `Chunker n` cuts a stream that arrives in pieces of any length into blocks of `n` bytes and keeps
the incomplete rest. `Chunker.absorb` hands each complete block to a consumer that may refuse it;
`Chunker.feed` is the same for a consumer that cannot.

A refusal ends the call, and the rest of its data is lost. If the refused block was completing bytes
that had been pending, it stays in the chunker, which is then full: the next call hands it over again
before it looks at its own data. If it came straight from the data, it is lost with the rest.
-/

namespace SymmetricCrypto

/-- The pending bytes of a stream that is cut into blocks of `n` bytes. -/
structure Chunker (n : Nat) where
  /-- The bytes that no consumer has accepted. -/
  pending : Bytes
  /-- A whole block is pending only after its consumer has refused it. -/
  length_le : pending.length ≤ n

namespace Chunker

variable {n : Nat} {σ ε : Type}

/-- Nothing is pending. -/
def empty (n : Nat) : Chunker n := ⟨[], Nat.zero_le n⟩

/-- Hands over the blocks that lie whole in the data, when nothing is pending before it. A length of
zero gives no block. -/
def deliver (consume : σ → Vector UInt8 n → Except ε σ) (s : σ) (data : Bytes) :
    Except ε σ × Chunker n :=
  if h : 0 < n ∧ (data.take n).length = n then
    match consume s ⟨(data.take n).toArray, h.2⟩ with
    | .error e => (.error e, empty n)
    | .ok s => deliver consume s (data.drop n)
  else (.ok s, ⟨data.take n, List.length_take_le n data⟩)
termination_by data.length
decreasing_by
  simp only [List.length_take] at h
  simp only [List.length_drop]
  omega

/-- Adds data to the stream and hands each block that it completes to the consumer, until the
consumer refuses one. The result is the state of the consumer or its refusal, and what is pending. -/
def absorb (consume : σ → Vector UInt8 n → Except ε σ) (s : σ) (c : Chunker n)
    (data : Bytes) : Except ε σ × Chunker n :=
  if c.pending = [] then deliver consume s data
  else
    let missing := n - c.pending.length
    let started := c.pending ++ data.take missing
    if h : started.length < n then (.ok s, ⟨started, Nat.le_of_lt h⟩)
    else
      have full : started.length = n := by
        have := c.length_le
        simp only [started, missing, List.length_append, List.length_take] at h ⊢
        omega
      match consume s ⟨started.toArray, by simpa using full⟩ with
      | .error e => (.error e, ⟨started, Nat.le_of_eq full⟩)
      | .ok s => deliver consume s (data.drop missing)

/-- Adds data to the stream and hands each block that it completes to the consumer. -/
def feed (consume : σ → Vector UInt8 n → σ) (s : σ) (c : Chunker n) (data : Bytes) :
    σ × Chunker n :=
  match absorb (fun s b => (.ok (consume s b) : Except Empty σ)) s c data with
  | (.ok s, c) => (s, c)

end Chunker

end SymmetricCrypto
