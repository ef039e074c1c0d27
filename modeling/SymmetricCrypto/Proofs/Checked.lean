import Mathlib

/-!
# Computations that check their operations

On words, sums, differences and products go around, and the total operations of this library let
them; a read past the end of an array gives a default. A `Checked` computation does the same with
every operation checked: a result in words has to be the number that was meant (`exact`), a divisor
has to be different from zero, and an index has to be inside (`lookup`, `replace`). It stops at the
first operation for which this is not so. A checked computation that is equal to a pure value has met
no such operation.

Loops are equal to pure ones if their steps are, as long as an invariant holds
(`foldlM_eq_pure`).
-/

namespace SymmetricCrypto

/-- Why a checked computation stops. -/
inductive Fault
  /-- A word does not hold the sum, difference or product. -/
  | inexact
  /-- The divisor is zero. -/
  | zeroDivisor
  /-- An index or a range is not inside. -/
  | outOfBounds
  /-- A hash cannot give that many bytes. -/
  | digestLength
  deriving DecidableEq

/-- A computation that stops at a fault. -/
abbrev Checked (α : Type) := Except Fault α

/-- Words that stand for natural numbers. -/
class MachineWord (ω : Type) where
  /-- The number that a word stands for. -/
  toNat : ω → ℕ

/-- Words of 32 bits. -/
instance : MachineWord UInt32 := ⟨UInt32.toNat⟩

/-- Words of 64 bits. -/
instance : MachineWord UInt64 := ⟨UInt64.toNat⟩

/-- Numbers without a bound, of which only a difference may not fit. -/
instance : MachineWord ℕ := ⟨id⟩

/-- The number of a word of 64 bits. -/
@[simp] theorem MachineWord.toNat_uInt64 (x : UInt64) : MachineWord.toNat x = x.toNat := rfl

namespace Checked

open MachineWord (toNat)

variable {ω α β : Type} [MachineWord ω]

/-- A result in words, if it is the number that was meant. -/
def exact (word : ω) (meant : ℤ) : Checked ω :=
  if (toNat word : ℤ) = meant then pure word else throw .inexact

/-- A sum that has to fit. -/
def add [Add ω] (x y : ω) : Checked ω := exact (x + y) (toNat x + toNat y)

/-- A difference that must not be negative. -/
def sub [Sub ω] (x y : ω) : Checked ω := exact (x - y) (toNat x - toNat y)

/-- A product that has to fit. -/
def mul [Mul ω] (x y : ω) : Checked ω := exact (x * y) (toNat x * toNat y)

/-- A quotient by a number that must not be zero. -/
def div [Div ω] (x y : ω) : Checked ω := if toNat y = 0 then throw .zeroDivisor else pure (x / y)

/-- A remainder by a number that must not be zero. -/
def rem [Mod ω] (x y : ω) : Checked ω := if toNat y = 0 then throw .zeroDivisor else pure (x % y)

/-- The entry at an index that has to be inside. -/
def lookup (xs : Array α) (i : ℕ) : Checked α :=
  match xs[i]? with
  | some x => pure x
  | none => throw .outOfBounds

/-- The array with another entry at an index that has to be inside. -/
def replace (xs : Array α) (i : ℕ) (x : α) : Checked (Array α) :=
  if i < xs.size then pure (xs.setIfInBounds i x) else throw .outOfBounds

/-- The entries of a range that has to be inside. -/
def slice (xs : List α) (start stop : ℕ) : Checked (List α) :=
  if start ≤ stop ∧ stop ≤ xs.length then pure ((xs.take stop).drop start) else throw .outOfBounds

/-- The list with some entries written over a range, which has to be inside and as long as they are.
-/
def overwrite (xs : List α) (start stop : ℕ) (entries : List α) : Checked (List α) :=
  if start ≤ stop ∧ stop ≤ xs.length ∧ entries.length = stop - start then
    pure (xs.take start ++ entries ++ xs.drop stop)
  else throw .outOfBounds

/-- The entries of a list with their positions from a number on. The count is ahead by one, as that
of an open range, and has to fit. -/
def number (n : UInt32) : List α → Checked (List (UInt32 × α))
  | [] => do
    let _ ← add n 1
    return []
  | x :: rest => do
    let next ← add n 1
    let numbered ← number next rest
    return (n, x) :: numbered

/-- A result that is the number that was meant meets no fault. -/
theorem exact_eq {word : ω} {meant : ℤ} (h : (toNat word : ℤ) = meant) :
    exact word meant = pure word := if_pos h

/-- A sum that fits meets no fault. -/
theorem add_eq [Add ω] {x y : ω} (h : toNat (x + y) = toNat x + toNat y) :
    add x y = pure (x + y) := exact_eq (by omega)

/-- A difference that is not negative meets no fault. -/
theorem sub_eq [Sub ω] {x y : ω} (hle : toNat y ≤ toNat x)
    (h : toNat (x - y) = toNat x - toNat y) : sub x y = pure (x - y) := exact_eq (by omega)

/-- A product that fits meets no fault. -/
theorem mul_eq [Mul ω] {x y : ω} (h : toNat (x * y) = toNat x * toNat y) :
    mul x y = pure (x * y) := exact_eq (by rw [h]; push_cast; rfl)

/-- A quotient by a number other than zero meets no fault. -/
theorem div_eq [Div ω] {x y : ω} (h : 0 < toNat y) : div x y = pure (x / y) :=
  if_neg (Nat.ne_of_gt h)

/-- A remainder by a number other than zero meets no fault. -/
theorem rem_eq [Mod ω] {x y : ω} (h : 0 < toNat y) : rem x y = pure (x % y) :=
  if_neg (Nat.ne_of_gt h)

/-- An entry that is there is found. -/
theorem lookup_eq_of_getElem? {xs : Array α} {i : ℕ} {x : α} (h : xs[i]? = some x) :
    lookup xs i = pure x := by
  rw [lookup, h]

/-- Inside of an array, the default is not read. -/
theorem lookup_eq {xs : Array α} {i : ℕ} (h : i < xs.size) (default : α) :
    lookup xs i = pure (xs.getD i default) := by
  refine lookup_eq_of_getElem? ?_
  rw [Array.getD_eq_getD_getElem?, Array.getElem?_eq_getElem h, Option.getD_some]

/-- Inside of an array, an entry is replaced. -/
theorem replace_eq {xs : Array α} {i : ℕ} (h : i < xs.size) (x : α) :
    replace xs i x = pure (xs.setIfInBounds i x) := if_pos h

/-- A range from the start on that ends inside meets no fault. -/
theorem slice_zero_eq {xs : List α} {stop : ℕ} (h : stop ≤ xs.length) :
    slice xs 0 stop = pure (xs.take stop) := if_pos ⟨Nat.zero_le _, h⟩

/-- Entries are written over what follows a list. -/
theorem overwrite_append (done : List α) {rest entries : List α}
    (h : entries.length ≤ rest.length) :
    overwrite (done ++ rest) done.length (done.length + entries.length) entries =
      pure (done ++ entries ++ rest.drop entries.length) := by
  have hinside : done.length ≤ done.length + entries.length ∧
      done.length + entries.length ≤ (done ++ rest).length ∧
      entries.length = done.length + entries.length - done.length := by
    rw [List.length_append]
    omega
  rw [overwrite, if_pos hinside, List.take_left, List.drop_length_add_append]

/-- Positions are counted without a fault if the one after the last fits. -/
theorem number_eq {n : UInt32} {xs : List α} (h : n.toNat + xs.length + 1 < 2^32) :
    number n xs = pure (((List.range' n.toNat xs.length).map UInt32.ofNat).zip xs) := by
  have hone : (1 : UInt32).toNat = 1 := rfl
  have hnext : (n + 1).toNat = n.toNat + 1 := by
    rw [UInt32.toNat_add, hone, Nat.mod_eq_of_lt (by omega)]
  induction xs generalizing n with
  | nil =>
    rw [number, add_eq hnext, pure_bind]
    rfl
  | cons x xs ih =>
    rw [List.length_cons] at h
    have hrest : (n + 1 + 1).toNat = (n + 1).toNat + 1 := by
      rw [UInt32.toNat_add, hone, Nat.mod_eq_of_lt (by omega)]
    rw [number, add_eq hnext, pure_bind, ih (by omega) hrest, pure_bind, hnext, List.length_cons,
      List.range'_succ, List.map_cons, List.zip_cons_cons, UInt32.ofNat_toNat]

/-- A checked loop over a state is the pure loop, if an invariant lets each step be pure. -/
theorem foldlM_eq_pure {step : β → α → Checked β} {f : β → α → β} {l : List α} (I : β → Prop)
    (hstep : ∀ b, I b → ∀ a ∈ l, step b a = pure (f b a) ∧ I (f b a)) {b : β} (hb : I b) :
    l.foldlM step b = pure (l.foldl f b) ∧ I (l.foldl f b) := by
  induction l generalizing b with
  | nil => exact ⟨rfl, hb⟩
  | cons a l ih =>
    obtain ⟨hpure, hnext⟩ := hstep b hb a List.mem_cons_self
    rw [List.foldlM_cons, hpure, pure_bind, List.foldl_cons]
    exact ih (fun b hb a ha => hstep b hb a (List.mem_cons_of_mem _ ha)) hnext

/-- A checked loop without a state gives a result for each entry, if each step does. -/
theorem exists_mapM_eq_pure {step : α → Checked β} {R : α → β → Prop} {l : List α}
    (hstep : ∀ a ∈ l, ∃ b, step a = pure b ∧ R a b) :
    ∃ bs, l.mapM step = pure bs ∧ List.Forall₂ R l bs := by
  induction l with
  | nil => exact ⟨[], rfl, .nil⟩
  | cons a l ih =>
    obtain ⟨b, hpure, hb⟩ := hstep a List.mem_cons_self
    obtain ⟨bs, hrest, hbs⟩ := ih fun a ha => hstep a (List.mem_cons_of_mem _ ha)
    refine ⟨b :: bs, ?_, .cons hb hbs⟩
    rw [List.mapM_cons, hpure, pure_bind, hrest, pure_bind]

end Checked

end SymmetricCrypto
