import SymmetricCrypto.Bytes.Basic
import SymmetricCrypto.Error

/-!
# Argon2 parameters

The parameters of the password hash of RFC 9106, their presets and their ranges. `Params.fault?` is the
first bound that the parameters break. A `Hasher` holds parameters that break none.
-/

namespace SymmetricCrypto.Argon2

/-- How the blocks to mix in are chosen. -/
inductive Variant
  /-- By the memory itself, throughout. -/
  | argon2d
  /-- By the position alone, throughout. -/
  | argon2i
  /-- By the position in the first half of the first pass, and then by the memory. -/
  | argon2id
  deriving DecidableEq

namespace Variant

/-- The number of the variant, which goes into every derivation. -/
def id : Variant → UInt32
  | argon2d => 0
  | argon2i => 1
  | argon2id => 2

/-- The name of the variant. -/
def text : Variant → String
  | argon2d => "Argon2d"
  | argon2i => "Argon2i"
  | argon2id => "Argon2id"

end Variant

/-- The most lanes. -/
def maxLanes : UInt32 := 0xffffff

/-- The shortest tag. -/
def minTagLength : Nat := 4

/-- The longest tag. -/
def maxTagLength : Nat := 1024

/-- The shortest salt. -/
def minSaltLength : Nat := 8

/-- What a derivation depends on beside the password and the salt. -/
structure Params where
  /-- The memory in blocks of one KiB. -/
  memory : UInt32
  /-- The number of passes over the memory. -/
  passes : UInt32
  /-- The number of lanes of the memory. -/
  lanes : UInt32
  /-- The number of bytes to derive. -/
  tagLength : Nat
  /-- A secret that the tag depends on too. -/
  secret : Option Bytes
  /-- Public data that the tag depends on too. -/
  associated : Option Bytes
  /-- The way in which references are chosen. -/
  variant : Variant
  deriving DecidableEq

namespace Params

/-- 64 MiB, three passes and four lanes: for logins that wait for the answer. -/
def interactive : Params where
  memory := 64 * 1024
  passes := 3
  lanes := 4
  tagLength := 32
  secret := none
  associated := none
  variant := .argon2id

/-- Half the memory and half the lanes of `interactive`. -/
def moderate : Params := { interactive with memory := 32 * 1024, lanes := 2 }

/-- 256 MiB and four passes: for secrets that are worth the wait. -/
def sensitive : Params := { interactive with memory := 256 * 1024, passes := 4 }

/-- Where nothing else is asked for, the parameters are those of `interactive`. -/
instance : Inhabited Params := ⟨interactive⟩

/-- The bytes of the secret; without one there are none. -/
def secretBytes (p : Params) : Bytes := p.secret.getD []

/-- The bytes of the associated data; without it there are none. -/
def associatedBytes (p : Params) : Bytes := p.associated.getD []

/-- The first bound that the parameters break. -/
def fault? (p : Params) : Option Parameter :=
  if p.lanes < 1 ∨ maxLanes < p.lanes then some .laneCount
  else if p.passes < 1 then some .passCount
  else if p.memory.toNat < 8 * p.lanes.toNat then some .memoryPerLane
  else if p.tagLength < minTagLength ∨ maxTagLength < p.tagLength then some .tagLength
  else if UInt32.size ≤ p.secretBytes.length ∨ UInt32.size ≤ p.associatedBytes.length then
    some .longSecret
  else none

/-- The parameters break no bound exactly if they are in all ranges. -/
theorem fault?_eq_none_iff (p : Params) :
    p.fault? = none ↔
      (1 ≤ p.lanes ∧ p.lanes ≤ maxLanes) ∧ 1 ≤ p.passes ∧ 8 * p.lanes.toNat ≤ p.memory.toNat ∧
        (minTagLength ≤ p.tagLength ∧ p.tagLength ≤ maxTagLength) ∧
        p.secretBytes.length < UInt32.size ∧ p.associatedBytes.length < UInt32.size := by
  unfold fault?
  split
  · grind
  split
  · grind
  split
  · grind
  split <;> grind

/-- A text for logs, which shows no byte of the secret or of the associated data. -/
def redacted (p : Params) : String :=
  let secret := if p.secret.isSome then "Some(\"<redacted>\")" else "None"
  let associated :=
    match p.associated with
    | some data => "Some(" ++ toString data.length ++ ")"
    | none => "None"
  "Argon2Params \x7b memory_kib: " ++ toString p.memory.toNat ++
    ", iterations: " ++ toString p.passes.toNat ++
    ", parallelism: " ++ toString p.lanes.toNat ++
    ", tag_length: " ++ toString p.tagLength ++
    ", secret: " ++ secret ++
    ", associated_data_len: " ++ associated ++
    ", variant: " ++ p.variant.text ++ " \x7d"

end Params

/-- Parameters that break no bound. -/
structure Hasher where
  /-- The parameters. -/
  params : Params
  /-- They have passed their check. -/
  sound : params.fault? = none

namespace Hasher

/-- The hasher of parameters, or the bound that they break. -/
def ofParams (p : Params) : Except Error Hasher :=
  match h : p.fault? with
  | none => .ok ⟨p, h⟩
  | some cause => .error (.invalidParameter cause)

/-- A text for logs. -/
def redacted (a : Hasher) : String := "Argon2 \x7b params: " ++ a.params.redacted ++ " \x7d"

end Hasher

end SymmetricCrypto.Argon2
