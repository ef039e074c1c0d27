/-!
# Byte strings

Data of variable length is a list of bytes; keys, nonces, blocks and tags have their length in the
type, as `Vector UInt8 n`. This module has the operations on byte strings that every cipher uses:
the bytewise sum (`Bytes.xor`), the comparison that looks at every byte (`Bytes.equal`), and the cut
into pieces of one length (`Bytes.pieces`). A vector whose length is a sum is cut where the first part
ends (`leading`, `trailing`).
-/

namespace SymmetricCrypto

/-- Data of any length. -/
abbrev Bytes := List UInt8

namespace Bytes

/-- The bytewise sum, as long as the shorter of the two. -/
def xor (a b : Bytes) : Bytes := List.zipWith (· ^^^ ·) a b

/-- The sum ends with the shorter string. -/
@[simp] theorem length_xor (a b : Bytes) : (xor a b).length = min a.length b.length := by
  simp [xor]

/-- Whether two byte strings are the same. Every pair of bytes is compared, wherever the first
difference lies. -/
def equal (a b : Bytes) : Bool :=
  a.length == b.length && (xor a b).foldr (· ||| ·) 0 == 0

/-- The comparison accepts equal byte strings and no others. -/
theorem equal_iff {a b : Bytes} : equal a b = true ↔ a = b := by
  induction a generalizing b with
  | nil => cases b <;> simp [equal, xor]
  | cons x a ih =>
    cases b with
    | nil => simp [equal, xor]
    | cons y b =>
      have := @ih b
      simp only [equal, xor, Bool.and_eq_true, beq_iff_eq] at this
      simp [equal, xor, ← this, and_left_comm]

/-- The pieces of `n` bytes that make up the data; the last one may be shorter. -/
def pieces (n : Nat) (data : Bytes) : List Bytes :=
  if _h : n = 0 ∨ data = [] then [] else data.take n :: pieces n (data.drop n)
termination_by data.length
decreasing_by
  have := List.length_pos_iff.mpr (fun hd => _h (Or.inr hd))
  simp only [List.length_drop]
  omega

/-- Nothing is lost in the cut. -/
theorem flatten_pieces {n : Nat} (hn : n ≠ 0) (data : Bytes) : (pieces n data).flatten = data := by
  fun_induction pieces n data with
  | case1 data h => simp [h.resolve_left hn]
  | case2 data h ih => rw [List.flatten_cons, ih, List.take_append_drop]

end Bytes

/-- Inside of a vector, no other value is read. -/
theorem getD_eq_getElem {α : Type} {n : Nat} (v : Vector α n) {i : Nat} (hi : i < n) (default : α) :
    v.getD i default = v[i] := by
  simp [Vector.getD, hi]

/-- The first `m` of `m + n` entries. -/
def leading {α : Type} (m n : Nat) (v : Vector α (m + n)) : Vector α m :=
  Vector.ofFn fun i => v.get (i.castAdd n)

/-- The last `n` of `m + n` entries. -/
def trailing {α : Type} (m n : Nat) (v : Vector α (m + n)) : Vector α n :=
  Vector.ofFn fun i => v.get (i.natAdd m)

/-- An entry before the cut stays at its place. -/
@[simp] theorem getElem_leading {α : Type} (m n : Nat) (v : Vector α (m + n)) (i : Nat)
    (hi : i < m) : (leading m n v)[i] = v[i] :=
  Vector.getElem_ofFn hi

/-- An entry behind the cut is counted from there. -/
@[simp] theorem getElem_trailing {α : Type} (m n : Nat) (v : Vector α (m + n)) (i : Nat)
    (hi : i < n) : (trailing m n v)[i] = v[m + i] :=
  Vector.getElem_ofFn hi

/-- The first part of a vector that is cut. -/
theorem toList_leading {α : Type} (m n : Nat) (v : Vector α (m + n)) :
    (leading m n v).toList = v.toList.take m := by
  refine List.ext_getElem (by simp) fun i hi _ => ?_
  rw [List.getElem_take, Vector.getElem_toList, Vector.getElem_toList,
    getElem_leading m n v i (by simpa using hi)]

/-- The last part of a vector that is cut. -/
theorem toList_trailing {α : Type} (m n : Nat) (v : Vector α (m + n)) :
    (trailing m n v).toList = v.toList.drop m := by
  refine List.ext_getElem (by simp) fun i hi _ => ?_
  rw [List.getElem_drop, Vector.getElem_toList, Vector.getElem_toList,
    getElem_trailing m n v i (by simpa using hi)]

end SymmetricCrypto
