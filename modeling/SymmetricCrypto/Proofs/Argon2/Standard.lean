import Mathlib
import SymmetricCrypto.Argon2.Derivation
import SymmetricCrypto.Proofs.Digest.Stretch

/-!
# Argon2 as RFC 9106 defines it

The definitions of section 3 of RFC 9106, for version `0x13`, on natural numbers and with every
index written out. Nothing here is meant to be fast, and no function is shared with the derivation:
the bytes of a block (`blockOf`, `bytesOf`), sums of blocks and rotations of words are defined here
once more, each by index. What both have in common is the type of a block, the parameters as they are
given, and BLAKE2b.

The matrix `B` is filled in place, block by block: pass after pass, slice after slice, lane after
lane, and column after column (`filled`). Each block is the mix `G` of the block before it, around
the lane, and of a reference block (`fillBlock`). The reference block is taken from an explicit list
`W` of columns, oldest first (`window`), by the two halves `J_1` and `J_2` of a word, which is the
first one of the block before or a word of an address block (`word`).
-/

namespace SymmetricCrypto.Argon2.Standard

/-! ## Blocks and their bytes -/

/-- The block of the first 1024 bytes. Word `i` is the number of the bytes from `8 i` to `8 i + 7`, the
least significant of them first. -/
def blockOf (data : Bytes) : Block :=
  Vector.ofFn fun i =>
    UInt64.ofNat (∑ j ∈ Finset.range 8, (data.getD (8 * i.val + j) 0).toNat * 256^j)

/-- The bytes of a block: byte `i` is byte `i % 8` of word `i / 8`. -/
def bytesOf (x : Block) : Bytes :=
  List.ofFn fun i : Fin (8 * 128) => UInt8.ofNat ((x.getD (i.val / 8) 0).toNat / 256^(i.val % 8))

/-- The block of zeros. -/
def zeros : Block := Vector.ofFn fun _ => 0

/-- `X XOR Y`, word by word. -/
def sum (x y : Block) : Block := Vector.ofFn fun i => x.get i ^^^ y.get i

/-! ## The mix of two blocks -/

/-- `x >>> n`: the bits that leave a word on the right come back on the left. -/
def rotate (x : UInt64) (n : Nat) : UInt64 :=
  UInt64.ofNat (x.toNat / 2^n + 2^(64 - n) * (x.toNat % 2^n))

/-- The sum of two words and of twice the product of their low halves. -/
def mulSum (a b : UInt64) : UInt64 :=
  UInt64.ofNat (a.toNat + b.toNat + 2 * (a.toNat % 2^32) * (b.toNat % 2^32))

/-- `GB` on the words at four places. -/
def quarter (v : Vector UInt64 16) (a b c d : Fin 16) : Vector UInt64 16 :=
  let v := v.set a (mulSum v[a] v[b])
  let v := v.set d (rotate (v[d] ^^^ v[a]) 32)
  let v := v.set c (mulSum v[c] v[d])
  let v := v.set b (rotate (v[b] ^^^ v[c]) 24)
  let v := v.set a (mulSum v[a] v[b])
  let v := v.set d (rotate (v[d] ^^^ v[a]) 16)
  let v := v.set c (mulSum v[c] v[d])
  v.set b (rotate (v[b] ^^^ v[c]) 63)

/-- `P`, on eight registers of two words each. -/
def permutation (v : Vector UInt64 16) : Vector UInt64 16 :=
  let v := quarter v 0 4 8 12
  let v := quarter v 1 5 9 13
  let v := quarter v 2 6 10 14
  let v := quarter v 3 7 11 15
  let v := quarter v 0 5 10 15
  let v := quarter v 1 6 11 12
  let v := quarter v 2 7 8 13
  quarter v 3 4 9 14

/-- `Q`: `P` on each row of registers. Register `i` is the words `2 i` and `2 i + 1`, and row `i` is
the registers `8 i` to `8 i + 7`. -/
def rowWise (r : Block) : Block :=
  Vector.ofFn fun w =>
    let row := w.val / 2 / 8
    let words := Vector.ofFn fun k : Fin 16 => r[2 * (8 * row + k.val / 2) + k.val % 2]
    (permutation words)[2 * (w.val / 2 % 8) + w.val % 2]

/-- `Z`: `P` on each column of registers. Column `i` is the registers `i`, `i + 8`, …, `i + 56`. -/
def columnWise (q : Block) : Block :=
  Vector.ofFn fun w =>
    let column := w.val / 2 % 8
    let words := Vector.ofFn fun k : Fin 16 => q[2 * (column + 8 * (k.val / 2)) + k.val % 2]
    (permutation words)[2 * (w.val / 2 / 8) + w.val % 2]

/-- `G`. -/
def compress (x y : Block) : Block :=
  let r := sum x y
  sum (columnWise (rowWise r)) r

/-! ## The reference block -/

/-- The columns of the last finished segments of a lane, oldest first: in the first pass all
segments before the current slice, and later the last three, those of the pass before first. -/
def finished (segment pass slice : Nat) : List Nat :=
  ((if pass = 0 then [] else List.range' (slice + 1) (3 - slice)) ++
    List.range slice).flatMap fun s =>
    List.range' (s * segment) segment

/-- `W`: the columns of the finished segments and, in the own lane, those of the current segment
before the new block. The last one is left out if it is that of the block before, or if the new
block is the first of its segment. -/
def window (segment pass slice index : Nat) (own : Bool) : List Nat :=
  let columns :=
    finished segment pass slice ++ if own then List.range' (slice * segment) index else []
  if own ∨ index = 0 then columns.dropLast else columns

/-- The column that `J_1` picks from a list of columns. -/
def pick (columns : List Nat) (choice : Nat) : Nat :=
  let x := choice^2 / 2^32
  let y := columns.length * x / 2^32
  columns.getD (columns.length - 1 - y) 0

/-! ## The matrix -/

/-- The numbers that the filling depends on. -/
structure Setting where
  /-- `p`. -/
  lanes : Nat
  /-- `m'`. -/
  blocks : Nat
  /-- `t`. -/
  passes : Nat
  /-- `y`. -/
  variant : Variant

/-- The number `y` of a variant. -/
def typeNumber : Variant → Nat
  | .argon2d => 0
  | .argon2i => 1
  | .argon2id => 2

/-- A block of the matrix at the time when it is filled: `index` counts the blocks of the segment.
-/
@[ext]
structure Place where
  /-- The passes that are complete. -/
  pass : Nat
  /-- The slice. -/
  slice : Nat
  /-- The lane. -/
  lane : Nat
  /-- The place in the segment. -/
  index : Nat

/-- The blocks by lane and column. -/
structure Matrix where
  /-- The block in a lane and a column. -/
  block : Nat → Nat → Block

/-- `B[lane][column]`. -/
instance : CoeFun Matrix fun _ => Nat → Nat → Block := ⟨Matrix.block⟩

/-- `B[lane][column] := block`. -/
def Matrix.put (B : Matrix) (lane column : Nat) (block : Block) : Matrix :=
  ⟨fun l j => if l = lane ∧ j = column then block else B l j⟩

namespace Setting

/-- The memory is rounded down to a whole number of blocks for each segment. -/
def ofParams (p : Params) : Setting where
  lanes := p.lanes.toNat
  blocks := 4 * p.lanes.toNat * (p.memory.toNat / (4 * p.lanes.toNat))
  passes := p.passes.toNat
  variant := p.variant

/-- `q`. -/
def columns (s : Setting) : Nat := s.blocks / s.lanes

/-- The number of columns of a slice. -/
def segment (s : Setting) : Nat := s.columns / 4

/-- The column of a block. -/
def column (s : Setting) (a : Place) : Nat := a.slice * s.segment + a.index

/-- The block before a block; before the first one of a lane is the last one. -/
def previous (s : Setting) (B : Matrix) (a : Place) : Block :=
  B a.lane (if s.column a = 0 then s.columns - 1 else s.column a - 1)

/-- Whether the choices of a segment come from address blocks. -/
def addressed (s : Setting) (pass slice : Nat) : Bool :=
  match s.variant with
  | .argon2d => false
  | .argon2i => true
  | .argon2id => pass = 0 ∧ slice < 2

/-- The `k`-th address block of a segment. -/
def addressBlock (s : Setting) (pass lane slice k : Nat) : Block :=
  let input : Block := Vector.ofFn fun i => UInt64.ofNat <|
    [pass, lane, slice, s.blocks, s.passes, typeNumber s.variant, k].getD i.val 0
  compress zeros (compress zeros input)

/-- The word that a block takes from the address blocks of its segment. -/
def addressWord (s : Setting) (a : Place) : UInt64 :=
  (s.addressBlock a.pass a.lane a.slice (a.index / 128 + 1)).getD (a.index % 128) 0

/-- The word whose low half is `J_1` and whose high half is `J_2`. -/
def word (s : Setting) (B : Matrix) (a : Place) : UInt64 :=
  if s.addressed a.pass a.slice then s.addressWord a else (s.previous B a)[0]

/-- The lane `l` and the column `z` of the reference block. -/
def reference (s : Setting) (a : Place) (word : UInt64) : Nat × Nat :=
  let lane := if a.pass = 0 ∧ a.slice = 0 then a.lane else word.toNat / 2^32 % s.lanes
  (lane, pick (window s.segment a.pass a.slice a.index (lane = a.lane)) (word.toNat % 2^32))

/-- The block that is written: `G` of the block before and of the reference block, added to what the
block was from the second pass on. -/
def newBlock (s : Setting) (B : Matrix) (a : Place) : Block :=
  let (lane, column) := s.reference a (s.word B a)
  let mixed := compress (s.previous B a) (B lane column)
  if a.pass = 0 then mixed else sum (B a.lane (s.column a)) mixed

/-- The matrix with a block filled. -/
def fillBlock (s : Setting) (B : Matrix) (a : Place) : Matrix :=
  B.put a.lane (s.column a) (s.newBlock B a)

/-- The first block of a segment that is filled: the first two of each lane are given. -/
def first (pass slice : Nat) : Nat := if pass = 0 ∧ slice = 0 then 2 else 0

/-- The blocks of a slice, lane after lane. -/
def slicePlaces (s : Setting) (pass slice : Nat) : List Place :=
  (List.range s.lanes).flatMap fun lane =>
    (List.range' (first pass slice) (s.segment - first pass slice)).map fun index =>
      ⟨pass, slice, lane, index⟩

/-- The matrix after a slice. -/
def sliceFilled (s : Setting) (pass : Nat) (B : Matrix) (slice : Nat) : Matrix :=
  (s.slicePlaces pass slice).foldl s.fillBlock B

/-- The matrix after a pass. -/
def passFilled (s : Setting) (B : Matrix) (pass : Nat) : Matrix :=
  (List.range 4).foldl (s.sliceFilled pass) B

/-- The matrix after all passes. -/
def filled (s : Setting) (B : Matrix) : Matrix := (List.range s.passes).foldl s.passFilled B

/-- The sum of the last column. -/
def lastColumn (s : Setting) (B : Matrix) : Block :=
  (List.range s.lanes).foldl (fun total lane => sum total (B lane (s.columns - 1))) zeros

end Setting

/-! ## The tag -/

open Stretch.Standard

/-- A byte string after its length. -/
def lengthPrefixed (data : Bytes) : Bytes := le32 data.length ++ data

/-- The input of `H_0`. A secret or associated data that are not given are empty. -/
def initialBytes (p : Params) (password salt : Bytes) : Bytes :=
  le32 p.lanes.toNat ++ le32 p.tagLength ++ le32 p.memory.toNat ++ le32 p.passes.toNat ++
    le32 0x13 ++ le32 (typeNumber p.variant) ++ lengthPrefixed password ++ lengthPrefixed salt ++
    lengthPrefixed (p.secret.getD []) ++ lengthPrefixed (p.associated.getD [])

/-- The matrix before the first pass. The blocks that are not given are not read before they are
filled. -/
def initialMatrix (h : Bytes) : Matrix where
  block lane column :=
    if column < 2 then blockOf (stretch 1024 (h ++ le32 column ++ le32 lane)) else zeros

/-- The tag of a password and a salt. -/
def tag (p : Params) (password salt : Bytes) : Bytes :=
  let s := Setting.ofParams p
  let B := s.filled (initialMatrix (hash 64 (initialBytes p password salt)))
  stretch p.tagLength (bytesOf (s.lastColumn B))

end SymmetricCrypto.Argon2.Standard
