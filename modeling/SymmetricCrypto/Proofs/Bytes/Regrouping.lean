import Mathlib
import SymmetricCrypto.Bytes.Chunker

/-!
# What a chunker makes of a stream

Whatever the pieces in which a byte stream arrives, the consumer gets the blocks of `n` bytes that
lie whole in it, and what stays pending is the rest after them. `blocks` and `remainder` are these
two for a stream as a whole. They do not depend on a cut: the blocks of a longer stream are those of
its first part and those of the rest that goes on (`blocks_append`, `remainder_append`), and each block
is read off the data by its position (`blocks_eq_map_range`). `absorb_eq` and `feed_eq` read one call of
the chunker off the pending bytes and the new data together. A consumer may keep a record in its state,
or in its refusal: to forget the record after the call is the same as never to keep it (`absorb_map`).

`Bytes.pieces` is the same cut with the rest as a last, shorter piece (`pieces_eq_blocks`,
`pieces_eq_map_range`).
-/

namespace SymmetricCrypto

namespace Chunker

variable {n : Nat} {σ ε : Type}

/-- The blocks of `n` bytes that lie whole in the data. -/
def blocks (n : Nat) (data : Bytes) : List (Vector UInt8 n) :=
  if h : 0 < n ∧ (data.take n).length = n then
    ⟨(data.take n).toArray, h.2⟩ :: blocks n (data.drop n)
  else []
termination_by data.length
decreasing_by
  simp only [List.length_take] at h
  simp only [List.length_drop]
  omega

/-- What follows the whole blocks of the data. -/
def remainder (n : Nat) (data : Bytes) : Bytes := data.drop (n * (data.length / n))

/-- Less than a block is all remainder. -/
theorem remainder_of_lt {data : Bytes} (h : data.length < n) : remainder n data = data := by
  rw [remainder, Nat.div_eq_of_lt h, Nat.mul_zero, List.drop_zero]

/-- A block that is taken off leaves the remainder. -/
theorem remainder_drop (hn : 0 < n) {data : Bytes} (h : n ≤ data.length) :
    remainder n (data.drop n) = remainder n data := by
  have hdiv : data.length / n = (data.length - n) / n + 1 := Nat.div_eq_sub_div hn h
  rw [remainder, remainder, List.length_drop, List.drop_drop, hdiv, Nat.mul_succ, Nat.add_comm n]

/-- The remainder has the length modulo the block length. -/
theorem length_remainder (data : Bytes) : (remainder n data).length = data.length % n := by
  rw [remainder, List.length_drop, Nat.mod_eq_sub_mul_div]

/-- Data that is too short for a block has none. -/
theorem blocks_of_lt {data : Bytes} (h : data.length < n) : blocks n data = [] := by
  rw [blocks, dif_neg]
  rw [List.length_take]
  omega

/-- A block at the start of the data is the first one. -/
theorem blocks_append_left (hn : 0 < n) (block : Vector UInt8 n) (data : Bytes) :
    blocks n (block.toList ++ data) = block :: blocks n data := by
  have hlength : block.toList.length = n := Vector.length_toList
  have htake : (block.toList ++ data).take n = block.toList := List.take_left' hlength
  rw [blocks, dif_pos ⟨hn, by rw [htake, hlength]⟩, List.drop_left' hlength]
  congr 1
  apply Vector.toList_inj.mp
  exact htake

/-- Data is its blocks and the rest. -/
theorem flatten_blocks_append_remainder (hn : 0 < n) (data : Bytes) :
    ((blocks n data).map Vector.toList).flatten ++ remainder n data = data := by
  fun_induction blocks n data with
  | case1 data h ih =>
    have hlong : n ≤ data.length := by
      have := h.2
      rw [List.length_take] at this
      omega
    rw [List.map_cons, List.flatten_cons, List.append_assoc, ← remainder_drop hn hlong, ih]
    exact List.take_append_drop n data
  | case2 data h =>
    have hshort : data.length < n := by
      rw [List.length_take] at h
      omega
    exact remainder_of_lt hshort

/-- The blocks of two parts are those of the first part and those of its rest with the second. -/
theorem blocks_append (hn : 0 < n) (a b : Bytes) :
    blocks n (a ++ b) = blocks n a ++ blocks n (remainder n a ++ b) := by
  conv_lhs => rw [← flatten_blocks_append_remainder hn a]
  generalize remainder n a = rest
  induction blocks n a with
  | nil => rfl
  | cons block rest' ih =>
    rw [List.map_cons, List.flatten_cons, List.append_assoc, List.append_assoc,
      blocks_append_left hn, ← List.append_assoc, ih, List.cons_append]

/-- Blocks that are put together are the blocks of the whole. -/
theorem blocks_flatten (hn : 0 < n) (bs : List (Vector UInt8 n)) :
    blocks n (bs.map Vector.toList).flatten = bs := by
  induction bs with
  | nil => exact blocks_of_lt hn
  | cons b bs ih => rw [List.map_cons, List.flatten_cons, blocks_append_left hn, ih]

/-- The rest of two parts is that of the rest of the first part with the second. -/
theorem remainder_append (hn : 0 < n) (a b : Bytes) :
    remainder n (remainder n a ++ b) = remainder n (a ++ b) := by
  have hdrop : remainder n a ++ b = (a ++ b).drop (n * (a.length / n)) := by
    rw [remainder, List.drop_append_of_le_length (Nat.mul_div_le _ _)]
  have hlength : (a ++ b).length / n = (remainder n a ++ b).length / n + a.length / n := by
    rw [List.length_append, List.length_append, length_remainder,
      ← Nat.add_mul_div_left _ _ hn]
    congr 1
    have := Nat.mod_add_div a.length n
    omega
  calc remainder n (remainder n a ++ b)
      = (remainder n a ++ b).drop (n * ((remainder n a ++ b).length / n)) := rfl
    _ = ((a ++ b).drop (n * (a.length / n))).drop (n * ((remainder n a ++ b).length / n)) :=
        congrArg (List.drop _) hdrop
    _ = remainder n (a ++ b) := by
        rw [List.drop_drop, ← Nat.mul_add, Nat.add_comm (a.length / n), ← hlength, remainder]

/-- The blocks of the data, each by its position. -/
theorem blocks_eq_map_range (hn : 0 < n) (data : Bytes) :
    blocks n data = (List.range (data.length / n)).map fun i =>
      Vector.ofFn fun j : Fin n => data.getD (n * i + j.val) 0 := by
  fun_induction blocks n data with
  | case1 data h ih =>
    have hlong : n ≤ data.length := by
      have := h.2
      rw [List.length_take] at this
      omega
    rw [ih, Nat.div_eq_sub_div hn hlong, List.range_succ_eq_map, List.map_cons, List.map_map,
      List.length_drop]
    congr 1
    · -- The first block is the start of the data.
      apply Vector.ext
      intro j hj
      simp [show j < data.length by omega]
    · -- The other blocks are those of the rest, one number later.
      apply List.map_congr_left
      intro i _
      apply Vector.ext
      intro j hj
      have hplace : n + (n * i + j) = n * (i + 1) + j := by
        rw [Nat.mul_succ]
        omega
      simp [List.getD_eq_getElem?_getD, hplace]
  | case2 data h =>
    have hshort : data.length < n := by
      rw [List.length_take] at h
      omega
    rw [Nat.div_eq_of_lt hshort]
    rfl

/-! ## The calls of the chunker -/

/-- A chunker is what is pending in it. -/
theorem ext_pending {c d : Chunker n} (h : c.pending = d.pending) : c = d := by
  cases c
  cases d
  congr

/-- With nothing pending, the consumer gets the blocks of the data until it refuses one. -/
theorem fst_deliver (consume : σ → Vector UInt8 n → Except ε σ) (s : σ) (data : Bytes) :
    (deliver consume s data).1 = (blocks n data).foldlM consume s := by
  fun_induction deliver consume s data with
  | case1 s data h e hrefused =>
    rw [blocks, dif_pos h, List.foldlM_cons, hrefused]
    rfl
  | case2 s data h t haccepted ih =>
    rw [blocks, dif_pos h, List.foldlM_cons, haccepted, ih]
    rfl
  | case3 s data h =>
    rw [blocks, dif_neg h]
    rfl

/-- If no block is refused, the rest is pending. -/
theorem pending_deliver (hn : 0 < n) (consume : σ → Vector UInt8 n → Except ε σ) (s : σ)
    (data : Bytes) {t : σ} (h : (blocks n data).foldlM consume s = .ok t) :
    (deliver consume s data).2.pending = remainder n data := by
  rw [← fst_deliver] at h
  fun_induction deliver consume s data with
  | case1 s data hlong e hrefused => cases h
  | case2 s data hlong t haccepted ih =>
    have hle : n ≤ data.length := by
      have := hlong.2
      rw [List.length_take] at this
      omega
    rw [ih h, remainder_drop hn hle]
  | case3 s data hshort =>
    have hlt : data.length < n := by
      rw [List.length_take] at hshort
      omega
    rw [remainder_of_lt hlt]
    exact List.take_of_length_le (Nat.le_of_lt hlt)

/-- A call that completes the pending bytes to a block hands this block over and delivers the rest
of its data; a refused block stays. -/
theorem absorb_of_le {c : Chunker n} (hc : c.pending ≠ [])
    (consume : σ → Vector UInt8 n → Except ε σ) (s : σ) (data : Bytes)
    (block : Vector UInt8 n) (rest : Bytes) (hblock : c.pending ++ data = block.toList ++ rest) :
    absorb consume s c data =
      match consume s block with
      | .error e => (.error e, ⟨block.toList, by simp⟩)
      | .ok t => deliver consume t rest := by
  have hlength : block.toList.length = n := Vector.length_toList
  have hle := c.length_le
  -- The pending bytes and the start of the data are the block.
  have hstarted : c.pending ++ data.take (n - c.pending.length) = block.toList := by
    have htake := congrArg (List.take n) hblock
    rwa [List.take_left' hlength, List.take_append, List.take_of_length_le hle] at htake
  -- What the block leaves of the data is the rest.
  have hrest : data.drop (n - c.pending.length) = rest := by
    have hdrop := congrArg (List.drop n) hblock
    rwa [List.drop_left' hlength, List.drop_append, List.drop_of_length_le hle,
      List.nil_append] at hdrop
  unfold absorb
  rw [if_neg hc]
  dsimp only
  rw [dif_neg (by rw [hstarted, hlength]; exact Nat.lt_irrefl n)]
  have hvector : ∀ h, (⟨(c.pending ++ data.take (n - c.pending.length)).toArray, h⟩ :
      Vector UInt8 n) = block := fun _ => Vector.toList_inj.mp hstarted
  rw [hvector, hrest]
  cases consume s block with
  | error e => simp only [hstarted]
  | ok t => rfl

/-- A call whose data does not complete the pending bytes to a block only keeps it. -/
theorem absorb_of_lt {c : Chunker n} (hc : c.pending ≠ [])
    (consume : σ → Vector UInt8 n → Except ε σ) (s : σ) (data : Bytes)
    (hshort : (c.pending ++ data).length < n) :
    absorb consume s c data = (.ok s, ⟨c.pending ++ data, Nat.le_of_lt hshort⟩) := by
  have hdata : data.take (n - c.pending.length) = data := by
    apply List.take_of_length_le
    rw [List.length_append] at hshort
    omega
  unfold absorb
  rw [if_neg hc]
  dsimp only
  simp only [hdata]
  rw [dif_pos hshort]

/-- One call hands the blocks of the pending bytes and the data to the consumer, until it refuses
one; if it refuses none, the rest is pending. -/
theorem absorb_eq (hn : 0 < n) (consume : σ → Vector UInt8 n → Except ε σ) (s : σ)
    (c : Chunker n) (data : Bytes) :
    (absorb consume s c data).1 = (blocks n (c.pending ++ data)).foldlM consume s ∧
    ∀ t, (absorb consume s c data).1 = .ok t →
      (absorb consume s c data).2.pending = remainder n (c.pending ++ data) := by
  rcases eq_or_ne c.pending [] with hc | hc
  · -- Nothing is pending.
    have habsorb : absorb consume s c data = deliver consume s data := by
      rw [absorb, if_pos hc]
    rw [habsorb, hc, List.nil_append]
    refine ⟨fst_deliver consume s data, fun t ht => ?_⟩
    exact pending_deliver hn consume s data (fst_deliver consume s data ▸ ht)
  rcases lt_or_ge (c.pending ++ data).length n with hshort | hlong
  · -- The pending bytes do not come to a block.
    rw [absorb_of_lt hc consume s data hshort, blocks_of_lt hshort, remainder_of_lt hshort]
    exact ⟨rfl, fun _ _ => rfl⟩
  · -- The pending bytes are completed to the first block.
    obtain ⟨block, rest, hblock⟩ :
        ∃ (block : Vector UInt8 n) (rest : Bytes), c.pending ++ data = block.toList ++ rest :=
      ⟨⟨((c.pending ++ data).take n).toArray, by simpa using hlong⟩, (c.pending ++ data).drop n,
        (List.take_append_drop n _).symm⟩
    rw [absorb_of_le hc consume s data block rest hblock, hblock, blocks_append_left hn,
      List.foldlM_cons]
    have hremainder : remainder n (block.toList ++ rest) = remainder n rest := by
      rw [← remainder_drop hn (by simp), List.drop_left' Vector.length_toList]
    rw [hremainder]
    cases consume s block with
    | error e => exact ⟨rfl, fun t ht => by cases ht⟩
    | ok t =>
      refine ⟨fst_deliver consume t rest, fun u hu => ?_⟩
      exact pending_deliver hn consume t rest (fst_deliver consume t rest ▸ hu)

/-- A consumer that cannot refuse gets the blocks of the pending bytes and the data, and the rest is
pending. -/
theorem feed_eq (hn : 0 < n) (consume : σ → Vector UInt8 n → σ) (s : σ) (c : Chunker n)
    (data : Bytes) :
    (feed consume s c data).1 = (blocks n (c.pending ++ data)).foldl consume s ∧
    (feed consume s c data).2.pending = remainder n (c.pending ++ data) := by
  obtain ⟨hstate, hpending⟩ :=
    absorb_eq hn (fun s b => (.ok (consume s b) : Except Empty σ)) s c data
  have hfold : ∀ (l : List (Vector UInt8 n)) (s : σ),
      l.foldlM (fun s b => (.ok (consume s b) : Except Empty σ)) s = .ok (l.foldl consume s) := by
    intro l s
    exact List.foldlM_pure
  rw [hfold] at hstate
  unfold feed
  generalize absorb (fun s b => (.ok (consume s b) : Except Empty σ)) s c data = result at *
  obtain ⟨_ | t, c'⟩ := result
  · contradiction
  · exact ⟨Except.ok.inj hstate, hpending t rfl⟩

/-! ## Consumers with more in their state -/

/-- Delivery is the same for a consumer with more in its state, but for what is forgotten of it. -/
theorem deliver_map {σ' ε' : Type} {f : σ' → σ} {g : ε' → ε}
    {consume' : σ' → Vector UInt8 n → Except ε' σ'} {consume : σ → Vector UInt8 n → Except ε σ}
    (h : ∀ s b, consume (f s) b = ((consume' s b).map f).mapError g) (s : σ') (data : Bytes) :
    deliver consume (f s) data =
      Prod.map (fun r => (r.map f).mapError g) id (deliver consume' s data) := by
  fun_induction deliver consume' s data with
  | case1 s data hlong e hrefused =>
    rw [deliver, dif_pos hlong, h, hrefused]
    rfl
  | case2 s data hlong t haccepted ih =>
    rw [deliver, dif_pos hlong, h, haccepted]
    exact ih
  | case3 s data hshort =>
    rw [deliver, dif_neg hshort]
    rfl

/-- A call is the same for a consumer with more in its state, but for what is forgotten of it. -/
theorem absorb_map {σ' ε' : Type} {f : σ' → σ} {g : ε' → ε}
    {consume' : σ' → Vector UInt8 n → Except ε' σ'} {consume : σ → Vector UInt8 n → Except ε σ}
    (h : ∀ s b, consume (f s) b = ((consume' s b).map f).mapError g) (s : σ') (c : Chunker n)
    (data : Bytes) :
    absorb consume (f s) c data =
      Prod.map (fun r => (r.map f).mapError g) id (absorb consume' s c data) := by
  unfold absorb
  split_ifs with hempty
  · exact deliver_map h s data
  · dsimp only
    split_ifs with hshort
    · rfl
    · rw [h]
      generalize consume' s _ = result
      cases result with
      | error e => rfl
      | ok t => exact deliver_map h t _

end Chunker

/-! ## The pieces of a byte string -/

namespace Bytes

open Chunker (blocks remainder)

variable {n : Nat}

/-- The pieces of a byte string are its blocks and, unless it is empty, the rest. -/
theorem pieces_eq_blocks (hn : 0 < n) (data : Bytes) :
    pieces n data = (blocks n data).map Vector.toList ++
      if remainder n data = [] then [] else [remainder n data] := by
  fun_induction pieces n data with
  | case1 data h =>
    obtain rfl := h.resolve_left hn.ne'
    simp [Chunker.blocks_of_lt, Chunker.remainder_of_lt, hn]
  | case2 data h ih =>
    rcases lt_or_ge data.length n with hshort | hlong
    · have hempty : data.drop n = [] := List.drop_of_length_le hshort.le
      have hdata : data ≠ [] := fun hdata => h (Or.inr hdata)
      rw [hempty, pieces, dif_pos (Or.inr rfl), Chunker.blocks_of_lt hshort,
        Chunker.remainder_of_lt hshort, if_neg hdata, List.take_of_length_le hshort.le]
      rfl
    · have hblock : blocks n data =
          ⟨(data.take n).toArray, by simpa using hlong⟩ :: blocks n (data.drop n) := by
        rw [blocks, dif_pos ⟨hn, by simpa using hlong⟩]
      rw [ih, Chunker.remainder_drop hn hlong, hblock, List.map_cons, List.cons_append]
      rfl

/-- The pieces of a byte string, each by its position. -/
theorem pieces_eq_map_range (hn : 0 < n) (data : Bytes) :
    pieces n data = (List.range ((data.length + (n - 1)) / n)).map fun i =>
      (data.drop (n * i)).take n := by
  fun_induction pieces n data with
  | case1 data h =>
    obtain rfl := h.resolve_left hn.ne'
    have hnone : (0 + (n - 1)) / n = 0 := Nat.div_eq_of_lt (by omega)
    rw [List.length_nil, hnone]
    rfl
  | case2 data h ih =>
    have hdata : 0 < data.length := List.length_pos_iff.mpr fun hdata => h (Or.inr hdata)
    -- One piece fewer is left, whether the first one is complete or not.
    have hcount : (data.length + (n - 1)) / n = (data.length - n + (n - 1)) / n + 1 := by
      rcases Nat.le_total n data.length with hlong | hshort
      · rw [← Nat.add_div_right _ hn]
        congr 1
        omega
      · have hone : data.length + (n - 1) = data.length - 1 + n := by omega
        rw [Nat.sub_eq_zero_of_le hshort, hone, Nat.add_div_right _ hn,
          Nat.div_eq_of_lt (by omega), Nat.div_eq_of_lt (by omega)]
    rw [ih, hcount, List.range_succ_eq_map, List.map_cons, List.map_map, List.length_drop,
      Nat.mul_zero, List.drop_zero]
    congr 1
    apply List.map_congr_left
    intro i _
    show ((data.drop n).drop (n * i)).take n = (data.drop (n * (i + 1))).take n
    rw [List.drop_drop, Nat.mul_succ, Nat.add_comm n]

end Bytes

end SymmetricCrypto
