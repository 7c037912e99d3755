import Rearrange.Proofs.Rearranging
/-!
# Reading arrays one position at a time

A position of an array is one coordinate per axis, each within its dimension
(`IsPosition`). `Tensor.get` finds the stored value of a position by Horner's rule over the
coordinates, in 64-bit words; over a sound array no step wraps, so reading a position gives the
value stored at its row-major number (`Tensor.get_of_position`).

Read this way, a transposition by a permutation of the axes moves every value: the value at
position `J` of the result is the source's at the position `I` with `I[perm[a]] = J[a]`
(`transpose_reads`).
-/
namespace Rearrange

open Word

/-- A position within dimensions: one coordinate per axis, each in `[0, d)`. -/
def IsPosition (dims idx : List Int) : Prop := List.Forall₂ (fun i d => 0 ≤ i ∧ i < d) idx dims

section Positions

variable {dims idx : List Int}

theorem IsPosition.length_eq (h : IsPosition dims idx) : idx.length = dims.length :=
  List.Forall₂.length_eq h

theorem IsPosition.toNat (h : IsPosition dims idx) :
    (∀ i ∈ idx, 0 ≤ i) ∧ InBounds (dims.map Int.toNat) (idx.map Int.toNat) := by
  induction h with
  | nil => exact ⟨by simp, .nil⟩
  | @cons i d is ds here _ ih =>
    refine ⟨List.forall_mem_cons.2 ⟨here.1, ih.1⟩, .cons ?_ ih.2⟩
    omega

theorem isPosition_of_toNat (nonneg : ∀ i ∈ idx, 0 ≤ i)
    (bounds : InBounds (dims.map Int.toNat) (idx.map Int.toNat)) : IsPosition dims idx := by
  induction idx generalizing dims with
  | nil =>
    cases dims with
    | nil => exact .nil
    | cons d ds => cases bounds
  | cons i is ih =>
    cases dims with
    | nil => cases bounds
    | cons d ds =>
      obtain ⟨lt, rest⟩ := List.forall₂_cons.1 bounds
      have zero := nonneg i (by simp)
      exact .cons ⟨zero, by omega⟩ (ih (fun j mem => nonneg j (by simp [mem])) rest)

end Positions

theorem InBounds.prod_pos {dims idx : List Nat} (h : InBounds dims idx) : 0 < dims.prod :=
  Nat.lt_of_le_of_lt (Nat.zero_le _) (rowNumber_lt h)

/-- Horner's rule over the coordinates of a position, in 64-bit words, from an offset `acc`:
when `acc + 1` times the number of positions fits a word, no step wraps. -/
theorem foldl_offset {f : Int → Int × Int → Int} (step : ∀ off i d, f off (i, d) = wrapInt64 (off * d + i))
    {dims idx : List Nat} (h : InBounds dims idx) (acc : Nat)
    (fits : (((acc + 1) * dims.prod : Nat) : Int) ≤ maxInt64 + 1) :
    ((idx.map Int.ofNat).zip (dims.map Int.ofNat)).foldl f (acc : Int) =
      ((acc * dims.prod + rowNumber dims idx : Nat) : Int) := by
  induction h generalizing acc with
  | nil => simp [rowNumber]
  | @cons i d is ds lt rest ih =>
    rw [List.prod_cons] at fits
    have next : acc * d + i + 1 ≤ (acc + 1) * d := by rw [Nat.succ_mul]; omega
    have nextFits : (((acc * d + i + 1) * ds.prod : Nat) : Int) ≤ maxInt64 + 1 := by
      refine le_trans (Int.ofNat_le.2 ?_) fits
      calc (acc * d + i + 1) * ds.prod ≤ (acc + 1) * d * ds.prod := Nat.mul_le_mul_right _ next
        _ = (acc + 1) * (d * ds.prod) := Nat.mul_assoc _ _ _
    have noWrap : wrapInt64 ((acc : Int) * Int.ofNat d + Int.ofNat i) = ((acc * d + i : Nat) : Int) := by
      have small : acc * d + i + 1 ≤ (acc * d + i + 1) * ds.prod :=
        Nat.le_mul_of_pos_right _ (InBounds.prod_pos rest)
      have : ((acc * d + i : Nat) : Int) ≤ maxInt64 := by omega
      simpa using wrapInt64_of_le (Int.natCast_nonneg _) this
    have horner : (acc * d + i) * ds.prod + rowNumber ds is =
        acc * (d * ds.prod) + (i * ds.prod + rowNumber ds is) := by ring
    simp only [List.map_cons, List.zip_cons_cons, List.foldl_cons, step]
    rw [noWrap, ih (acc * d + i) nextFits, rowNumber_cons, List.prod_cons, horner]

namespace Tensor

variable {t : Tensor}

/-- Reading a sound array at a position gives the value stored at the position's row-major
number. -/
theorem get_of_position (sound : t.Sound) {idx : List Int} (h : IsPosition t.shape.dims idx) :
    t.get idx = .ok (t.flat.getD (rowNumber (t.shape.dims.map Int.toNat) (idx.map Int.toNat)) 0) := by
  obtain ⟨nonneg, bounds⟩ := h.toNat
  have len : idx.length = t.shape.rank := h.length_eq
  have lt : rowNumber (t.shape.dims.map Int.toNat) (idx.map Int.toNat) < t.flat.size :=
    sound.prod ▸ rowNumber_lt bounds
  have offset := foldl_offset (f := fun off (p : Int × Int) => wrapInt64 (off * p.2 + p.1))
    (fun _ _ _ => rfl) bounds 0 (by
      rw [Nat.zero_add, Nat.one_mul, sound.prod]
      have := sound.fits
      omega)
  rw [map_toNat_ofNat nonneg, sound.dims_eq, Nat.zero_mul, Nat.zero_add, Nat.cast_zero] at offset
  simp only [get, len, ne_eq, not_true_eq_false, if_false]
  rw [offset]
  exact stored_of_lt lt

end Tensor

section Transpose

variable {x : Tensor} {perm : List Int}

/-- The shape rule accepts exactly the permutations of the axes. -/
theorem transpose_shape_ok_iff {s : Shape} :
    (∃ r, Shape.transpose s perm = .ok r) ↔ perm.Perm ((List.range s.rank).map Int.ofNat) := by
  constructor
  · rintro ⟨r, h⟩
    obtain ⟨-, nonneg, isPerm, len⟩ := transpose_shape_ok h
    have moved := isPerm.map Int.ofNat
    rw [map_toNat_ofNat nonneg, List.length_map, len] at moved
    exact moved
  · intro isPerm
    have nonneg : ∀ a ∈ perm, 0 ≤ a := fun a mem => by
      obtain ⟨b, -, rfl⟩ := List.mem_map.1 (isPerm.subset mem)
      exact Int.natCast_nonneg b
    have len : perm.length = s.rank := by simpa using isPerm.length_eq
    have natPerm : IsPerm (perm.map Int.toNat) := by
      have moved := isPerm.map Int.toNat
      rw [map_ofNat_toNat] at moved
      simpa [IsPerm, len] using moved
    exact ⟨_, transpose_shape_eq_ok nonneg natPerm len⟩

theorem transpose_error_iff (sound : x.Sound) (f : Failure) :
    x.transpose perm = .error f ↔ Shape.transpose x.shape perm = .error f := by
  cases rule : Shape.transpose x.shape perm with
  | ok r => simp [transpose_eq sound rule]
  | error g => simp [Tensor.transpose, rule, bind, Except.bind]

theorem map_getD_toNat (I : List Int) :
    (perm.map fun a => I.getD a.toNat 0).map Int.toNat = reorder (perm.map Int.toNat) (I.map Int.toNat) := by
  simp only [reorder, List.map_map]
  refine List.map_congr_left fun a _ => ?_
  exact (List.getD_map I 0 Int.toNat).symm

theorem nonneg_of_reorder {I : List Int} (isPerm : IsPerm (perm.map Int.toNat)) (len : I.length = perm.length)
    (nonneg : ∀ j ∈ perm.map fun a => I.getD a.toNat 0, 0 ≤ j) : ∀ i ∈ I, 0 ≤ i := by
  intro i mem
  obtain ⟨b, lt, rfl⟩ := List.getElem_of_mem mem
  have reached : b ∈ perm.map Int.toNat := isPerm.mem (by simpa [len] using lt)
  obtain ⟨a, listed, at_a⟩ := List.mem_map.1 reached
  have read := nonneg _ (List.mem_map.2 ⟨a, listed, rfl⟩)
  rwa [at_a, List.getD_eq_getElem _ _ lt] at read

/-- Reading a transposition of a sound array: the result has the dimensions of the axes in the
order of the permutation, and its value at a position `J` is the source's at the position `I`
with `I[perm[a]] = J[a]` for every axis `a`. -/
theorem transpose_get (sound : x.Sound) {y : Tensor} (done : x.transpose perm = .ok y) :
    y.shape = ⟨x.shape.dtype, perm.map fun a => x.shape.dims.getD a.toNat 0⟩ ∧
      ∀ J I, IsPosition y.shape.dims J → I.length = x.shape.rank →
        J = perm.map (fun a => I.getD a.toNat 0) → y.get J = x.get I := by
  have rule := transpose_shape_of_ok done
  obtain ⟨shape, -, isPerm, len⟩ := transpose_shape_ok rule
  refine ⟨shape, fun J I pos ilen read => ?_⟩
  have flat : y.flat = permuteValues (x.shape.dims.map Int.toNat) (perm.map Int.toNat) x.flat :=
    congrArg Tensor.flat (Except.ok.inj (done.symm.trans (transpose_eq_permuteValues sound rule)))
  have dims : y.shape.dims.map Int.toNat = reorder (perm.map Int.toNat) (x.shape.dims.map Int.toNat) := by
    rw [transpose_dims sound rule, map_ofNat_toNat]
  have coords : J.map Int.toNat = reorder (perm.map Int.toNat) (I.map Int.toNat) := by
    rw [read, map_getD_toNat]
  obtain ⟨nonneg, bounds⟩ := pos.toNat
  have Dlen : (x.shape.dims.map Int.toNat).length = (perm.map Int.toNat).length := by
    simp [len, Shape.rank]
  have Ilen : (I.map Int.toNat).length = (perm.map Int.toNat).length := by
    simp [ilen, len]
  have source : IsPosition x.shape.dims I := by
    refine isPosition_of_toNat (nonneg_of_reorder isPerm (by rw [ilen, len]) (read ▸ nonneg)) ?_
    have back := isPerm.inverse.inBounds_reorder (by simp) (dims ▸ coords ▸ bounds)
    rwa [isPerm.reorder_inverse Dlen, isPerm.reorder_inverse Ilen] at back
  have lt : rowNumber (y.shape.dims.map Int.toNat) (J.map Int.toNat) < x.flat.size := by
    have below := rowNumber_lt bounds
    rwa [(transpose_sound sound done).prod, flat, size_permuteValues] at below
  rw [Tensor.get_of_position (transpose_sound sound done) pos, Tensor.get_of_position sound source, flat,
    getD_permuteValues lt, ← dims, rowIndex_rowNumber bounds, coords, isPerm.reorder_inverse Ilen]

/-- Transposing a sound array succeeds exactly for the permutations of its axes, and otherwise
fails as the shape rule does. The result has the dimensions of the axes in the order of the
permutation, and its value at a position `J` is the source's at the position `I` with
`I[perm[a]] = J[a]` for every axis `a`. -/
theorem transpose_reads (sound : x.Sound) (perm : List Int) :
    ((∃ y, x.transpose perm = .ok y) ↔ perm.Perm ((List.range x.shape.rank).map Int.ofNat)) ∧
    (∀ f, x.transpose perm = .error f ↔ Shape.transpose x.shape perm = .error f) ∧
    ∀ y, x.transpose perm = .ok y →
      y.shape = ⟨x.shape.dtype, perm.map fun a => x.shape.dims.getD a.toNat 0⟩ ∧
      ∀ J I, IsPosition y.shape.dims J → I.length = x.shape.rank →
        J = perm.map (fun a => I.getD a.toNat 0) → y.get J = x.get I := by
  refine ⟨⟨fun ⟨y, done⟩ => transpose_shape_ok_iff.1 ⟨_, transpose_shape_of_ok done⟩, fun isPerm => ?_⟩,
    transpose_error_iff sound, fun y done => transpose_get sound done⟩
  obtain ⟨r, rule⟩ := transpose_shape_ok_iff.2 isPerm
  exact ⟨_, transpose_eq sound rule⟩

/-- The array `0, …, 5` of shape `[2, 3]` is sound, and transposing it by `[1, 0]` reads as
`transpose_reads` says. -/
theorem transpose_reads_sample :
    let x : Tensor := ⟨⟨.float32, [2, 3]⟩, #[0, 1, 2, 3, 4, 5], 0⟩
    let perm : List Int := [1, 0]
    x.Sound ∧
      ((∃ y, x.transpose perm = .ok y) ↔ perm.Perm ((List.range x.shape.rank).map Int.ofNat)) ∧
      (∀ f, x.transpose perm = .error f ↔ Shape.transpose x.shape perm = .error f) ∧
      ∀ y, x.transpose perm = .ok y →
        y.shape = ⟨x.shape.dtype, perm.map fun a => x.shape.dims.getD a.toNat 0⟩ ∧
        ∀ J I, IsPosition y.shape.dims J → I.length = x.shape.rank →
          J = perm.map (fun a => I.getD a.toNat 0) → y.get J = x.get I := by
  intro x perm
  have sound : x.Sound := ⟨by decide, by decide, by simp [x, maxInt64]⟩
  exact ⟨sound, transpose_reads sound perm⟩

end Transpose

section Reduce

/-- What a reduction makes of the values along its axis: Go's `min` folded from +∞, `max` from
-∞, `+` from 0 (the sum then divided by the number of values for a mean), `*` from 1. -/
def Reduction.fold (op : Reduction) (vs : List Float) : Float :=
  match op with
  | .min => vs.foldl minFloat Rounding.infinity
  | .max => vs.foldl maxFloat (-Rounding.infinity)
  | .sum => vs.foldl (· + ·) 0
  | .mean => vs.foldl (· + ·) 0 / Float.ofNat vs.length
  | .prod => vs.foldl (· * ·) 1
  | _ => 0

theorem Reduction.fold_eq (op : Reduction) (vs : List Float) :
    op.fold vs = if op = .mean then
        vs.foldl (Tensor.reductionStep op) (Tensor.reductionStart op) / Float.ofNat vs.length
      else vs.foldl (Tensor.reductionStep op) (Tensor.reductionStart op) := by
  cases op with
  | none => exact (List.foldl_fixed' (fun _ => rfl) vs).symm
  | unnamed code => exact (List.foldl_fixed' (fun _ => rfl) vs).symm
  | min | max | sum | mean | prod => rfl

theorem adjustAxis_ok_iff {axis rank : Int} :
    (∃ a, Shape.adjustAxis axis rank = .ok a) ↔ -rank ≤ axis ∧ axis < rank := by
  unfold Shape.adjustAxis
  split
  · rename_i out
    simp only [Bool.or_eq_true, decide_eq_true_eq] at out
    simp only [reduceCtorEq, exists_false, false_iff]
    omega
  · rename_i inRange
    simp only [Bool.or_eq_true, decide_eq_true_eq, not_or, not_lt] at inRange
    exact ⟨fun _ => ⟨by omega, by omega⟩, fun _ => ⟨_, rfl⟩⟩

/-- The reduction rule accepts an axis in `[-rank, rank)` and one of the five reductions, but no
arithmetic one on booleans. -/
theorem reduce_shape_ok_iff {s : Shape} {axis : Int} {op : Reduction} :
    (∃ r, Shape.reduce s axis op = .ok r) ↔
      -(s.rank : Int) ≤ axis ∧ axis < s.rank ∧ op ∈ [.min, .max, .sum, .mean, .prod] ∧
        (s.dtype = .bool → op = .min ∨ op = .max) := by
  constructor
  · rintro ⟨r, h⟩
    obtain ⟨a, adj, -, -⟩ := reduce_shape_ok h
    have inRange := adjustAxis_ok_iff.1 ⟨a, adj⟩
    have reduces : (!Shape.isNumberReduction op && !Shape.isOrderReduction op) = false := by
      by_contra bad
      rw [Bool.not_eq_false] at bad
      simp [Shape.reduce, bad] at h
    have notBool : (decide (s.dtype = .bool) && Shape.isNumberReduction op) = false := by
      by_contra bad
      rw [Bool.not_eq_false] at bad
      simp [Shape.reduce, reduces, bad] at h
    refine ⟨inRange.1, inRange.2, ?_, fun bool => ?_⟩
    · cases op <;> simp_all [Shape.isNumberReduction, Shape.isOrderReduction]
    · cases op <;> simp_all [Shape.isNumberReduction, Shape.isOrderReduction]
  · rintro ⟨lo, hi, valid, notBool⟩
    obtain ⟨a, adj⟩ := adjustAxis_ok_iff.2 ⟨lo, hi⟩
    have reduces : (!Shape.isNumberReduction op && !Shape.isOrderReduction op) = false := by
      simp only [List.mem_cons, List.not_mem_nil, or_false] at valid
      rcases valid with rfl | rfl | rfl | rfl | rfl <;> rfl
    have arith : (decide (s.dtype = .bool) && Shape.isNumberReduction op) = false := by
      by_cases bool : s.dtype = .bool
      · rcases notBool bool with rfl | rfl <;> simp [Shape.isNumberReduction]
      · simp [bool]
    exact ⟨s.withDims (s.dims.eraseIdx a), by simp [Shape.reduce, reduces, arith, adj]⟩

theorem rowNumber_append {A I : List Nat} (B K : List Nat) (len : I.length = A.length) :
    rowNumber (A ++ B) (I ++ K) = rowNumber A I * B.prod + rowNumber B K := by
  induction A generalizing I with
  | nil => simp [List.eq_nil_of_length_eq_zero len, rowNumber]
  | cons d A ih =>
    obtain ⟨i, I, rfl⟩ := List.exists_cons_of_length_eq_add_one len
    rw [List.cons_append, List.cons_append, rowNumber_cons, rowNumber_cons, ih (by simpa using len),
      List.prod_append]
    ring

/-- A position of dimensions with axis `a` erased splits at `a` into positions of the axes
before and after `a`. -/
theorem InBounds.split_eraseIdx {D J : List Nat} {a : Nat} (lt : a < D.length)
    (hJ : InBounds (D.eraseIdx a) J) :
    a ≤ J.length ∧ InBounds (D.take a) (J.take a) ∧ InBounds (D.drop (a + 1)) (J.drop a) := by
  have erase : D.eraseIdx a = D.take a ++ D.drop (a + 1) := List.eraseIdx_eq_take_drop_succ D a
  have takeLen : (D.take a).length = a := by simp [List.length_take]; omega
  rw [erase] at hJ
  have before := List.forall₂_take_append J (D.take a) (D.drop (a + 1)) hJ
  have after := List.forall₂_drop_append J (D.take a) (D.drop (a + 1)) hJ
  rw [takeLen] at before after
  refine ⟨?_, before, after⟩
  have := hJ.length_eq
  simp only [List.length_append, List.length_drop] at this
  omega

theorem whole_of_lt {D : List Nat} {a : Nat} (lt : a < D.length) :
    D = D.take a ++ D.getD a 0 :: D.drop (a + 1) := by
  rw [List.getD_eq_getElem _ _ lt, ← List.drop_eq_getElem_cons lt, List.take_append_drop]

theorem inBounds_insertIdx {D J : List Nat} {a : Nat} (lt : a < D.length) (hJ : InBounds (D.eraseIdx a) J)
    {k : Nat} (hk : k < D.getD a 0) : InBounds D (J.insertIdx a k) := by
  obtain ⟨Jlen, before, after⟩ := hJ.split_eraseIdx lt
  rw [whole_of_lt lt, insertIdx_eq_take_drop k J a Jlen]
  exact List.rel_append before (.cons hk after)

/-- A position of dimensions with axis `a` erased, with coordinate `k` inserted at `a`: its
number is that of the row `c / inner` of the axes before `a`, the coordinate, and the column
`c % inner` of the axes after it, where `c` numbers the position without it. -/
theorem rowNumber_insertIdx {D J : List Nat} {a : Nat} (lt : a < D.length) (hJ : InBounds (D.eraseIdx a) J)
    (k : Nat) :
    rowNumber D (J.insertIdx a k) =
      (rowNumber (D.eraseIdx a) J / (D.drop (a + 1)).prod * D.getD a 0 + k) * (D.drop (a + 1)).prod +
        rowNumber (D.eraseIdx a) J % (D.drop (a + 1)).prod := by
  obtain ⟨Jlen, -, after⟩ := hJ.split_eraseIdx lt
  have takeLen : (J.take a).length = (D.take a).length := by simp [List.length_take]; omega
  have below := rowNumber_lt after
  have pos : 0 < (D.drop (a + 1)).prod := Nat.lt_of_le_of_lt (Nat.zero_le _) below
  set P := rowNumber (D.take a) (J.take a)
  set Q := rowNumber (D.drop (a + 1)) (J.drop a)
  have erased : rowNumber (D.eraseIdx a) J = P * (D.drop (a + 1)).prod + Q := by
    rw [List.eraseIdx_eq_take_drop_succ]
    conv_lhs => rw [← List.take_append_drop a J]
    exact rowNumber_append _ _ takeLen
  have high : (P * (D.drop (a + 1)).prod + Q) / (D.drop (a + 1)).prod = P := by
    rw [Nat.add_comm, Nat.add_mul_div_right _ _ pos, Nat.div_eq_of_lt below, Nat.zero_add]
  have low : (P * (D.drop (a + 1)).prod + Q) % (D.drop (a + 1)).prod = Q := by
    rw [Nat.add_comm, Nat.add_mul_mod_self_right, Nat.mod_eq_of_lt below]
  conv_lhs => rw [whole_of_lt lt, insertIdx_eq_take_drop k J a Jlen]
  rw [rowNumber_append _ _ takeLen, rowNumber_cons, List.prod_cons, erased, high, low]
  ring

variable {x : Tensor}

theorem adjustAxis_eq {axis rank : Int} {a : Nat} (h : Shape.adjustAxis axis rank = .ok a) :
    (a : Int) = if axis < 0 then axis + rank else axis := by
  unfold Shape.adjustAxis at h
  split at h
  · cases h
  · rename_i inRange
    simp only [Bool.or_eq_true, decide_eq_true_eq, not_or, not_lt] at inRange
    cases h
    split <;> omega

/-- Reading a reduction of a sound array: the result has the dimensions without the adjusted axis,
and its value at a position `J` is the fold of the values at `J` with `k = 0, …, n - 1` inserted
at that axis, rounded to the element type. -/
theorem reduce_get (sound : x.Sound) {axis : Int} {op : Reduction} {y : Tensor} (done : x.reduce axis op = .ok y) :
    ∃ a : Nat, (a : Int) = (if axis < 0 then axis + x.shape.rank else axis) ∧
      y.shape = ⟨x.shape.dtype, x.shape.dims.eraseIdx a⟩ ∧
      ∀ J, IsPosition y.shape.dims J → ∃ vs : List Float,
        (List.range (x.shape.dims.getD a 0).toNat).map (fun k : Nat => x.get (J.insertIdx a (k : Int))) =
          vs.map .ok ∧
        y.get J = .ok (x.shape.dtype.normalize (op.fold vs)) := by
  obtain ⟨r, h, small⟩ := reduce_fits sound done
  obtain ⟨a, adj, lt, rdims⟩ := reduce_shape_ok h
  obtain ⟨a', adj', eq⟩ := reduce_eq sound h small
  obtain rfl : a = a' := Except.ok.inj (adj.symm.trans adj')
  have ySound := (reduce_sound sound done).1
  rw [eq] at done
  cases done
  refine ⟨a, adjustAxis_eq adj, rdims, fun J pos => ?_⟩
  set D := x.shape.dims.map Int.toNat with hD
  have Dlen : a < D.length := by simpa [D, Shape.rank] using lt
  have yDims : r.dims.map Int.toNat = D.eraseIdx a := by
    rw [rdims, Shape.withDims, hD, List.eraseIdx_map]
  obtain ⟨nonneg, bounds⟩ := pos.toNat
  rw [yDims] at bounds
  have cLt : rowNumber (D.eraseIdx a) (J.map Int.toNat) < (D.take a).prod * (D.drop (a + 1)).prod :=
    lt_of_lt_of_eq (rowNumber_lt bounds) (by rw [List.eraseIdx_eq_take_drop_succ, List.prod_append])
  set inner := (D.drop (a + 1)).prod
  set c := rowNumber (D.eraseIdx a) (J.map Int.toNat)
  have count : (x.shape.dims.getD a 0).toNat = D.getD a 0 := (List.getD_map x.shape.dims 0 Int.toNat).symm
  refine ⟨(List.range (D.getD a 0)).map fun k =>
      x.flat.getD ((c / inner * D.getD a 0 + k) * inner + c % inner) 0, ?_, ?_⟩
  · rw [count, List.map_map]
    refine List.map_congr_left fun k mem => ?_
    have inserted : (J.insertIdx a (k : Int)).map Int.toNat = (J.map Int.toNat).insertIdx a k := by
      rw [List.map_insertIdx, Int.toNat_natCast]
    have at_k : IsPosition x.shape.dims (J.insertIdx a (k : Int)) := by
      refine isPosition_of_toNat (fun i mem => ?_) (inserted ▸ inBounds_insertIdx Dlen bounds (List.mem_range.1 mem))
      rcases List.eq_or_mem_of_mem_insertIdx mem with rfl | listed
      · exact Int.natCast_nonneg k
      · exact nonneg i listed
    simp only [Function.comp_apply]
    rw [Tensor.get_of_position sound at_k, inserted, rowNumber_insertIdx Dlen bounds k]
  · rw [Tensor.get_of_position ySound pos, yDims, getD_map_range _ _ cLt, Reduction.fold_eq]
    simp only [List.length_map, List.length_range, List.foldl_map, Tensor.reducedCell, rdims, Shape.withDims]
    rfl

/-- Reducing a sound array whose values fit a block succeeds exactly for an axis in
`[-rank, rank)` and one of the five reductions, but no arithmetic one on booleans. The result has
the dimensions without the adjusted axis, and its value at a position `J` is the fold of the
values at `J` with `k = 0, …, n - 1` inserted at that axis, rounded to the element type. -/
theorem reduce_reads (sound : x.Sound) (held : (x.flat.size : Int) ≤ Tensor.blockLimit) (axis : Int)
    (op : Reduction) :
    ((∃ y, x.reduce axis op = .ok y) ↔
      -(x.shape.rank : Int) ≤ axis ∧ axis < x.shape.rank ∧ op ∈ [.min, .max, .sum, .mean, .prod] ∧
        (x.shape.dtype = .bool → op = .min ∨ op = .max)) ∧
    ∀ y, x.reduce axis op = .ok y → ∃ a : Nat, (a : Int) = (if axis < 0 then axis + x.shape.rank else axis) ∧
      y.shape = ⟨x.shape.dtype, x.shape.dims.eraseIdx a⟩ ∧
      ∀ J, IsPosition y.shape.dims J → ∃ vs : List Float,
        (List.range (x.shape.dims.getD a 0).toNat).map (fun k : Nat => x.get (J.insertIdx a (k : Int))) =
          vs.map .ok ∧
        y.get J = .ok (x.shape.dtype.normalize (op.fold vs)) := by
  have small : ∀ {r : Shape}, Shape.reduce x.shape axis op = .ok r →
      (Tensor.positionCount r.dims : Int) ≤ Tensor.blockLimit := by
    intro r h
    obtain ⟨a, -, lt, rdims⟩ := reduce_shape_ok h
    rw [reduce_positionCount sound rdims]
    exact le_trans (Int.ofNat_le.2 (sound.erased_le lt)) held
  refine ⟨⟨fun ⟨y, done⟩ => reduce_shape_ok_iff.1 ⟨_, (reduce_sound sound done).2⟩, fun valid => ?_⟩,
    fun y done => reduce_get sound done⟩
  obtain ⟨r, h⟩ := reduce_shape_ok_iff.2 valid
  exact reduce_succeeds sound h (small h)

/-- The array `0, …, 5` of shape `[2, 3]` is sound and fits a block, and summing it along its
last axis, written `-1`, reads as `reduce_reads` says. -/
theorem reduce_reads_sample :
    let x : Tensor := ⟨⟨.float32, [2, 3]⟩, #[0, 1, 2, 3, 4, 5], 0⟩
    let axis : Int := -1
    x.Sound ∧ (x.flat.size : Int) ≤ Tensor.blockLimit ∧
    ((∃ y, x.reduce axis .sum = .ok y) ↔
      -(x.shape.rank : Int) ≤ axis ∧ axis < x.shape.rank ∧ Reduction.sum ∈ [.min, .max, .sum, .mean, .prod] ∧
        (x.shape.dtype = .bool → Reduction.sum = .min ∨ Reduction.sum = .max)) ∧
    ∀ y, x.reduce axis .sum = .ok y →
      ∃ a : Nat, (a : Int) = (if axis < 0 then axis + x.shape.rank else axis) ∧
      y.shape = ⟨x.shape.dtype, x.shape.dims.eraseIdx a⟩ ∧
      ∀ J, IsPosition y.shape.dims J → ∃ vs : List Float,
        (List.range (x.shape.dims.getD a 0).toNat).map (fun k : Nat => x.get (J.insertIdx a (k : Int))) =
          vs.map .ok ∧
        y.get J = .ok (x.shape.dtype.normalize (Reduction.sum.fold vs)) := by
  intro x axis
  have sound : x.Sound := ⟨by decide, by decide, by simp [x, maxInt64]⟩
  exact ⟨sound, by decide, reduce_reads sound (by decide) axis .sum⟩

end Reduce

section Repeat

variable {x : Tensor} {axis count : Int}

theorem InBounds.eraseIdx {D J : List Nat} (h : InBounds D J) (a : Nat) : InBounds (D.eraseIdx a) (J.eraseIdx a) := by
  rw [List.eraseIdx_eq_take_drop_succ, List.eraseIdx_eq_take_drop_succ]
  exact List.rel_append (List.forall₂_take a h) (List.forall₂_drop (a + 1) h)

/-- Reading a repeat of a sound array, whose result is sound: the result has the count inserted
among the dimensions at the axis, and its value at a position `J` is the source's at `J` without
that axis. -/
theorem repeat_get (sound : x.Sound) {y : Tensor} (done : x.repeat axis count = .ok y) (ySound : y.Sound) :
    y.shape = x.shape.withDims (x.shape.dims.insertIdx axis.toNat count) ∧
      ∀ J, IsPosition y.shape.dims J → y.get J = x.get (J.eraseIdx axis.toNat) := by
  obtain ⟨r, h, rest⟩ := Except.bind_eq_ok.1 done
  obtain ⟨u, reserved, -⟩ := Except.bind_eq_ok.1 rest
  obtain ⟨-, le, positive, rdims⟩ := repeat_shape_ok h
  rw [repeat_eq sound h reserved] at done
  split at done
  · cases done
  cases done
  refine ⟨rdims, fun J pos => ?_⟩
  set D := x.shape.dims.map Int.toNat with hD
  set a := axis.toNat
  set n := count.toNat
  have aLe : a ≤ D.length := by simpa [D, Shape.rank] using le
  have whole : D.insertIdx a n = D.take a ++ n :: D.drop a := insertIdx_eq_take_drop n D a aLe
  have yDims : r.dims.map Int.toNat = D.insertIdx a n := by
    rw [rdims, Shape.withDims, hD, List.map_insertIdx]
  have erased : (D.insertIdx a n).eraseIdx a = D := List.eraseIdx_insertIdx_self n
  have front : (D.take a).length = a := by simp; omega
  have after : (D.insertIdx a n).drop (a + 1) = D.drop a := by
    rw [whole, List.drop_append, front]
    simp
  have atAxis : (D.insertIdx a n).getD a 0 = n := by
    rw [whole, List.getD_append_right _ _ _ _ (by omega), front]
    simp
  obtain ⟨nonneg, bounds⟩ := pos.toNat
  rw [yDims] at bounds
  have lt : a < (D.insertIdx a n).length := by
    rw [List.length_insertIdx_of_le_length aLe]
    omega
  set J' := J.map Int.toNat
  have Jlen : a < J'.length := by rw [bounds.length_eq]; exact lt
  have restBounds : InBounds D (J'.eraseIdx a) := erased ▸ bounds.eraseIdx a
  have jLt : J'[a] < n := by
    have at_a := bounds.get Jlen lt
    rw [← atAxis, List.getD_eq_getElem _ _ lt]
    simpa using at_a
  set c := rowNumber D (J'.eraseIdx a)
  set inner := (D.drop a).prod
  have innerPos : 0 < inner := List.prod_pos fun d mem => sound.natDims_pos d (List.mem_of_mem_drop mem)
  have number : rowNumber (D.insertIdx a n) J' = (c / inner * n + J'[a]) * inner + c % inner := by
    conv_lhs => rw [← List.insertIdx_eraseIdx_getElem Jlen]
    rw [rowNumber_insertIdx lt (erased.symm ▸ restBounds), erased, after, atAxis]
  have total : rowNumber (D.insertIdx a n) J' < (D.take a).prod * n * inner := by
    have count : (D.insertIdx a n).prod = (D.take a).prod * n * inner := by
      rw [whole, List.prod_append, List.prod_cons, ← Nat.mul_assoc]
    exact count ▸ rowNumber_lt bounds
  -- copy `J'[a]` of block `c / inner` holds the source's value at `c`
  have source : (c / inner * n + J'[a]) * inner + c % inner =
      c / inner * n * inner + J'[a] * inner + c % inner := by ring
  have read := repeated_index (o := c / inner) jLt (Nat.mod_lt c innerPos)
  rw [← source, Nat.div_add_mod'] at read
  have position : IsPosition x.shape.dims (J.eraseIdx a) := by
    refine isPosition_of_toNat (fun i mem => nonneg i (List.mem_of_mem_eraseIdx mem)) ?_
    rw [← List.eraseIdx_map]
    exact restBounds
  rw [Tensor.get_of_position ySound pos, Tensor.get_of_position sound position, yDims, ← List.eraseIdx_map]
  dsimp only
  rw [getD_map_range _ _ total, number, read]

end Repeat

end Rearrange
