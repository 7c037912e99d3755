import Rearrange.Proofs.Elements
import Rearrange.Proofs.Agreement
/-!
# Outer products

`Tensor.join` multiplies out its operands. It folds over them from the single value `1`; each
step reserves room for the product of the count so far and the next operand's, then takes every
value so far times every value of the operand, in row-major order, rounded to the element type
(`outerStep`). Value `i · n + j` of a step is value `i` so far times value `j` of the operand, so
the value at a position `I₁ ++ … ++ Iₖ` of the result is the product of the operands' values at
`I₁, …, Iₖ`, multiplied from `1` one operand at a time and rounded after each multiplication
(`getD_foldl_outerStep`).

A join of sound arrays succeeds exactly when there are operands, all of one valid dtype, whose
numbers of values multiply to at most a block (`Tensor.join_eq`, `Tensor.join_conditions`): its
last step reserves the whole product. A product can fit a 64-bit word and still not fit a block
(`join_refuses_fitting`).
-/
namespace Rearrange

open Word

section OuterStep

/-- One step of an outer product: each value so far times each value of the next operand, in
row-major order, rounded to the element type. -/
def outerStep (d : DType) (acc vs : List Float) : List Float :=
  acc.flatMap fun a => vs.map fun b => d.normalize (a * b)

@[simp] theorem length_outerStep (d : DType) (acc vs : List Float) :
    (outerStep d acc vs).length = acc.length * vs.length := by
  simp [outerStep, List.length_flatMap, List.map_const', List.sum_replicate]

theorem getD_outerStep (d : DType) {vs : List Float} {j : Nat} (hj : j < vs.length) :
    ∀ (acc : List Float) (i : Nat), i < acc.length →
      (outerStep d acc vs).getD (i * vs.length + j) 0 = d.normalize (acc.getD i 0 * vs.getD j 0)
  | a :: acc, 0, _ => by
    rw [outerStep, List.flatMap_cons, Nat.zero_mul, Nat.zero_add, List.getD_append _ _ _ _ (by simpa using hj)]
    simp [List.getElem?_eq_getElem hj]
  | a :: acc, i + 1, lt => by
    have rest := getD_outerStep d hj acc i (by simpa using lt)
    rw [outerStep, List.flatMap_cons, List.getD_append_right _ _ _ _ (by simp; nlinarith)]
    simp only [List.length_map, Nat.succ_mul, Nat.add_right_comm _ vs.length j, Nat.add_sub_cancel]
    simpa [outerStep] using rest

theorem getD_toArray (l : List Float) (i : Nat) : l.toArray.getD i 0 = l.getD i 0 := by
  by_cases lt : i < l.length <;> simp [Array.getD, lt, List.getD_eq_getElem?_getD]

theorem toList_getD (a : Array Float) (i : Nat) : a.toList.getD i 0 = a.getD i 0 := by
  rw [← getD_toArray, Array.toArray_toList]

theorem flatMap_map_toArray (d : DType) (acc : List Float) (vs : Array Float) :
    acc.toArray.flatMap (fun l => vs.map fun r => d.normalize (l * r)) = (outerStep d acc vs.toList).toArray := by
  simp [outerStep]

theorem prod_flatMap_dims {xs : List Tensor} (counts : ∀ x ∈ xs, (x.shape.dims.map Int.toNat).prod = x.flat.size) :
    ((xs.flatMap (·.shape.dims)).map Int.toNat).prod = (xs.map (·.flat.size)).prod := by
  induction xs with
  | nil => rfl
  | cons x xs ih =>
    rw [List.flatMap_cons, List.map_append, List.prod_append, counts x (by simp),
      ih fun y mem => counts y (by simp [mem]), List.map_cons, List.prod_cons]

/-- Reading the outer product at row `i` of the values so far and at positions `Is` of the
operands: the value so far multiplied by the operands' values there, one after the other, each
product rounded. -/
theorem getD_foldl_outerStep (d : DType) {xs : List Tensor} {Is : List (List Nat)}
    (counts : ∀ x ∈ xs, (x.shape.dims.map Int.toNat).prod = x.flat.size)
    (pos : List.Forall₂ (fun I x => InBounds (x.shape.dims.map Int.toNat) I) Is xs)
    (acc : List Float) {i : Nat} (hi : i < acc.length) :
    (xs.foldl (fun acc x => outerStep d acc x.flat.toList) acc).getD
        (i * (xs.map (·.flat.size)).prod + rowNumber ((xs.flatMap (·.shape.dims)).map Int.toNat) Is.flatten) 0 =
      (List.zipWith (fun x I => x.flat.getD (rowNumber (x.shape.dims.map Int.toNat) I) 0) xs Is).foldl
        (fun v w => d.normalize (v * w)) (acc.getD i 0) := by
  induction pos generalizing acc i with
  | nil => simp [rowNumber]
  | @cons I x Is xs here rest ih =>
    have count := counts x (by simp)
    have others := fun y mem => counts y (List.mem_cons_of_mem x mem)
    have inside : rowNumber (x.shape.dims.map Int.toNat) I < x.flat.size := count ▸ rowNumber_lt here
    have row : i * x.flat.size + rowNumber (x.shape.dims.map Int.toNat) I <
        (outerStep d acc x.flat.toList).length := by
      rw [length_outerStep, Array.length_toList]
      calc i * x.flat.size + rowNumber (x.shape.dims.map Int.toNat) I < (i + 1) * x.flat.size := by
            rw [Nat.succ_mul]; omega
        _ ≤ acc.length * x.flat.size := Nat.mul_le_mul_right _ hi
    have index : i * (x.flat.size * (xs.map (·.flat.size)).prod) +
        rowNumber ((x.shape.dims ++ xs.flatMap (·.shape.dims)).map Int.toNat) (I ++ Is.flatten) =
        (i * x.flat.size + rowNumber (x.shape.dims.map Int.toNat) I) * (xs.map (·.flat.size)).prod +
          rowNumber ((xs.flatMap (·.shape.dims)).map Int.toNat) Is.flatten := by
      rw [List.map_append, rowNumber_append _ _ here.length_eq, prod_flatMap_dims others]
      ring
    simp only [List.foldl_cons, List.map_cons, List.prod_cons, List.flatMap_cons, List.flatten_cons,
      List.zipWith_cons_cons]
    have step := @getD_outerStep d x.flat.toList _ (by simpa using inside) acc i hi
    rw [Array.length_toList, toList_getD x.flat] at step
    rw [index, ih others _ row, step]

end OuterStep

section Loops

/-- A join's loop reserves room for each partial product, which fits when the whole product
does, and multiplies out the operands' values. -/
theorem foldlM_join_eq (d : DType) : ∀ (xs : List Tensor) (acc : List Float), (∀ x ∈ xs, 0 < x.flat.size) →
    ((acc.length * (xs.map (·.flat.size)).prod : Nat) : Int) ≤ Tensor.blockLimit →
    xs.foldlM (fun acc x => do
      Tensor.reserve (wrapInt64 (acc.size * x.flat.size)) false
      if Tensor.blockLimit < ((acc.size * x.flat.size : Nat) : Int) then throw Tensor.growFault
      pure (acc.flatMap fun l => x.flat.map fun r => d.normalize (l * r))) acc.toArray =
    .ok (xs.foldl (fun acc x => outerStep d acc x.flat.toList) acc).toArray
  | [], acc, _, _ => rfl
  | x :: xs, acc, pos, small => by
    have later : 0 < (xs.map (·.flat.size)).prod :=
      List.prod_pos fun n mem => by
        obtain ⟨y, mem', rfl⟩ := List.mem_map.1 mem
        exact pos y (by simp [mem'])
    have first : ((acc.length * x.flat.size : Nat) : Int) ≤ Tensor.blockLimit := by
      refine le_trans (Int.ofNat_le.2 ?_) small
      simpa [Nat.mul_assoc] using Nat.le_mul_of_pos_right (acc.length * x.flat.size) later
    have exact : wrapInt64 ((acc.length * x.flat.size : Nat) : Int) = ((acc.length * x.flat.size : Nat) : Int) :=
      wrapInt64_of_le (Int.natCast_nonneg _) (le_trans first Tensor.blockLimit_le_max)
    have rest := foldlM_join_eq d xs (outerStep d acc x.flat.toList) (fun y mem => pos y (by simp [mem]))
      (by simpa [Nat.mul_assoc] using small)
    rw [List.foldlM_cons, List.foldl_cons, ← rest, List.size_toArray, ← Nat.cast_mul, exact,
      Tensor.reserve_eq_ok (Int.natCast_nonneg _) first, if_neg (not_lt.2 first), flatMap_map_toArray]
    rfl

/-- A fold whose every step multiplies the number of values by an operand's, and succeeds only
when the product, if a 64-bit word, fits a block, fits the whole product in a block when it
succeeds over operands whose numbers of values multiply to a 64-bit word. -/
theorem foldlM_product_le {ε : Type} (f : Array Float → Tensor → Except ε (Array Float))
    (step : ∀ acc x b, f acc x = .ok b → b.size = acc.size * x.flat.size ∧
      (((acc.size * x.flat.size : Nat) : Int) ≤ maxInt64 → ((acc.size * x.flat.size : Nat) : Int) ≤ Tensor.blockLimit)) :
    ∀ (xs : List Tensor) (acc flat : Array Float), xs ≠ [] →
      ((acc.size * (xs.map (·.flat.size)).prod : Nat) : Int) ≤ maxInt64 → xs.foldlM f acc = .ok flat →
      ((acc.size * (xs.map (·.flat.size)).prod : Nat) : Int) ≤ Tensor.blockLimit
  | [], _, _, nonempty, _, _ => absurd rfl nonempty
  | [x], acc, flat, _, fits, h => by
    rw [List.foldlM_cons] at h
    obtain ⟨b, stepped, -⟩ := Except.bind_eq_ok.1 h
    simpa using (step acc x b stepped).2 (by simpa using fits)
  | x :: y :: xs, acc, flat, _, fits, h => by
    rw [List.foldlM_cons] at h
    obtain ⟨b, stepped, rest⟩ := Except.bind_eq_ok.1 h
    have size := (step acc x b stepped).1
    have later := foldlM_product_le f step (y :: xs) b flat (List.cons_ne_nil y xs)
      (by rw [size]; simpa [Nat.mul_assoc] using fits) rest
    rw [size] at later
    simpa [Nat.mul_assoc] using later

end Loops

section Join

/-- Operands of one valid dtype with positive dimensions join to that dtype and the operands'
dimensions one after the other. -/
theorem join_shape_eq {d : DType} (valid : d ≠ .invalid) {ss : List Shape} (nonempty : ss ≠ [])
    (same : ∀ s ∈ ss, s.dtype = d) (pos : ∀ s ∈ ss, ∀ e ∈ s.dims, 0 < e) :
    Shape.join ss = .ok ⟨d, ss.flatMap (·.dims)⟩ := by
  obtain ⟨first, rest, rfl⟩ := List.exists_cons_of_ne_nil nonempty
  have firstDtype := same first List.mem_cons_self
  unfold Shape.join
  dsimp only
  rw [List.findSome?_eq_none_iff.2 fun p mem => ?passes]
  · have allPos : ((first :: rest).flatMap (·.dims)).all (0 < ·) = true :=
      List.all_eq_true.2 fun e mem => by
        obtain ⟨s, listed, inside⟩ := List.mem_flatMap.1 mem
        exact decide_eq_true (pos s listed e inside)
    simp only [Shape.make, allPos, if_true, firstDtype]
  case passes =>
    obtain ⟨s, i⟩ := p
    have dtype := same s (List.fst_mem_of_mem_zipIdx mem)
    simp [Shape.ok, dtype, firstDtype, valid]

/-- A join of shapes that succeeds has operands, and its dtype is a valid one. -/
theorem join_shape_valid {ss : List Shape} {s : Shape} (h : Shape.join ss = .ok s) :
    ss ≠ [] ∧ s.dtype ≠ .invalid := by
  unfold Shape.join at h
  split at h
  · cases h
  · rename_i first rest
    dsimp only at h
    split at h
    · cases h
    · rename_i unchecked
      obtain ⟨rfl, -⟩ := Shape.make_ok h
      have passed := List.findSome?_eq_none_iff.1 unchecked (first, 0) (by simp)
      simp [Shape.ok] at passed
      exact ⟨List.cons_ne_nil _ _, passed⟩

/-- Sound operands of one valid dtype whose numbers of values multiply to at most the allocation
limit join to their outer product: the concatenated dimensions over the fold of `outerStep`. -/
theorem Tensor.join_eq {xs : List Tensor} (sound : ∀ x ∈ xs, x.Sound) {d : DType} (valid : d ≠ .invalid)
    (nonempty : xs ≠ []) (same : ∀ x ∈ xs, x.shape.dtype = d)
    (small : (((xs.map (·.flat.size)).prod : Nat) : Int) ≤ Tensor.blockLimit) :
    Tensor.join xs =
      .ok ⟨⟨d, xs.flatMap (·.shape.dims)⟩, (xs.foldl (fun acc x => outerStep d acc x.flat.toList) [1]).toArray, 0⟩ := by
  have counts := fun x mem => (sound x mem).prod
  have shapeEq : Shape.join (xs.map (·.shape)) = .ok ⟨d, xs.flatMap (·.shape.dims)⟩ := by
    rw [join_shape_eq valid (by simpa using nonempty) (by simpa using same)
      (by simpa using fun x mem => (sound x mem).pos), List.flatMap_map]
  have allPos : ∀ e ∈ xs.flatMap (·.shape.dims), 0 < e := fun e mem => by
    obtain ⟨x, listed, inside⟩ := List.mem_flatMap.1 mem
    exact (sound x listed).pos e inside
  have joined : positionCount (xs.flatMap (·.shape.dims)) = (xs.map (·.flat.size)).prod := by
    rw [positionCount_eq_prod allPos, prod_flatMap_dims counts]
  obtain ⟨y, done⟩ := join_succeeds sound shapeEq (by rw [joined]; exact small)
  have nonzero : ∀ x ∈ xs, 0 < x.flat.size := fun x mem => by
    rw [← counts x mem]
    exact List.prod_pos (sound x mem).natDims_pos
  have folded := foldlM_join_eq d xs [1] nonzero (by simpa using small)
  obtain ⟨s, h, rest⟩ := Except.bind_eq_ok.1 done
  rw [shapeEq] at h
  cases h
  obtain ⟨flat, made, rest⟩ := Except.bind_eq_ok.1 rest
  rw [show (#[1] : Array Float) = [1].toArray from rfl, folded] at made
  cases made
  split at rest
  · cases rest
  · cases rest
    exact done

/-- What a join of sound arrays that succeeds had: operands, all of one valid dtype, whose
numbers of values multiply to at most a block. -/
theorem Tensor.join_conditions {xs : List Tensor} {y : Tensor} (sound : ∀ x ∈ xs, x.Sound)
    (done : Tensor.join xs = .ok y) :
    xs ≠ [] ∧ y.shape.dtype ≠ .invalid ∧ (∀ x ∈ xs, x.shape.dtype = y.shape.dtype) ∧
      (((xs.map (·.flat.size)).prod : Nat) : Int) ≤ Tensor.blockLimit := by
  obtain ⟨ySound, shaped⟩ := join_sound sound done
  obtain ⟨listed, valid⟩ := join_shape_valid shaped
  have nonempty : xs ≠ [] := by simpa using listed
  refine ⟨nonempty, valid, fun x mem => Hlo.join_dtypes shaped _ (List.mem_map_of_mem mem), ?_⟩
  obtain ⟨s, h, rest⟩ := Except.bind_eq_ok.1 done
  obtain ⟨flat, folded, rest⟩ := Except.bind_eq_ok.1 rest
  dsimp only at rest
  have made : y = ⟨s, flat, 0⟩ := by
    split at rest
    · cases rest
    · cases rest
      rfl
  subst made
  -- each step multiplies the count, and reserves the product, which fits a block when exact
  have step : ∀ (acc : Array Float) (x : Tensor) b, (do
      Tensor.reserve (wrapInt64 (acc.size * x.flat.size)) false
      if Tensor.blockLimit < ((acc.size * x.flat.size : Nat) : Int) then throw Tensor.growFault
      pure (acc.flatMap fun l => x.flat.map fun r => s.dtype.normalize (l * r)) : Except Failure _) = .ok b →
      b.size = acc.size * x.flat.size ∧
        (((acc.size * x.flat.size : Nat) : Int) ≤ maxInt64 → ((acc.size * x.flat.size : Nat) : Int) ≤ Tensor.blockLimit) := by
    intro acc x b stepped
    obtain ⟨u, reserved, made⟩ := Except.bind_eq_ok.1 stepped
    obtain ⟨-, made⟩ := Except.ite_throw_ok made
    cases made
    refine ⟨?_, fun fits => ?_⟩
    · rcases acc with ⟨l⟩
      simp [List.map_const', List.sum_replicate]
    · have exact := wrapInt64_of_le (Int.natCast_nonneg _) fits
      rw [← Nat.cast_mul, exact] at reserved
      exact_mod_cast (Tensor.reserve_ok reserved).2
  have size := foldlM_size _ (fun acc x b stepped => (step acc x b stepped).1) xs #[1] flat folded
  have fits : ((1 * (xs.map (·.flat.size)).prod : Nat) : Int) ≤ maxInt64 := by
    have one : (#[1] : Array Float).size = 1 := rfl
    rw [← one, ← size]
    exact ySound.fits
  simpa using foldlM_product_le _ step xs #[1] flat nonempty fits folded

theorem IsPosition.flatten {α : Type} {f : α → List Int} {Is : List (List Int)} {xs : List α}
    (h : List.Forall₂ (fun I x => IsPosition (f x) I) Is xs) : IsPosition (xs.flatMap f) Is.flatten := by
  induction h with
  | nil => exact List.Forall₂.nil
  | cons here _ ih => exact List.rel_append here ih

theorem zipWith_get {xs : List Tensor} (sound : ∀ x ∈ xs, x.Sound) {Is : List (List Int)}
    (pos : List.Forall₂ (fun I x => IsPosition x.shape.dims I) Is xs) :
    List.zipWith (fun x I => x.get I) xs Is =
      (List.zipWith (fun x I => x.flat.getD (rowNumber (x.shape.dims.map Int.toNat) (I.map Int.toNat)) 0)
        xs Is).map .ok := by
  induction pos with
  | nil => rfl
  | @cons I x Is xs here _ ih =>
    rw [List.zipWith_cons_cons, List.zipWith_cons_cons, List.map_cons,
      Tensor.get_of_position (sound x List.mem_cons_self) here,
      ih fun y mem => sound y (List.mem_cons_of_mem x mem)]

/-- Reading a join of sound arrays: the result has the operands' dimensions one after the other
and their element type, and its value at the concatenation of one position of each operand is
the operands' values there multiplied out from 1, each product rounded. -/
theorem join_get {xs : List Tensor} (sound : ∀ x ∈ xs, x.Sound) {y : Tensor} (done : Tensor.join xs = .ok y) :
    y.shape.dims = xs.flatMap (·.shape.dims) ∧ (∀ x ∈ xs, x.shape.dtype = y.shape.dtype) ∧
      ∀ Is, List.Forall₂ (fun I x => IsPosition x.shape.dims I) Is xs →
        ∃ vs : List Float, List.zipWith (fun x I => x.get I) xs Is = vs.map .ok ∧
          y.get Is.flatten = .ok (vs.foldl (fun acc v => y.shape.dtype.normalize (acc * v)) 1) := by
  obtain ⟨nonempty, valid, same, small⟩ := Tensor.join_conditions sound done
  generalize y.shape.dtype = d at valid same ⊢
  have joined := Tensor.join_eq sound valid nonempty same small
  rw [done, Except.ok.injEq] at joined
  subst joined
  refine ⟨rfl, same, fun Is pos => ⟨_, zipWith_get sound pos, ?_⟩⟩
  have natPos : List.Forall₂ (fun I x => InBounds (x.shape.dims.map Int.toNat) I) (Is.map (·.map Int.toNat)) xs :=
    List.forall₂_map_left_iff.2 (pos.imp fun I x h => h.toNat.2)
  have read := getD_foldl_outerStep d (fun x mem => (sound x mem).prod) natPos [1] (i := 0) (by simp)
  rw [Nat.zero_mul, Nat.zero_add, List.zipWith_map_right] at read
  rw [Tensor.get_of_position (join_sound sound done).1 (IsPosition.flatten pos)]
  dsimp only
  rw [getD_toArray, List.map_flatten, read]
  rfl

theorem join_reads {xs : List Tensor} (sound : ∀ x ∈ xs, x.Sound) :
    ((∃ y, Tensor.join xs = .ok y) ↔ xs ≠ [] ∧ (∃ d, d ≠ .invalid ∧ ∀ x ∈ xs, x.shape.dtype = d) ∧
      (((xs.map (·.flat.size)).prod : Nat) : Int) ≤ Tensor.blockLimit) ∧
    ∀ y, Tensor.join xs = .ok y →
      y.shape.dims = xs.flatMap (·.shape.dims) ∧ (∀ x ∈ xs, x.shape.dtype = y.shape.dtype) ∧
      ∀ Is, List.Forall₂ (fun I x => IsPosition x.shape.dims I) Is xs →
        ∃ vs : List Float, List.zipWith (fun x I => x.get I) xs Is = vs.map .ok ∧
          y.get Is.flatten = .ok (vs.foldl (fun acc v => y.shape.dtype.normalize (acc * v)) 1) := by
  refine ⟨⟨fun ⟨y, done⟩ => ?_, fun ⟨nonempty, ⟨d, valid, same⟩, small⟩ => ?_⟩, fun y done => join_get sound done⟩
  · obtain ⟨nonempty, valid, same, small⟩ := Tensor.join_conditions sound done
    exact ⟨nonempty, ⟨_, valid, same⟩, small⟩
  · exact ⟨_, Tensor.join_eq sound valid nonempty same small⟩

/-- The sound arrays `1, 2` and `3, 4, 5` join as `join_reads` says. -/
theorem join_reads_sample :
    let xs : List Tensor := [⟨⟨.float32, [2]⟩, #[1, 2], 0⟩, ⟨⟨.float32, [3]⟩, #[3, 4, 5], 0⟩]
    (∀ x ∈ xs, x.Sound) ∧
    ((∃ y, Tensor.join xs = .ok y) ↔ xs ≠ [] ∧ (∃ d, d ≠ .invalid ∧ ∀ x ∈ xs, x.shape.dtype = d) ∧
      (((xs.map (·.flat.size)).prod : Nat) : Int) ≤ Tensor.blockLimit) ∧
    ∀ y, Tensor.join xs = .ok y →
      y.shape.dims = xs.flatMap (·.shape.dims) ∧ (∀ x ∈ xs, x.shape.dtype = y.shape.dtype) ∧
      ∀ Is, List.Forall₂ (fun I x => IsPosition x.shape.dims I) Is xs →
        ∃ vs : List Float, List.zipWith (fun x I => x.get I) xs Is = vs.map .ok ∧
          y.get Is.flatten = .ok (vs.foldl (fun acc v => y.shape.dtype.normalize (acc * v)) 1) := by
  intro xs
  have sound : ∀ x ∈ xs, x.Sound := by
    intro x mem
    simp only [xs, List.mem_cons, List.not_mem_nil, or_false] at mem
    rcases mem with rfl | rfl
    · exact ⟨by decide, by decide, by simp [maxInt64]⟩
    · exact ⟨by decide, by decide, by simp [maxInt64]⟩
  exact ⟨sound, join_reads sound⟩

/-- Sound arrays of one dtype whose numbers of values multiply to a 64-bit word need not join:
an array of the invalid dtype does not, and neither do two arrays of `6000000` values, whose
`36000000000000` products are more than a block holds. -/
theorem join_refuses_fitting :
    (let x : Tensor := ⟨⟨.invalid, [2]⟩, #[0, 1], 0⟩;
      x.Sound ∧ ∃ f, Tensor.join [x] = .error f) ∧
    (let x : Tensor := ⟨⟨.float32, [6000000]⟩, Array.replicate 6000000 0, 0⟩;
      x.Sound ∧ ((x.flat.size * x.flat.size : Nat) : Int) ≤ maxInt64 ∧ ∃ f, Tensor.join [x, x] = .error f) := by
  constructor
  · intro x
    have sound : x.Sound := ⟨by decide, by decide, by simp [x, maxInt64]⟩
    refine ⟨sound, ?_⟩
    cases h : Tensor.join [x] with
    | error f => exact ⟨f, rfl⟩
    | ok y =>
      obtain ⟨-, valid, same, -⟩ := Tensor.join_conditions (by simpa using sound) h
      exact absurd ((same x List.mem_cons_self).symm.trans rfl) valid
  · intro x
    have size : x.flat.size = 6000000 := Array.size_replicate
    have sound : x.Sound := ⟨by decide, by simp [x, Tensor.positionCount], by simp [size, maxInt64]⟩
    refine ⟨sound, by simp [size, maxInt64], ?_⟩
    cases h : Tensor.join [x, x] with
    | error f => exact ⟨f, rfl⟩
    | ok y =>
      have small := (Tensor.join_conditions (by simpa using sound) h).2.2.2
      simp [size, Tensor.blockLimit] at small

end Join

end Rearrange
