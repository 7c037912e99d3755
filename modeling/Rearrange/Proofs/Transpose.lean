import Rearrange.Proofs.Storage
import Rearrange.Proofs.RowMajor
/-!
# Transposing an array

`Tensor.transpose` walks the positions of the result in row-major order and keeps the offset of
the source value in step: one step of the walk (`carry`) moves to the next position and adds the
stride of each coordinate that changes (`carry_rowIndex`). Over a sound array every offset falls
within the stored values, so the transposition never fails once its shape rule accepts the
permutation, and value `k` of the result is the source value at the position whose coordinates are
those of position `k`, put back in the source's order of axes (`transpose_eq`). The result is sound
(`transpose_sound`), and transposing back by the inverse permutation gives the array again
(`transpose_inverse`).
-/
namespace Rearrange

open Word

section Walk

theorem getD_toArray_middle {pre : List Int} {a : Nat} (len : pre.length = a) (post : List Int)
    (x : Int) : (pre ++ x :: post).toArray.getD a 0 = x := by
  subst len
  simp [Array.getD]

theorem set!_toArray_middle {pre : List Int} {a : Nat} (len : pre.length = a) (post : List Int)
    (x v : Int) : (pre ++ x :: post).toArray.set! a v = (pre ++ v :: post).toArray := by
  subst len
  simp [Array.set!]

theorem getD_toArray_map (l : List Nat) (a : Nat) :
    (l.map Int.ofNat).toArray.getD a 0 = l.getD a 0 := by
  by_cases h : a < l.length <;> simp [Array.getD, h]

/-- One step of the walk: the position of number `k` within the first `a` axes, with its offset,
becomes the position of `k + 1`; the coordinates of the other axes stay. -/
theorem carry_rowIndex (E M : List Nat) (pos : ∀ d ∈ E, 0 < d) (c : Int) :
    ∀ (a : Nat), a ≤ E.length → ∀ (k : Nat) (rest : List Int),
      carry (E.map Int.ofNat).toArray (M.map Int.ofNat).toArray a
          (((rowIndex (E.take a) k).map Int.ofNat ++ rest).toArray,
            Word.wrapInt64 (c + weighted (rowIndex (E.take a) k) M)) =
        (((rowIndex (E.take a) (k + 1)).map Int.ofNat ++ rest).toArray,
          Word.wrapInt64 (c + weighted (rowIndex (E.take a) (k + 1)) M))
  | 0, _, k, rest => by simp [carry]
  | a + 1, ha, k, rest => by
    have lt : a < E.length := ha
    obtain ⟨d, hd⟩ : ∃ d, E[a] = d := ⟨_, rfl⟩
    have dpos : 0 < d := hd ▸ pos _ (List.getElem_mem lt)
    have take : E.take (a + 1) = E.take a ++ [d] := hd ▸ List.take_succ_eq_append_getElem lt
    have len : ∀ q, ((rowIndex (E.take a) q).map Int.ofNat).length = a := by simp; omega
    have dim : (E.map Int.ofNat).toArray.getD a 0 = d := by
      rw [getD_toArray_map, List.getD_eq_getElem _ _ lt, hd]
    rw [take, rowIndex_append_singleton, rowIndex_append_singleton, weighted_append_singleton,
      weighted_append_singleton, length_rowIndex, List.length_take, Nat.min_eq_left (by omega),
      List.map_append, List.map_append, List.append_assoc, List.append_assoc, List.map_singleton,
      List.map_singleton, List.singleton_append, List.singleton_append]
    simp only [carry]
    rw [getD_toArray_middle (len _), set!_toArray_middle (len _), set!_toArray_middle (len _), dim,
      getD_toArray_map]
    by_cases small : k % d + 1 < d
    · obtain ⟨quot, rem⟩ := succ_div_mod_of_lt small
      have small' : Int.ofNat (k % d) + 1 < d := by rw [Int.ofNat_eq_natCast]; exact_mod_cast small
      rw [if_pos small', quot, rem, length_rowIndex, List.length_take, Nat.min_eq_left (by omega)]
      refine Prod.ext (by simp) ?_
      simp only [Word.wrapInt64, Int.bmod_add_bmod]
      congr 1
      push_cast
      ring
    · have full : k % d + 1 = d := by have := Nat.mod_lt k dpos; omega
      obtain ⟨quot, rem⟩ := succ_div_mod_of_eq full
      have past : ¬ Int.ofNat (k % d) + 1 < d := by rw [Int.ofNat_eq_natCast]; exact_mod_cast small
      -- the coordinate goes back to 0 and takes its whole run off the offset
      have back : Word.wrapInt64 (Word.wrapInt64 (Word.wrapInt64
            (c + ↑(weighted (rowIndex (E.take a) (k / d)) M + k % d * M.getD a 0)) + ↑(M.getD a 0)) -
          Word.wrapInt64 ((Int.ofNat (k % d) + 1) * ↑(M.getD a 0))) =
          Word.wrapInt64 (c + weighted (rowIndex (E.take a) (k / d)) M) := by
        simp only [Word.wrapInt64, Int.bmod_add_bmod, Int.bmod_sub_bmod, Int.sub_bmod_bmod,
          Int.ofNat_eq_natCast]
        congr 1
        push_cast
        ring
      rw [if_neg past, back, carry_rowIndex E M pos c a (by omega) (k / d) (0 :: rest), quot, rem]
      simp

end Walk

section Permutations

variable {s : Shape} {perm : List Int}

/-- The check of a sorted permutation passes only when its axes are in range and none repeats:
a repeat would stand next to its first occurrence. -/
theorem permutationFault_go_none : ∀ (l : List Int) (prev : Option Int), l.Pairwise (· ≤ ·) →
    Shape.permutationFault.go s perm prev l = none →
      l.Nodup ∧ (∀ a ∈ l, 0 ≤ a ∧ a < s.rank) ∧ ∀ a, l.head? = some a → prev ≠ some a
  | [], _, _, _ => by simp
  | a :: rest, prev, sorted, h => by
    have inRange : ¬ (a < 0 ∨ s.rank ≤ a) := by
      intro out
      simp [Shape.permutationFault.go, out] at h
    have fresh : prev ≠ some a := by
      intro same
      simp [Shape.permutationFault.go, inRange, same] at h
    have next : Shape.permutationFault.go s perm (some a) rest = none := by
      simpa [Shape.permutationFault.go, inRange, fresh] using h
    obtain ⟨least, restSorted⟩ := List.pairwise_cons.1 sorted
    obtain ⟨nodup, bounds, headFresh⟩ := permutationFault_go_none rest (some a) restSorted next
    refine ⟨List.nodup_cons.2 ⟨fun mem => ?_, nodup⟩, ?_, fun b head => ?_⟩
    · -- the first element of `rest` lies between `a` and the copy of `a`
      obtain ⟨b, rest', rfl⟩ := List.exists_cons_of_ne_nil (List.ne_nil_of_mem mem)
      have below : b ≤ a := by
        rcases List.mem_cons.1 mem with same | later
        · exact same.ge
        · exact (List.pairwise_cons.1 restSorted).1 a later
      have above : a ≤ b := least b (by simp)
      exact headFresh b rfl (by rw [show a = b by omega])
    · intro b mem
      rcases List.mem_cons.1 mem with rfl | later
      · omega
      · exact bounds b later
    · simp only [List.head?_cons, Option.some.injEq] at head
      exact head ▸ fresh

/-- A permutation the shape rule accepts: its entries are the axes, each once, and the result has
the dimensions of the axes in its order. -/
theorem transpose_shape_ok {r : Shape} (h : Shape.transpose s perm = .ok r) :
    r = ⟨s.dtype, perm.map fun a => s.dims.getD a.toNat 0⟩ ∧ (∀ a ∈ perm, 0 ≤ a) ∧
      IsPerm (perm.map Int.toNat) ∧ perm.length = s.rank := by
  unfold Shape.transpose at h
  by_cases len : perm.length = s.rank
  · by_cases scalar : s.rank = 0
    · have empty : perm = [] := List.eq_nil_of_length_eq_zero (len.trans scalar)
      subst empty
      simp only [List.length_nil, ne_eq, not_true_eq_false, if_false, scalar, if_true,
        Except.ok.injEq] at h
      subst h
      have dims : s.dims = [] := List.eq_nil_of_length_eq_zero scalar
      refine ⟨by cases s; simp_all, by simp, by simp [IsPerm], by simp [scalar]⟩
    · cases fault : Shape.permutationFault s perm with
      | some m => simp [len, scalar, fault] at h
      | none =>
        simp only [len, ne_eq, not_true_eq_false, if_false, scalar, fault, Except.ok.injEq] at h
        subst h
        let le := fun a b : Int => decide (a ≤ b)
        have sorted : (perm.mergeSort le).Pairwise (· ≤ ·) :=
          (List.pairwise_mergeSort (fun a b c hab hbc => by simp [le] at *; omega)
            (fun a b => by simp [le]; omega) perm).imp (by simp [le])
        obtain ⟨nodup, bounds, -⟩ := permutationFault_go_none _ none sorted fault
        have sameMembers := List.mergeSort_perm perm le
        have inRange : ∀ a ∈ perm, 0 ≤ a ∧ a < s.rank := fun a mem => bounds a (sameMembers.mem_iff.2 mem)
        have natNodup : (perm.map Int.toNat).Nodup :=
          (sameMembers.nodup_iff.1 nodup).map_on fun a mem b mem' same => by
            have := inRange a mem
            have := inRange b mem'
            omega
        have sub : perm.map Int.toNat ⊆ List.range (perm.map Int.toNat).length := fun a mem => by
          obtain ⟨b, listed, rfl⟩ := List.mem_map.1 mem
          have := inRange b listed
          simp only [List.length_map, List.mem_range, len]
          omega
        refine ⟨rfl, fun a mem => (inRange a mem).1, ?_, len⟩
        exact (natNodup.subperm sub).perm_of_length_le (by simp)
  · simp [len] at h

end Permutations

section Values

/-- The strides of dimensions whose positions fit a word are their place values. -/
theorem strides_eq {dims : List Int} (pos : ∀ d ∈ dims, 0 < d)
    (fits : (Tensor.positionCount dims : Int) ≤ maxInt64) :
    strides dims = (placeValues (dims.map Int.toNat)).map Int.ofNat := by
  have natPos : ∀ d ∈ dims.map Int.toNat, 0 < d := by
    intro d mem
    obtain ⟨e, listed, rfl⟩ := List.mem_map.1 mem
    have := pos e listed
    omega
  rw [strides, placeValues_eq, List.map_map, List.length_map]
  refine List.map_congr_left fun a _ => ?_
  have natDims := map_toNat_ofNat fun d mem => (pos d mem).le
  have bound : (((dims.map Int.toNat).drop (a + 1)).prod : Int) ≤ maxInt64 := by
    have le := prod_drop_le natPos (a + 1)
    rw [positionCount_eq_prod pos] at fits
    omega
  -- the dimensions after the axis are those numbers again, whose product fits a word
  have tail : dims.drop (a + 1) = ((dims.map Int.toNat).drop (a + 1)).map Int.ofNat := by
    conv => lhs; rw [← natDims]
    rw [List.map_drop]
  have tailPos : ∀ d ∈ dims.drop (a + 1), 0 < d := fun d mem => pos d (List.mem_of_mem_drop mem)
  have castProd : (dims.drop (a + 1)).prod = (((dims.map Int.toNat).drop (a + 1)).prod : Int) := by
    rw [tail, Nat.cast_list_prod]
    rfl
  rw [product_eq_prod tailPos (castProd ▸ bound), castProd]
  rfl

theorem reorder_getD_ofNat (perm : List Int) (l : List Nat) :
    perm.map (fun a => (l.map Int.ofNat).getD a.toNat 0) = (reorder (perm.map Int.toNat) l).map Int.ofNat := by
  simp only [reorder, List.map_map]
  refine List.map_congr_left fun a _ => ?_
  by_cases lt : a.toNat < l.length <;> simp [List.getD_eq_getElem?_getD, lt]

theorem getD_map_range {α : Type} (f : Nat → α) (d : α) {n m : Nat} (lt : m < n) :
    ((List.range n).map f).toArray.getD m d = f m := by
  simp [Array.getD, lt]

theorem map_range_getD {α : Type} (a : Array α) (d : α) :
    ((List.range a.size).map fun k => a.getD k d).toArray = a := by
  apply Array.ext
  · simp
  · intro i h₁ h₂
    simp [Array.getD, h₂]

/-- The walk after `n` steps: the position of number `n` of the result with the offset of its
source value, and the values read so far. -/
def walkState (E M : List Nat) (x : Tensor) (n : Nat) : (Array Int × Int) × Array Float :=
  ((((rowIndex E n).map Int.ofNat).toArray, wrapInt64 (weighted (rowIndex E n) M)),
    ((List.range n).map fun k => x.flat.getD (weighted (rowIndex E k) M) 0).toArray)

theorem transpose_dims {x : Tensor} (sound : x.Sound) {perm : List Int} {r : Shape}
    (h : Shape.transpose x.shape perm = .ok r) :
    r.dims = (reorder (perm.map Int.toNat) (x.shape.dims.map Int.toNat)).map Int.ofNat := by
  obtain ⟨shape, -, -, -⟩ := transpose_shape_ok h
  rw [shape, ← reorder_getD_ofNat, sound.dims_eq]

theorem transpose_eq {x : Tensor} (sound : x.Sound) {perm : List Int} {r : Shape}
    (h : Shape.transpose x.shape perm = .ok r) :
    x.transpose perm = .ok ⟨r, ((List.range x.flat.size).map fun k =>
      x.flat.getD (rowNumber (x.shape.dims.map Int.toNat)
        (reorder (inversePerm (perm.map Int.toNat)) (rowIndex (r.dims.map Int.toNat) k))) 0).toArray, 0⟩ := by
  obtain ⟨-, -, isPerm, len⟩ := transpose_shape_ok h
  have rdims := transpose_dims sound h
  have moved : perm.map (fun p => (strides x.shape.dims).getD p.toNat 0) =
      (reorder (perm.map Int.toNat) (placeValues (x.shape.dims.map Int.toNat))).map Int.ofNat := by
    rw [strides_eq sound.pos (sound.count ▸ sound.fits), reorder_getD_ofNat]
  have Dpos := sound.natDims_pos
  have Dprod := sound.prod
  have Dlen : (x.shape.dims.map Int.toNat).length = (perm.map Int.toNat).length := by
    simp [len, Shape.rank]
  generalize x.shape.dims.map Int.toNat = D at rdims moved Dpos Dprod Dlen
  have Eback : r.dims.map Int.toNat = reorder (perm.map Int.toNat) D := by
    rw [rdims, map_ofNat_toNat]
  set P := perm.map Int.toNat
  set E := reorder P D with hE
  set M := reorder P (placeValues D) with hM
  have Epos : ∀ d ∈ E, 0 < d := fun d mem => Dpos d (isPerm.mem_reorder Dlen mem)
  have inside : ∀ k, weighted (rowIndex E k) M < x.flat.size := by
    intro k
    have bounds := isPerm.inverse.inBounds_reorder (by simp [E]) (rowIndex_inBounds Epos k)
    rw [hE, isPerm.reorder_inverse Dlen] at bounds
    rw [hM, isPerm.weighted_placeValues Dlen (by simp [E]), ← Dprod]
    exact rowNumber_lt bounds
  have start : ((Array.replicate (E.map Int.ofNat).length 0, 0), #[]) = walkState E M x 0 := by
    simp [walkState, rowIndex_zero, weighted_replicate_zero, wrapInt64]
  rw [Eback]
  simp only [Tensor.transpose, h, bind, Except.bind, moved, rdims, List.size_toArray]
  rw [start, forIn_range_eq _ (walkState E M x) _ fun k _ => ?_]
  · simp only [walkState, pure, Except.pure, Except.ok.injEq, Tensor.mk.injEq, true_and, and_true]
    congr 1
    refine List.map_congr_left fun k _ => ?_
    rw [hM, isPerm.weighted_placeValues Dlen (by simp [E])]
  · have offset : (walkState E M x k).1.2 = ((weighted (rowIndex E k) M : Nat) : Int) := by
      have below := inside k
      have fits := sound.fits
      have nonneg : (0 : Int) ≤ (weighted (rowIndex E k) M : Nat) := Int.natCast_nonneg _
      have small : ((weighted (rowIndex E k) M : Nat) : Int) ≤ maxInt64 :=
        le_trans (Int.ofNat_le.2 below.le) fits
      simp only [walkState]
      exact wrapInt64_of_le nonneg small
    have next := carry_rowIndex E M Epos 0 E.length (Nat.le_refl _) k []
    simp only [List.take_length, List.append_nil, Int.zero_add] at next
    rw [offset, Tensor.stored_of_lt (inside k), List.length_map]
    simp only [pure, Except.pure, Except.ok.injEq, ForInStep.yield.injEq]
    rw [show (walkState E M x k).1 = (((rowIndex E k).map Int.ofNat).toArray,
      wrapInt64 (weighted (rowIndex E k) M)) from rfl, next]
    simp [walkState, List.range_succ]

/-- The values of an array of dimensions `D`, in row-major order, once its axes are put in the
order `perm`: value `k` is the one whose coordinates are those of position `k` under the permuted
dimensions, put back in the order of `D`. -/
def permuteValues (D perm : List Nat) (flat : Array Float) : Array Float :=
  ((List.range flat.size).map fun k =>
    flat.getD (rowNumber D (reorder (inversePerm perm) (rowIndex (reorder perm D) k))) 0).toArray

@[simp] theorem size_permuteValues (D perm : List Nat) (flat : Array Float) :
    (permuteValues D perm flat).size = flat.size := by
  simp [permuteValues]

theorem transpose_eq_permuteValues {x : Tensor} (sound : x.Sound) {perm : List Int} {r : Shape}
    (h : Shape.transpose x.shape perm = .ok r) :
    x.transpose perm =
      .ok ⟨r, permuteValues (x.shape.dims.map Int.toNat) (perm.map Int.toNat) x.flat, 0⟩ := by
  rw [transpose_eq sound h, transpose_dims sound h, map_ofNat_toNat]
  rfl

theorem getD_permuteValues {D perm : List Nat} {flat : Array Float} {k : Nat} (lt : k < flat.size) :
    (permuteValues D perm flat).getD k 0 =
      flat.getD (rowNumber D (reorder (inversePerm perm) (rowIndex (reorder perm D) k))) 0 :=
  getD_map_range _ _ lt

theorem reorder_range {l : List Nat} {n : Nat} (len : l.length = n) : reorder (List.range n) l = l :=
  List.ext_getElem (by simp [reorder, len]) fun j h₁ h₂ => by
    simp [reorder, List.getElem?_eq_getElem h₂]

theorem inversePerm_range (n : Nat) : inversePerm (List.range n) = List.range n :=
  List.ext_getElem (by simp [inversePerm]) fun j h₁ h₂ => by
    have own := List.nodup_range.idxOf_getElem j (by simpa using h₂)
    rw [List.getElem_range] at own
    simpa [inversePerm] using own

theorem permuteValues_range {D : List Nat} {flat : Array Float} (size : flat.size = D.prod) :
    permuteValues D (List.range D.length) flat = flat := by
  rw [permuteValues, reorder_range rfl, inversePerm_range]
  conv => rhs; rw [← map_range_getD flat 0]
  congr 1
  refine List.map_congr_left fun k mem => ?_
  rw [reorder_range (length_rowIndex k), rowNumber_rowIndex (size ▸ List.mem_range.1 mem)]

/-- Putting the axes in the order `perm` and then in the inverse order gives the values again. -/
theorem permuteValues_inverse {D perm : List Nat} (isPerm : IsPerm perm) (len : D.length = perm.length)
    (pos : ∀ d ∈ D, 0 < d) {flat : Array Float} (size : flat.size = D.prod) :
    permuteValues (reorder perm D) (inversePerm perm) (permuteValues D perm flat) = flat := by
  rw [permuteValues, isPerm.reorder_inverse len, isPerm.inversePerm_inversePerm, size_permuteValues]
  conv => rhs; rw [← map_range_getD flat 0]
  congr 1
  -- value `k` is read back from the position the first permutation moved it to
  refine List.map_congr_left fun k mem => ?_
  have lt : k < D.prod := size ▸ List.mem_range.1 mem
  have bounds := isPerm.inBounds_reorder len (rowIndex_inBounds pos k)
  have moved : rowNumber (reorder perm D) (reorder perm (rowIndex D k)) < flat.size := by
    have := rowNumber_lt bounds
    rwa [isPerm.prod_reorder len, ← size] at this
  rw [getD_permuteValues moved, rowIndex_rowNumber bounds,
    isPerm.reorder_inverse ((length_rowIndex k).trans len), rowNumber_rowIndex lt]

theorem transpose_shape_of_ok {x y : Tensor} {perm : List Int} (h : x.transpose perm = .ok y) :
    Shape.transpose x.shape perm = .ok y.shape := by
  cases rule : Shape.transpose x.shape perm with
  | error f => simp [Tensor.transpose, rule, bind, Except.bind] at h
  | ok r =>
    simp only [Tensor.transpose, rule, bind, Except.bind] at h
    split at h
    · cases h
    · cases h
      rfl

/-- Transposing a sound array gives a sound array. -/
theorem transpose_sound {x y : Tensor} (sound : x.Sound) {perm : List Int}
    (h : x.transpose perm = .ok y) : y.Sound := by
  have rule := transpose_shape_of_ok h
  obtain ⟨-, -, isPerm, len⟩ := transpose_shape_ok rule
  have rdims := transpose_dims sound rule
  rw [transpose_eq sound rule] at h
  have size : y.flat.size = x.flat.size := by
    rw [← congrArg Tensor.flat (Except.ok.inj h)]
    simp
  have Dlen : (x.shape.dims.map Int.toNat).length = (perm.map Int.toNat).length := by
    simp [len, Shape.rank]
  have natDims : y.shape.dims.map Int.toNat =
      reorder (perm.map Int.toNat) (x.shape.dims.map Int.toNat) := by
    rw [rdims, map_ofNat_toNat]
  have pos : ∀ d ∈ y.shape.dims, 0 < d := by
    intro d mem
    rw [rdims] at mem
    obtain ⟨n, listed, rfl⟩ := List.mem_map.1 mem
    have := sound.natDims_pos n (isPerm.mem_reorder Dlen listed)
    rw [Int.ofNat_eq_natCast]
    omega
  refine ⟨pos, ?_, size ▸ sound.fits⟩
  rw [positionCount_eq_prod pos, natDims, isPerm.prod_reorder Dlen, sound.prod, size]

/-- Transposing a sound array and then transposing back by the inverse permutation gives its
shape and its values again. -/
theorem transpose_inverse {x y z : Tensor} (sound : x.Sound) {perm perm' : List Int}
    (there : x.transpose perm = .ok y) (back : y.transpose perm' = .ok z)
    (undo : perm'.map Int.toNat = inversePerm (perm.map Int.toNat)) :
    z.shape = x.shape ∧ z.flat = x.flat := by
  have ruleY := transpose_shape_of_ok there
  have ruleZ := transpose_shape_of_ok back
  have soundY := transpose_sound sound there
  obtain ⟨shapeY, -, isPerm, len⟩ := transpose_shape_ok ruleY
  obtain ⟨shapeZ, -, -, -⟩ := transpose_shape_ok ruleZ
  have Dlen : (x.shape.dims.map Int.toNat).length = (perm.map Int.toNat).length := by
    simp [len, Shape.rank]
  have dimsY : y.shape.dims.map Int.toNat = reorder (perm.map Int.toNat) (x.shape.dims.map Int.toNat) := by
    rw [transpose_dims sound ruleY, map_ofNat_toNat]
  have dimsZ : z.shape.dims = x.shape.dims := by
    rw [transpose_dims soundY ruleZ, dimsY, undo, isPerm.reorder_inverse Dlen, sound.dims_eq]
  have dtypeZ : z.shape.dtype = x.shape.dtype := by
    rw [shapeZ]
    simp [shapeY]
  refine ⟨show (⟨z.shape.dtype, z.shape.dims⟩ : Shape) = x.shape by rw [dtypeZ, dimsZ], ?_⟩
  have flatZ := congrArg Tensor.flat (Except.ok.inj ((transpose_eq_permuteValues soundY ruleZ).symm.trans back))
  have flatY := congrArg Tensor.flat (Except.ok.inj ((transpose_eq_permuteValues sound ruleY).symm.trans there))
  simp only at flatZ flatY
  rw [← flatZ, ← flatY, dimsY, undo]
  exact permuteValues_inverse isPerm Dlen sound.natDims_pos sound.prod.symm

end Values

end Rearrange
