import Rearrange.Proofs.Operations
import Rearrange.Tensor.Backend
/-!
# Running a rearrangement

A plan that rearranges one input reshapes it into finer axes, permutes the axes and reshapes
the result into the output's dimensions; each of the three steps is left out where it would
change nothing. A reshape keeps the values of an array and a transposition permutes them
(`permuteValues`), so on a sound array the three steps end with the input's values in the new
order of its axes (`runs_rearranging`).

`Runs steps x y` says that the steps take the single array `x` to the single array `y`, whatever
the step counter and the pattern named in failures; runs compose along the steps (`Runs.append`).
-/
namespace Rearrange

open Word

section Rules

theorem Shape.isIdentityPermutation_eq {perm : List Int} (h : Shape.isIdentityPermutation perm = true) :
    perm = (List.range perm.length).map Int.ofNat := by
  refine List.ext_getElem (by simp) fun j h₁ _ => ?_
  have listed : (perm[j], j) ∈ perm.zipIdx := List.mem_zipIdx_iff_getElem?.2 (by simp [h₁])
  have := List.all_eq_true.1 h _ listed
  simpa using this

variable {s : Shape} {perm : List Int}

/-- The axes in increasing order pass the check of a sorted permutation. -/
theorem permutationFault_go_range : ∀ (m k : Nat) (prev : Option Int), prev ≠ some (k : Int) →
    k + m ≤ s.rank → Shape.permutationFault.go s perm prev ((List.range' k m).map Int.ofNat) = none
  | 0, _, _, _, _ => rfl
  | m + 1, k, prev, fresh, le => by
    have next := permutationFault_go_range m (k + 1) (some (k : Int)) (by simp) (by omega)
    simp only [List.range'_succ, List.map_cons, Shape.permutationFault.go]
    split
    · rename_i out
      simp only [Int.ofNat_eq_natCast, Bool.or_eq_true, decide_eq_true_eq] at out
      omega
    split
    · rename_i same
      exact absurd same fresh
    exact next

/-- The shape rule accepts every permutation of the axes. -/
theorem transpose_shape_eq_ok (nonneg : ∀ a ∈ perm, 0 ≤ a) (isPerm : IsPerm (perm.map Int.toNat))
    (len : perm.length = s.rank) :
    Shape.transpose s perm = .ok ⟨s.dtype, perm.map fun a => s.dims.getD a.toNat 0⟩ := by
  unfold Shape.transpose
  by_cases scalar : s.rank = 0
  · have empty : perm = [] := List.eq_nil_of_length_eq_zero (len.trans scalar)
    have dims : s.dims = [] := List.eq_nil_of_length_eq_zero scalar
    subst empty
    simp only [List.length_nil, scalar, ne_eq, not_true_eq_false, if_false, if_true, List.map_nil]
    cases s
    simp_all
  have asInts : perm.Perm ((List.range perm.length).map Int.ofNat) := by
    have back : (perm.map Int.toNat).map Int.ofNat = perm := map_toNat_ofNat nonneg
    rw [← back]
    simpa using isPerm.map Int.ofNat
  let le := fun a b : Int => decide (a ≤ b)
  have sorted : (perm.mergeSort le).Pairwise (· ≤ ·) :=
    (List.pairwise_mergeSort (fun a b c hab hbc => by simp [le] at *; omega)
      (fun a b => by simp [le]; omega) perm).imp (by simp [le])
  have rangeSorted : ((List.range perm.length).map Int.ofNat).Pairwise (· ≤ ·) := by
    rw [List.pairwise_map]
    exact List.pairwise_lt_range.imp fun lt => by simp only [Int.ofNat_eq_natCast]; omega
  have isRange : perm.mergeSort le = (List.range' 0 perm.length).map Int.ofNat := by
    rw [← List.range_eq_range']
    exact ((List.mergeSort_perm perm le).trans asInts).eq_of_pairwise' sorted rangeSorted
  have fault : Shape.permutationFault s perm = none := by
    unfold Shape.permutationFault
    rw [isRange]
    exact permutationFault_go_range _ 0 none (by simp) (by omega)
  simp [len, scalar, fault, Shape.withDims]

end Rules

namespace Plan

/-- Running the steps of `s ++ t` runs those of `s`, then those of `t` from where they stopped. -/
theorem runSteps_append {α : Type} (b : Backend α) (pattern : String) :
    ∀ (i : Nat) (s t : List Step) (values : List α),
      runSteps b pattern i (s ++ t) values =
        (runSteps b pattern i s values).bind (runSteps b pattern (i + s.length) t)
  | i, [], t, values => by simp [runSteps, Except.bind]
  | i, st :: s, t, values => by
    simp only [List.cons_append, runSteps]
    cases applyStep b st values with
    | ok next =>
      simp only
      rw [runSteps_append b pattern (i + 1) s t next]
      simp [Nat.add_assoc, Nat.add_comm 1]
    | error f => rfl

/-- The steps take the single array `x` to the single array `y`. -/
def Runs (steps : List Step) (x y : Tensor) : Prop :=
  ∀ pattern i, runSteps Tensor.backend pattern i steps [x] = .ok [y]

namespace Runs

variable {s t : List Step} {x y z : Tensor}

theorem nil (x : Tensor) : Runs [] x x := fun _ _ => rfl

theorem append (first : Runs s x y) (second : Runs t y z) : Runs (s ++ t) x z := fun pattern i => by
  rw [runSteps_append, first pattern i]
  exact second pattern _

theorem single {st : Step} (h : applyStep Tensor.backend st [x] = .ok [y]) : Runs [st] x y :=
  fun pattern i => by simp [runSteps, h]

end Runs

variable {x : Tensor}

theorem applyStep_reshape {st : Step}
    (kind : (st.kind = .reshapeSplit ∧ st.input = 0) ∨ st.kind = .reshapeMerge)
    (valid : x.shape.ok = true) (pos : ∀ d ∈ st.dims, 0 < d)
    (same : product st.dims = product x.shape.dims) :
    applyStep Tensor.backend st [x] = .ok [{ x with shape := ⟨x.shape.dtype, st.dims⟩ }] := by
  have reshaped := Tensor.reshape_eq_ok valid pos same
  rcases kind with ⟨split, input⟩ | merge
  · simp [applyStep, split, input, operandAt, Tensor.backend, reshaped, bind, Except.bind, pure,
      Except.pure]
  · simp [applyStep, merge, operandAt, Tensor.backend, reshaped, bind, Except.bind, pure,
      Except.pure]

theorem applyStep_permute {st : Step} (kind : st.kind = .permute) (sound : x.Sound) {r : Shape}
    (rule : Shape.transpose x.shape st.permutation = .ok r) :
    applyStep Tensor.backend st [x] = .ok [⟨r, permuteValues (x.shape.dims.map Int.toNat)
      (st.permutation.map Int.toNat) x.flat, 0⟩] := by
  have transposed := transpose_eq_permuteValues sound rule
  simp [applyStep, kind, operandAt, Tensor.backend, transposed, bind, Except.bind, pure, Except.pure]

/-- The part of a plan that splits its input, of shape `s`, into the dimensions `S`: one reshape,
or nothing when the input has those dimensions already. -/
def SplitsInto (steps : List Step) (s : Shape) (S : List Int) : Prop :=
  (steps = [] ∧ S = s.dims) ∨
    ∃ st, steps = [st] ∧ st.kind = .reshapeSplit ∧ st.input = 0 ∧ st.dims = S

/-- The part of a plan that puts the axes in the order `perm`: one permutation, or nothing when
`perm` keeps every axis in place. -/
def PermutesBy (steps : List Step) (perm : List Int) : Prop :=
  (steps = [] ∧ perm = (List.range perm.length).map Int.ofNat) ∨
    ∃ st, steps = [st] ∧ st.kind = .permute ∧ st.permutation = perm

/-- The part of a plan that merges the dimensions `P` into `M`: one reshape, or nothing when
they are the same. -/
def MergesInto (steps : List Step) (P M : List Int) : Prop :=
  (steps = [] ∧ M = P) ∨ ∃ st, steps = [st] ∧ st.kind = .reshapeMerge ∧ st.dims = M

section Rearranging

variable {S M perm : List Int} {splitting permuting merging : List Step}

theorem reshaped_sound (sound : x.Sound) (pos : ∀ d ∈ S, 0 < d)
    (count : Tensor.positionCount S = Tensor.positionCount x.shape.dims) :
    ({ x with shape := ⟨x.shape.dtype, S⟩ } : Tensor).Sound :=
  ⟨pos, count.trans sound.count, sound.fits⟩

theorem reshape_product (sound : x.Sound) (pos : ∀ d ∈ S, 0 < d)
    (count : Tensor.positionCount S = Tensor.positionCount x.shape.dims) :
    product S = product x.shape.dims := by
  have fits : (Tensor.positionCount S : Int) ≤ maxInt64 := by
    rw [count, sound.count]
    exact sound.fits
  rw [product_of_count pos fits, count, sound.product, sound.count]

theorem runs_reshape (sound : x.Sound) (valid : x.shape.ok = true) {steps : List Step}
    (split : SplitsInto steps x.shape S ∨ MergesInto steps x.shape.dims S) (pos : ∀ d ∈ S, 0 < d)
    (count : Tensor.positionCount S = Tensor.positionCount x.shape.dims) :
    Runs steps x { x with shape := ⟨x.shape.dtype, S⟩ } := by
  have same := reshape_product sound pos count
  unfold SplitsInto MergesInto at split
  rcases split with (⟨rfl, rfl⟩ | ⟨st, rfl, kind, input, rfl⟩) | (⟨rfl, rfl⟩ | ⟨st, rfl, kind, rfl⟩)
  · exact Runs.nil x
  · exact Runs.single (applyStep_reshape (.inl ⟨kind, input⟩) valid pos same)
  · exact Runs.nil x
  · exact Runs.single (applyStep_reshape (.inr kind) valid pos same)

/-- On a sound array, a split, a permutation and a merge end with the values of the array in the
new order of its axes, under the merged dimensions. -/
theorem runs_rearranging (sound : x.Sound) (valid : x.shape.ok = true)
    (split : SplitsInto splitting x.shape S) (splitPos : ∀ d ∈ S, 0 < d)
    (splitCount : Tensor.positionCount S = Tensor.positionCount x.shape.dims)
    (permute : PermutesBy permuting perm) (nonneg : ∀ a ∈ perm, 0 ≤ a)
    (isPerm : IsPerm (perm.map Int.toNat)) (len : perm.length = S.length)
    (merge : MergesInto merging (perm.map fun a => S.getD a.toNat 0) M) (mergePos : ∀ d ∈ M, 0 < d)
    (mergeCount : Tensor.positionCount M = Tensor.positionCount S) :
    ∃ y, Runs (splitting ++ permuting ++ merging) x y ∧ y.shape = ⟨x.shape.dtype, M⟩ ∧
      y.flat = permuteValues (S.map Int.toNat) (perm.map Int.toNat) x.flat := by
  have splitRuns := runs_reshape sound valid (.inl split) splitPos splitCount
  have splitSound := reshaped_sound sound splitPos splitCount
  set x₁ : Tensor := { x with shape := ⟨x.shape.dtype, S⟩ }
  set P := perm.map fun a => S.getD a.toNat 0
  have rule : Shape.transpose x₁.shape perm = .ok ⟨x.shape.dtype, P⟩ :=
    transpose_shape_eq_ok nonneg isPerm (by simpa [Shape.rank] using len)
  have permuted : ∃ x₂, Runs permuting x₁ x₂ ∧ x₂.Sound ∧ x₂.shape = ⟨x.shape.dtype, P⟩ ∧
      x₂.flat = permuteValues (S.map Int.toNat) (perm.map Int.toNat) x.flat := by
    rcases permute with ⟨rfl, identity⟩ | ⟨st, rfl, kind, rfl⟩
    · have keep : P = S := by
        rw [show P = perm.map fun a => S.getD a.toNat 0 from rfl, identity]
        refine List.ext_getElem (by simp [len]) fun j h₁ h₂ => ?_
        simp [List.getElem?_eq_getElem h₂]
      have inOrder : perm.map Int.toNat = List.range (S.map Int.toNat).length := by
        conv => lhs; rw [identity]
        simp [Function.comp_def, len]
      refine ⟨x₁, Runs.nil x₁, splitSound, by rw [keep], ?_⟩
      rw [inOrder, permuteValues_range]
      rw [← positionCount_eq_prod splitPos, splitCount, sound.count]
    · have applied := applyStep_permute kind splitSound rule
      exact ⟨_, Runs.single applied, transpose_sound splitSound (transpose_eq_permuteValues splitSound rule),
        rfl, rfl⟩
  obtain ⟨x₂, permuteRuns, permutedSound, permutedShape, permutedFlat⟩ := permuted
  have Ppos : ∀ d ∈ P, 0 < d := fun d mem => by
    have := permutedSound.pos
    rw [permutedShape] at this
    exact this d mem
  have Pcount : Tensor.positionCount M = Tensor.positionCount x₂.shape.dims := by
    rw [permutedShape]
    have counted := permutedSound.count
    rw [permutedShape] at counted
    rw [counted, mergeCount, splitCount, sound.count]
    simp [permutedFlat]
  have merged := runs_reshape permutedSound (by rw [permutedShape]; exact valid)
    (.inr (by rw [permutedShape]; exact merge)) mergePos Pcount
  refine ⟨_, (splitRuns.append permuteRuns).append merged, ?_, permutedFlat⟩
  simp [permutedShape]

end Rearranging

theorem Shape.same_self (s : Shape) : s.same s = true := by
  simp [Shape.same, Shape.sameDims]

theorem apply_of_runs {p : Plan} {y : Tensor} (inputs : p.inputs = [x.shape]) (runs : Runs p.steps x y)
    (output : y.shape = p.output) : p.apply Tensor.backend [x] = .ok y := by
  have ran := runs p.pattern 0
  simp only [apply, ran]
  simp [checkInputs, inputs, ← output, Shape.same_self, Tensor.backend, bind, Except.bind, pure,
    Except.pure]

end Plan

end Rearrange
