import Rearrange.Proofs.OutputLayout
/-!
# Element counts in the shape rules

A reshape and a merge must keep the number of elements of their operand. A merge does: its groups
must cover the operand's axes in order (`CoversFrom`), and each group's dimension is the product
of the dimensions it covers, so the merged dimensions multiply to the operand's element count
(`merge_ok_iff`, `merge_counts`). Since no part of a product of positive dimensions exceeds the
whole, none of these products wraps around.

A reshape compares counts as signed 64-bit words instead: it accepts positive dimensions whose
product, wrapped to a word, is the operand's element count (`reshape_ok_iff`). This is the exact
count only when the product fits a word; dimensions multiplying to `2^64 + 6` are a reshape of
six elements (`reshape_accepts_wrapped_count`).
-/
namespace Rearrange.Shape

open Word

/-- Groups cover the axes from `start` up to `rank` in order: each begins where the previous one
ended, ends no earlier than it begins and no later than the rank, and the last one ends at the
rank. -/
def CoversFrom (rank : Nat) : Int → List (Int × Int) → Prop
  | start, [] => start = rank
  | start, (a, b) :: rest => a = start ∧ a ≤ b ∧ b ≤ rank ∧ CoversFrom rank b rest

theorem CoversFrom.within {rank : Nat} : ∀ {start : Int} {gs : List (Int × Int)}, 0 ≤ start →
    CoversFrom rank start gs → ∀ g ∈ gs, 0 ≤ g.1 ∧ g.1 ≤ g.2 ∧ g.2 ≤ rank
  | _, [], _, _ => by simp
  | _, (a, b) :: rest, nonneg, covers => by
    obtain ⟨rfl, ordered, within, later⟩ := covers
    intro g mem
    rcases List.mem_cons.1 mem with rfl | inRest
    · exact ⟨nonneg, ordered, within⟩
    · exact CoversFrom.within (by omega) later g inRest

/-- The dimensions from axis `a` up to axis `b`. -/
def slice (dims : List Int) (g : Int × Int) : List Int := (dims.drop g.1.toNat).take (g.2.toNat - g.1.toNat)

section Merge

variable (s : Shape)

theorem merge_go_ok (groups : List (Int × Int)) : ∀ (gs : List (Int × Int)) (i : Nat) (next : Int)
    (acc : List Int), CoversFrom s.rank next gs →
    merge.go s groups i next gs acc =
      .ok (s.withDims (acc.reverse ++ gs.map fun g => runDim s.dims g.1.toNat g.2.toNat))
  | [], i, next, acc, covers => by
    simp only [CoversFrom] at covers
    simp [merge.go, covers]
  | (a, b) :: rest, i, next, acc, covers => by
    obtain ⟨rfl, ordered, within, covers⟩ := covers
    rw [merge.go, if_neg (by simp [ordered, within]), merge_go_ok groups rest (i + 1) b _ covers]
    simp

/-- Merging by groups that do not cover the remaining axes fails. -/
theorem merge_go_error (groups : List (Int × Int)) : ∀ (gs : List (Int × Int)) (i : Nat) (next : Int)
    (acc : List Int), ¬ CoversFrom s.rank next gs → ∃ f, merge.go s groups i next gs acc = .error f
  | [], i, next, acc, uncovered => by
    simp only [CoversFrom] at uncovered
    simp [merge.go, uncovered]
  | (a, b) :: rest, i, next, acc, uncovered => by
    rw [merge.go]
    by_cases accepted : a = next ∧ a ≤ b ∧ b ≤ s.rank
    · -- the group is accepted, so the groups after it are the ones that fail
      obtain ⟨rfl, ordered, within⟩ := accepted
      have later : ¬ CoversFrom s.rank b rest := fun covers => uncovered ⟨rfl, ordered, within, covers⟩
      rw [if_neg (by simp [ordered, within])]
      exact merge_go_error groups rest (i + 1) b _ later
    · rw [if_pos (by simp only [Bool.or_eq_true, decide_eq_true_eq]; omega)]
      exact ⟨_, rfl⟩

theorem merge_ok_iff (groups : List (Int × Int)) :
    (∃ r, s.merge groups = .ok r) ↔ CoversFrom s.rank 0 groups := by
  constructor
  · rintro ⟨r, merged⟩
    by_contra uncovered
    obtain ⟨f, failed⟩ := merge_go_error s groups groups 0 0 [] uncovered
    rw [merge, failed] at merged
    cases merged
  · intro covers
    exact ⟨_, merge_go_ok s groups groups 0 0 [] covers⟩

end Merge

section Slices

variable {dims : List Int}

/-- The slices of groups covering the axes from `start` multiply to the dimensions from `start`. -/
theorem prod_slices : ∀ (gs : List (Int × Int)) (start : Int), 0 ≤ start →
    CoversFrom dims.length start gs → (gs.map (fun g => (slice dims g).prod)).prod = (dims.drop start.toNat).prod
  | [], start, _, covers => by
    simp only [CoversFrom] at covers
    simp [covers]
  | (a, b) :: rest, start, nonneg, covers => by
    obtain ⟨rfl, ordered, within, covers⟩ := covers
    have split : dims.drop a.toNat = slice dims (a, b) ++ dims.drop b.toNat := by
      have later : dims.drop b.toNat = (dims.drop a.toNat).drop (b.toNat - a.toNat) := by
        rw [List.drop_drop]
        congr 1
        omega
      rw [later, slice, List.take_append_drop]
    rw [List.map_cons, List.prod_cons, prod_slices rest b (by omega) covers, split, List.prod_append]

theorem slice_prod_pos (pos : ∀ d ∈ dims, 0 < d) (g : Int × Int) : 0 < (slice dims g).prod :=
  List.prod_pos fun d mem => pos d (List.mem_of_mem_drop (List.mem_of_mem_take mem))

end Slices

/-- The dimensions a merge returns are the exact products of the dimensions of its groups: they are
positive and multiply to the operand's element count, an empty group giving 1. -/
theorem merge_counts {s r : Shape} {groups : List (Int × Int)} (pos : ∀ d ∈ s.dims, 0 < d)
    (fits : s.dims.prod ≤ maxInt64) (merged : s.merge groups = .ok r) :
    r.dtype = s.dtype ∧ r.dims = groups.map (fun g => (slice s.dims g).prod) ∧
      (∀ d ∈ r.dims, 0 < d) ∧ r.dims.prod = s.dims.prod := by
  have covers : CoversFrom s.rank 0 groups := (merge_ok_iff s groups).1 ⟨r, merged⟩
  rw [merge, merge_go_ok s groups groups 0 0 [] covers] at merged
  cases merged
  have dims : (groups.map fun g => runDim s.dims g.1.toNat g.2.toNat) =
      groups.map (fun g => (slice s.dims g).prod) := by
    refine List.map_congr_left fun g _ => ?_
    rw [Plan.runDim_eq_prod pos fits, slice]
  refine ⟨rfl, by simp [withDims, dims], ?_, ?_⟩
  · simp only [withDims, List.reverse_nil, List.nil_append, dims, List.mem_map]
    rintro d ⟨g, -, rfl⟩
    exact slice_prod_pos pos g
  · simpa [withDims, dims] using prod_slices groups 0 le_rfl covers

/-- A reshape succeeds exactly when every new dimension is positive and their product, wrapped to a
signed 64-bit word, is the operand's element count; it then keeps the element type and takes the
new dimensions. -/
theorem reshape_ok_iff {s : Shape} (valid : s.ok = true) (dims : List Int) :
    (∃ r, s.reshape dims = .ok r) ↔ (∀ d ∈ dims, 0 < d) ∧ wrapInt64 dims.prod = s.size := by
  have wrapped : product dims = wrapInt64 dims.prod := by
    rw [Word.product, List.prod_eq_foldl]
  unfold reshape
  simp only [valid, Bool.not_true, Bool.false_eq_true, if_false]
  split
  · rename_i d axis found
    have flagged : d ≤ 0 := by simpa using List.find?_some found
    have notPos : ¬ ∀ d ∈ dims, 0 < d := fun pos => by
      have := pos d (List.fst_mem_of_mem_zipIdx (List.mem_of_find?_eq_some found))
      omega
    simp [notPos]
  · rename_i found
    have pos : ∀ d ∈ dims, 0 < d := by
      intro d mem
      obtain ⟨i, hi⟩ := List.mem_iff_getElem.1 mem
      have := List.find?_eq_none.1 found (d, i) (by simp [List.mem_zipIdx_iff_getElem?, ← hi.2])
      simpa using this
    rw [← wrapped]
    by_cases same : product dims = s.size
    · rw [if_neg (not_not.2 same)]
      exact ⟨fun _ => ⟨pos, same⟩, fun _ => ⟨_, rfl⟩⟩
    · rw [if_pos same]
      constructor
      · rintro ⟨_, failed⟩
        cases failed
      · rintro ⟨-, counted⟩
        exact absurd counted same

/-- Element counts in the shape rules, for an operand of a valid element type with positive
dimensions whose exact product fits a signed 64-bit word: a reshape accepts positive dimensions
whose product wraps to the operand's count, and a merge accepts exactly groups covering the axes in
order and returns positive dimensions with the operand's exact count. -/
theorem reshape_merge_counts (s : Shape) (valid : s.ok = true) (pos : ∀ d ∈ s.dims, 0 < d)
    (fits : s.dims.prod ≤ maxInt64) :
    (∀ dims : List Int, (∃ r, s.reshape dims = .ok r) ↔
      (∀ d ∈ dims, 0 < d) ∧ wrapInt64 dims.prod = s.dims.prod) ∧
    (∀ groups : List (Int × Int), (∃ r, s.merge groups = .ok r) ↔ CoversFrom s.rank 0 groups) ∧
    (∀ (groups : List (Int × Int)) (r : Shape), s.merge groups = .ok r →
      (∀ d ∈ r.dims, 0 < d) ∧ r.dims.prod = s.dims.prod) := by
  have count : s.size = s.dims.prod := product_eq_prod pos fits
  refine ⟨fun dims => ?_, merge_ok_iff s, fun groups r merged => ?_⟩
  · rw [← count]
    exact reshape_ok_iff valid dims
  · obtain ⟨-, -, positive, product⟩ := merge_counts pos fits merged
    exact ⟨positive, product⟩

theorem reshape_merge_counts_sample :
    (⟨.float32, [2, 3, 4]⟩ : Shape).ok = true ∧ (∀ d ∈ (⟨.float32, [2, 3, 4]⟩ : Shape).dims, 0 < d) ∧
      (⟨.float32, [2, 3, 4]⟩ : Shape).dims.prod ≤ maxInt64 ∧
    ((∀ dims : List Int, (∃ r, (⟨.float32, [2, 3, 4]⟩ : Shape).reshape dims = .ok r) ↔
      (∀ d ∈ dims, 0 < d) ∧ wrapInt64 dims.prod = (⟨.float32, [2, 3, 4]⟩ : Shape).dims.prod) ∧
    (∀ groups : List (Int × Int), (∃ r, (⟨.float32, [2, 3, 4]⟩ : Shape).merge groups = .ok r) ↔
      CoversFrom (⟨.float32, [2, 3, 4]⟩ : Shape).rank 0 groups) ∧
    (∀ (groups : List (Int × Int)) (r : Shape), (⟨.float32, [2, 3, 4]⟩ : Shape).merge groups = .ok r →
      (∀ d ∈ r.dims, 0 < d) ∧ r.dims.prod = (⟨.float32, [2, 3, 4]⟩ : Shape).dims.prod)) :=
  ⟨by decide, by decide, by decide,
    reshape_merge_counts ⟨.float32, [2, 3, 4]⟩ (by decide) (by decide) (by decide)⟩

/-- Dimensions `[22, 838488366986797801]` multiply to `2^64 + 6`, and a reshape of six elements
accepts them: their product wraps around to 6. -/
theorem reshape_accepts_wrapped_count :
    (⟨.float32, [6]⟩ : Shape).reshape [22, 838488366986797801] = .ok ⟨.float32, [22, 838488366986797801]⟩ ∧
      ([22, 838488366986797801] : List Int).prod = 18446744073709551622 ∧
      (⟨.float32, [6]⟩ : Shape).dims.prod = 6 :=
  ⟨rfl, by decide, by decide⟩

end Rearrange.Shape
