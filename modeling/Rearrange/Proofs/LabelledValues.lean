import Rearrange.Proofs.Admission
import Rearrange.Proofs.OuterProduct
import Rearrange.Proofs.LabelTrace
/-!
# Arrays whose axes are runs of labels

Give each axis of an array a run of labels, each label with a size, so that the axis's dimension is
the product of the sizes (`runSize`). Coordinates `ρ` for the labels then pick one position of the
array: along each axis, the coordinates of its labels numbered row-major (`position`). An array
denotes a function `M` of the labels' coordinates when reading it at the position of any
coordinates within the sizes gives `M` there (`Denotes`).

Each operation of the backend takes an array that denotes a function to one that denotes a
function over runs moved as a plan's steps move them on labels (`Trace.step`):

* a reshape that keeps the labels in order, however it groups them into runs, denotes the same
  function (`Denotes.reshape`);
* a transposition reads the runs in the order of the permutation (`Denotes.transpose`);
* a repeat inserts a run of one label, on which the function does not depend (`Denotes.repeat`);
* a join puts the arrays' runs side by side and multiplies their functions, rounding after each
  product (`denotes_join`);
* a reduction deletes one run and folds the function over every coordinate along it
  (`Denotes.reduce`): the run's labels take each coordinate apart row-major (`assign`).

Conversely, every position of an array comes from coordinates of its labels, once no label is in
two places: each coordinate taken apart along its run (`position_coordinatesOf`).
-/
namespace Rearrange

/-- The value stored at the row-major number of a position. -/
def Tensor.entry (t : Tensor) (idx : List Int) : Float :=
  t.flat.getD (rowNumber (t.shape.dims.map Int.toNat) (idx.map Int.toNat)) 0

theorem Tensor.get_eq_entry {t : Tensor} (sound : t.Sound) {idx : List Int} (h : IsPosition t.shape.dims idx) :
    t.get idx = .ok (t.entry idx) :=
  get_of_position sound h

theorem inBounds_map {α : Type} {f g : α → Nat} : ∀ {l : List α}, (∀ q ∈ l, g q < f q) →
    InBounds (l.map f) (l.map g)
  | [], _ => .nil
  | q :: l, below => .cons (below q List.mem_cons_self) (inBounds_map fun q' mem => below q' (by simp [mem]))

namespace Plan

/-- The dimension of an axis holding a run of labels: the product of their sizes. -/
def runSize (run : List (Label × Int)) : Int := (run.map (·.2)).prod

/-- The coordinate along an axis holding a run of labels, at coordinates `ρ` of the labels: theirs
numbered row-major within their sizes. -/
def runCoordinate (ρ : Label → Nat) (run : List (Label × Int)) : Nat :=
  rowNumber (run.map (·.2.toNat)) (run.map (ρ ·.1))

/-- The position of an array whose axes hold the runs `axes`, at coordinates `ρ` of the labels. -/
def position (axes : List (List (Label × Int))) (ρ : Label → Nat) : List Int :=
  axes.map fun run => (runCoordinate ρ run : Int)

/-- Coordinates of labels within their sizes. -/
def Within (labels : List (Label × Int)) (ρ : Label → Nat) : Prop := ∀ q ∈ labels, ρ q.1 < q.2.toNat

/-- An array denotes the function `M` of the coordinates of labels, with the runs `axes` as its
axes: it is sound, its dimensions are the runs' sizes, every size is positive, and reading it at
the position of any coordinates within the sizes gives `M` there. -/
structure Denotes (x : Tensor) (axes : List (List (Label × Int))) (M : (Label → Nat) → Float) : Prop where
  sound : x.Sound
  dims : x.shape.dims = axes.map runSize
  pos : ∀ q ∈ axes.flatten, 0 < q.2
  reads : ∀ ρ, Within axes.flatten ρ → x.get (position axes ρ) = .ok (M ρ)

/-- The coordinates `ρ` with the labels of a run set to take the coordinate `k` along the run
apart, row-major: the last label varies fastest. -/
def assign : List (Label × Int) → Nat → (Label → Nat) → Label → Nat
  | [], _, ρ => ρ
  | q :: run, k, ρ => Function.update (assign run k ρ) q.1 (k / (run.map (·.2.toNat)).prod % q.2.toNat)

/-- The reduction of `M` along a run: its values at every coordinate along the run, in order,
folded by the operation and rounded to the element type. -/
def reduceOver (dtype : DType) (run : List (Label × Int)) (op : Reduction) (M : (Label → Nat) → Float)
    (ρ : Label → Nat) : Float :=
  dtype.normalize (op.fold ((List.range (runSize run).toNat).map fun k => M (assign run k ρ)))

/-- The coordinates of the labels at a position of an array whose axes hold the runs `axes`: each
coordinate taken apart along its run. Labels of no run are at 0. -/
def coordinatesOf : List (List (Label × Int)) → List Int → Label → Nat
  | run :: axes, j :: J => assign run j.toNat (coordinatesOf axes J)
  | _, _ => fun _ => 0

section Runs

variable {run : List (Label × Int)} {A : List (List (Label × Int))} {ρ : Label → Nat}

@[simp] theorem runSize_nil : runSize [] = 1 := rfl

@[simp] theorem runSize_cons (q : Label × Int) (run : List (Label × Int)) :
    runSize (q :: run) = q.2 * runSize run := by
  simp [runSize]

@[simp] theorem runCoordinate_nil (ρ : Label → Nat) : runCoordinate ρ [] = 0 := rfl

@[simp] theorem length_position (axes : List (List (Label × Int))) (ρ : Label → Nat) :
    (position axes ρ).length = axes.length := by
  simp [position]

theorem runSize_eq (pos : ∀ q ∈ run, 0 < q.2) : runSize run = ((run.map (·.2.toNat)).prod : Nat) := by
  induction run with
  | nil => rfl
  | cons q run ih =>
    have head : (q.2.toNat : Int) = q.2 := Int.toNat_of_nonneg (pos q List.mem_cons_self).le
    rw [runSize_cons, ih fun q' mem => pos q' (List.mem_cons_of_mem _ mem), List.map_cons, List.prod_cons,
      Nat.cast_mul, head]

theorem toNat_runSize (pos : ∀ q ∈ run, 0 < q.2) : (runSize run).toNat = (run.map (·.2.toNat)).prod := by
  rw [runSize_eq pos, Int.toNat_natCast]

theorem runSize_flatten (A : List (List (Label × Int))) : runSize A.flatten = (A.map runSize).prod := by
  rw [runSize, List.map_flatten, List.prod_flatten, List.map_map]
  rfl

theorem runCoordinate_lt (within : Within run ρ) : runCoordinate ρ run < (run.map (·.2.toNat)).prod :=
  rowNumber_lt (inBounds_map within)

/-- Numbering the positions of an array whose axes are runs numbers the coordinates of all the labels
in a row. -/
theorem rowNumber_position (pos : ∀ q ∈ A.flatten, 0 < q.2) :
    rowNumber ((A.map runSize).map Int.toNat) ((position A ρ).map Int.toNat) = runCoordinate ρ A.flatten := by
  induction A with
  | nil => rfl
  | cons run A ih =>
    have runPos : ∀ q ∈ run, 0 < q.2 := fun q mem => pos q (by simp [mem])
    have restPos : ∀ q ∈ A.flatten, 0 < q.2 := fun q mem => pos q (by simp [List.mem_flatten.1 mem])
    -- the place value of the first run is the product of the sizes of all later labels
    have later : ((A.map runSize).map Int.toNat).prod = (A.flatten.map (·.2.toNat)).prod := by
      rw [List.map_flatten, List.prod_flatten, List.map_map, List.map_map]
      refine congrArg List.prod (List.map_congr_left fun r mem => ?_)
      exact toNat_runSize fun q qMem => restPos q (List.mem_flatten.2 ⟨r, mem, qMem⟩)
    simp only [List.map_cons, position, rowNumber_cons, Int.toNat_natCast] at ih ⊢
    rw [ih restPos, later, List.flatten_cons, runCoordinate, runCoordinate, runCoordinate, List.map_append,
      List.map_append, rowNumber_append _ _ (by simp)]

/-- The position of coordinates within the sizes is a position of the runs' dimensions. -/
theorem isPosition_position (pos : ∀ q ∈ A.flatten, 0 < q.2) (within : Within A.flatten ρ) :
    IsPosition (A.map runSize) (position A ρ) := by
  induction A with
  | nil => exact .nil
  | cons run A ih =>
    have runPos : ∀ q ∈ run, 0 < q.2 := fun q mem => pos q (by simp [mem])
    have below := runCoordinate_lt fun q (mem : q ∈ run) => within q (by simp [mem])
    refine .cons ⟨Int.natCast_nonneg _, ?_⟩ (ih (fun q mem => pos q (by simp [List.mem_flatten.1 mem]))
      fun q mem => within q (by simp [List.mem_flatten.1 mem]))
    show (runCoordinate ρ run : Int) < runSize run
    rw [runSize_eq runPos]
    exact Int.ofNat_lt.2 below

theorem get_position {x : Tensor} (sound : x.Sound) (dims : x.shape.dims = A.map runSize)
    (pos : ∀ q ∈ A.flatten, 0 < q.2) (within : Within A.flatten ρ) :
    x.get (position A ρ) = .ok (x.flat.getD (runCoordinate ρ A.flatten) 0) := by
  rw [Tensor.get_eq_entry sound (dims ▸ isPosition_position pos within), Tensor.entry, dims, rowNumber_position pos]

theorem within_append {L : List (Label × Int)} : Within (run ++ L) ρ ↔ Within run ρ ∧ Within L ρ := by
  simp only [Within, List.mem_append, or_imp, forall_and]

theorem within_flatten_cons : Within (run :: A).flatten ρ ↔ Within run ρ ∧ Within A.flatten ρ := by
  rw [List.flatten_cons, within_append]

theorem position_flatMap {β : Type} (parts : List β) (f : β → List (List (Label × Int))) :
    position (parts.flatMap f) ρ = (parts.map fun p => position (f p) ρ).flatten := by
  simp [position, List.flatMap_def, List.map_flatten, Function.comp_def]

theorem flatten_perm_eraseIdx {a : Nat} (lt : a < A.length) :
    List.Perm A.flatten (A[a] ++ (A.eraseIdx a).flatten) := by
  simpa using (List.getElem_cons_eraseIdx_perm lt).flatten.symm

end Runs

section Assign

variable {run : List (Label × Int)} {k : Nat} {ρ : Label → Nat}

theorem assign_of_not_mem {l : Label} (outside : l ∉ run.map Prod.fst) : assign run k ρ l = ρ l := by
  induction run with
  | nil => rfl
  | cons q run ih =>
    simp only [List.map_cons, List.mem_cons, not_or] at outside
    rw [assign, Function.update_of_ne outside.1, ih outside.2]

theorem map_assign (nodup : (run.map Prod.fst).Nodup) :
    run.map (assign run k ρ ·.1) = rowIndex (run.map (·.2.toNat)) k := by
  induction run with
  | nil => rfl
  | cons q run ih =>
    rw [List.map_cons, List.nodup_cons] at nodup
    have rest : run.map (assign (q :: run) k ρ ·.1) = run.map (assign run k ρ ·.1) :=
      List.map_congr_left fun q' mem => by
        have apart : q'.1 ≠ q.1 := fun same => nodup.1 (same ▸ List.mem_map_of_mem mem)
        rw [assign, Function.update_of_ne apart]
    rw [List.map_cons, rest, ih nodup.2, List.map_cons, rowIndex_cons, assign, Function.update_self]

theorem runCoordinate_assign (nodup : (run.map Prod.fst).Nodup) (lt : k < (run.map (·.2.toNat)).prod) :
    runCoordinate (assign run k ρ) run = k := by
  rw [runCoordinate, map_assign nodup, rowNumber_rowIndex lt]

theorem runCoordinate_assign_of_disjoint {other : List (Label × Int)} (apart : ∀ q ∈ other, q.1 ∉ run.map Prod.fst) :
    runCoordinate (assign run k ρ) other = runCoordinate ρ other := by
  unfold runCoordinate
  rw [List.map_congr_left fun q mem => assign_of_not_mem (apart q mem)]

/-- The coordinates a run of positive sizes assigns are within the sizes. -/
theorem within_assign (nodup : (run.map Prod.fst).Nodup) (pos : ∀ q ∈ run, 0 < q.2) : Within run (assign run k ρ) := by
  induction run with
  | nil => simp [Within]
  | cons q run ih =>
    rw [List.map_cons, List.nodup_cons] at nodup
    intro q' mem
    rcases List.mem_cons.1 mem with rfl | later
    · rw [assign, Function.update_self]
      exact Nat.mod_lt _ (by have := pos q' List.mem_cons_self; omega)
    · have apart : q'.1 ≠ q.1 := fun same => nodup.1 (same ▸ List.mem_map_of_mem later)
      rw [assign, Function.update_of_ne apart]
      exact ih nodup.2 (fun q'' mem'' => pos q'' (List.mem_cons_of_mem _ mem'')) q' later

end Assign

section Operations

variable {x y : Tensor} {A : List (List (Label × Int))} {M : (Label → Nat) → Float}

theorem denotes_entry (sound : x.Sound) (dims : x.shape.dims = A.map runSize) (pos : ∀ q ∈ A.flatten, 0 < q.2) :
    Denotes x A fun ρ => x.entry (position A ρ) :=
  ⟨sound, dims, pos, fun _ within => Tensor.get_eq_entry sound (dims ▸ isPosition_position pos within)⟩

theorem Denotes.reshape (den : Denotes x A M) {B : List (List (Label × Int))} (sound : y.Sound)
    (flat : y.flat = x.flat) (dims : y.shape.dims = B.map runSize) (same : B.flatten = A.flatten) :
    Denotes y B M := by
  have pos : ∀ q ∈ B.flatten, 0 < q.2 := same ▸ den.pos
  refine ⟨sound, dims, pos, fun ρ within => ?_⟩
  have withinA : Within A.flatten ρ := same ▸ within
  rw [get_position sound dims pos within, flat, same, ← get_position den.sound den.dims den.pos withinA]
  exact den.reads ρ withinA

/-- An array denoting a function, of a valid element type, reshapes into the sizes of any runs
holding its labels in the same order, and the result denotes the same function. -/
theorem Denotes.reshape_ok (den : Denotes x A M) (valid : x.shape.ok = true) {B : List (List (Label × Int))}
    (same : B.flatten = A.flatten) : ∃ z, x.reshape (B.map runSize) = .ok z ∧ Denotes z B M := by
  have posB : ∀ q ∈ B.flatten, 0 < q.2 := same ▸ den.pos
  have pos : ∀ d ∈ B.map runSize, 0 < d := by
    intro d mem
    obtain ⟨r, rMem, rfl⟩ := List.mem_map.1 mem
    have sizes : ∀ n ∈ r.map (·.2.toNat), 0 < n := fun n nMem => by
      obtain ⟨q, qMem, rfl⟩ := List.mem_map.1 nMem
      have := posB q (List.mem_flatten.2 ⟨r, rMem, qMem⟩)
      omega
    rw [runSize_eq fun q qMem => posB q (List.mem_flatten.2 ⟨r, rMem, qMem⟩)]
    exact_mod_cast List.prod_pos sizes
  have prods : (B.map runSize).prod = x.shape.dims.prod := by
    rw [← runSize_flatten, same, runSize_flatten, den.dims]
  have product : Word.product (B.map runSize) = Word.product x.shape.dims := by
    unfold Word.product
    rw [← List.prod_eq_foldl, ← List.prod_eq_foldl, prods]
  have done := Tensor.reshape_eq_ok valid pos product
  have count : (Tensor.positionCount (B.map runSize) : Int) ≤ Word.maxInt64 := by
    rw [positionCount_of_pos pos, prods, ← positionCount_of_pos den.sound.pos, den.sound.count]
    exact den.sound.fits
  exact ⟨_, done, den.reshape ((Tensor.reshape_sound_iff den.sound done).2 count) rfl rfl same⟩

theorem toNat_lt_of_transpose {perm : List Int} (done : x.transpose perm = .ok y) :
    ∀ a ∈ perm, a.toNat < x.shape.rank := fun a mem => by
  obtain ⟨-, -, isPerm, len⟩ := transpose_shape_ok (transpose_shape_of_ok done)
  have reached := isPerm.subset (List.mem_map_of_mem (f := Int.toNat) mem)
  simpa [len] using reached

theorem perm_of_transpose {β : Type} {perm : List Int} (done : x.transpose perm = .ok y) {B : List β}
    (rank : x.shape.rank = B.length) (d : β) : List.Perm (perm.map fun a => B.getD a.toNat d) B := by
  obtain ⟨-, -, isPerm, len⟩ := transpose_shape_ok (transpose_shape_of_ok done)
  have moved := isPerm.map fun i => B.getD i d
  rwa [List.map_map, List.length_map, len, rank, map_getD_range] at moved

/-- A transposition of an array denoting a function denotes it too, with the runs read in the
order of the permutation. -/
theorem Denotes.transpose (den : Denotes x A M) {perm : List Int} (done : x.transpose perm = .ok y) :
    Denotes y (perm.map fun a => A.getD a.toNat []) M := by
  obtain ⟨shape, reads⟩ := transpose_get den.sound done
  have rank : x.shape.rank = A.length := by simp [Shape.rank, den.dims]
  have flatPerm := (perm_of_transpose done rank []).flatten
  have pos : ∀ q ∈ (perm.map fun a => A.getD a.toNat []).flatten, 0 < q.2 :=
    fun q mem => den.pos q (flatPerm.subset mem)
  have dims : y.shape.dims = (perm.map fun a => A.getD a.toNat []).map runSize := by
    rw [shape, List.map_map, den.dims]
    refine List.map_congr_left fun a mem => ?_
    have lt : a.toNat < A.length := rank ▸ toNat_lt_of_transpose done a mem
    have lt' : a.toNat < (A.map runSize).length := by simpa using lt
    show (A.map runSize).getD a.toNat 0 = runSize (A.getD a.toNat [])
    rw [List.getD_eq_getElem _ _ lt', List.getD_eq_getElem _ _ lt, List.getElem_map]
  refine ⟨transpose_sound den.sound done, dims, pos, fun ρ within => ?_⟩
  have withinA : Within A.flatten ρ := fun q mem => within q (flatPerm.symm.subset mem)
  have order : position (perm.map fun a => A.getD a.toNat []) ρ =
      perm.map fun a => (position A ρ).getD a.toNat 0 := by
    simp only [position, List.map_map]
    refine List.map_congr_left fun a _ => ?_
    rw [show (0 : Int) = (runCoordinate ρ [] : Int) from rfl, List.getD_map]
    rfl
  rw [reads _ (position A ρ) (dims ▸ isPosition_position pos within) (by simp [rank]) order]
  exact den.reads ρ withinA

/-- A reduction of an array denoting a function, along an axis whose labels appear on no other
axis, denotes the reduction of the function along the axis's run, the run deleted. -/
theorem Denotes.reduce (den : Denotes x A M) (nodup : (A.flatten.map Prod.fst).Nodup) {a : Nat}
    {op : Reduction} (done : x.reduce a op = .ok y) :
    Denotes y (A.eraseIdx a) (reduceOver x.shape.dtype (A.getD a []) op M) := by
  obtain ⟨a', adjusted, shape, reads⟩ := reduce_get den.sound done
  obtain ⟨ySound, rule⟩ := reduce_sound den.sound done
  obtain ⟨b, adj, lt, -⟩ := reduce_shape_ok rule
  have nonneg : ¬ ((a : Int) < 0) := by omega
  obtain rfl : a' = a := by
    rw [if_neg nonneg] at adjusted
    exact_mod_cast adjusted
  obtain rfl : b = a' := by
    have at_b := adjustAxis_eq adj
    rw [if_neg nonneg] at at_b
    exact_mod_cast at_b
  have inRange : b < A.length := by simpa [Shape.rank, den.dims] using lt
  set run := A.getD b [] with hrun
  have runAt : run = A[b] := List.getD_eq_getElem _ _ inRange
  -- the run's labels are distinct and appear on no other axis
  have split : List.Perm A.flatten (run ++ (A.eraseIdx b).flatten) := runAt ▸ flatten_perm_eraseIdx inRange
  have parts := (split.map Prod.fst).nodup_iff.1 nodup
  rw [List.map_append, List.nodup_append] at parts
  obtain ⟨runNodup, -, apart⟩ := parts
  have disjoint : ∀ q ∈ (A.eraseIdx b).flatten, q.1 ∉ run.map Prod.fst :=
    fun q mem inRun => apart _ inRun _ (List.mem_map_of_mem mem) rfl
  have runPos : ∀ q ∈ run, 0 < q.2 := fun q mem => den.pos q (split.symm.subset (List.mem_append_left _ mem))
  have restPos : ∀ q ∈ (A.eraseIdx b).flatten, 0 < q.2 :=
    fun q mem => den.pos q (split.symm.subset (List.mem_append_right _ mem))
  have dims : y.shape.dims = (A.eraseIdx b).map runSize := by
    rw [shape, den.dims, List.eraseIdx_map]
  refine ⟨ySound, dims, restPos, fun ρ within => ?_⟩
  set J := position (A.eraseIdx b) ρ
  obtain ⟨vs, values, result⟩ := reads J (dims ▸ isPosition_position restPos within)
  have inserted : ∀ k < (runSize run).toNat, x.get (J.insertIdx b (k : Int)) = .ok (M (assign run k ρ)) := by
    intro k below
    rw [toNat_runSize runPos] at below
    set L := position A (assign run k ρ)
    have rest : L.eraseIdx b = J := by
      simp only [L, J, position, List.eraseIdx_map]
      exact List.map_congr_left fun r mem => by
        rw [runCoordinate_assign_of_disjoint fun q qMem => disjoint q (List.mem_flatten.2 ⟨r, mem, qMem⟩)]
    have bInL : b < L.length := by simpa [L] using inRange
    have at_b : L[b] = (k : Int) := by
      simp [L, position, ← runAt, runCoordinate_assign runNodup below]
    have within' : Within A.flatten (assign run k ρ) := fun q mem => by
      rcases List.mem_append.1 (split.subset mem) with inRun | inRest
      · exact within_assign runNodup runPos q inRun
      · rw [assign_of_not_mem (disjoint q inRest)]
        exact within q inRest
    rw [← rest, ← at_b, List.insertIdx_eraseIdx_getElem]
    exact den.reads _ within'
  have count : (x.shape.dims.getD b 0).toNat = (runSize run).toNat := by
    rw [den.dims, runAt, List.getD_eq_getElem _ _ (by simpa using inRange), List.getElem_map]
  have same : (List.range (runSize run).toNat).map (fun k : Nat => x.get (J.insertIdx b (k : Int))) =
      ((List.range (runSize run).toNat).map fun k => M (assign run k ρ)).map .ok := by
    rw [List.map_map]
    exact List.map_congr_left fun k mem => inserted k (List.mem_range.1 mem)
  rw [count] at values
  have folded := List.map_injective_iff.2 (fun u v h => Except.ok.inj h) (values.symm.trans same)
  rw [result, folded]
  rfl

/-- A repeat of an array denoting a function denotes it too, with a run of one label inserted at
the repeated axis: the function does not depend on that label. -/
theorem Denotes.repeat (den : Denotes x A M) {axis count : Int} (done : x.repeat axis count = .ok y)
    (ySound : y.Sound) (l : Label) : Denotes y (A.insertIdx axis.toNat [(l, count)]) M := by
  obtain ⟨shape, reads⟩ := repeat_get den.sound done ySound
  have dims : y.shape.dims = (A.insertIdx axis.toNat [(l, count)]).map runSize := by
    rw [shape, Shape.withDims, den.dims, List.map_insertIdx]
    simp
  have pos : ∀ q ∈ (A.insertIdx axis.toNat [(l, count)]).flatten, 0 < q.2 := by
    intro q mem
    obtain ⟨r, rMem, qMem⟩ := List.mem_flatten.1 mem
    rcases List.eq_or_mem_of_mem_insertIdx rMem with rfl | old
    · have size := ySound.pos _ (dims ▸ List.mem_map_of_mem rMem)
      rw [List.mem_singleton.1 qMem]
      simpa using size
    · exact den.pos q (List.mem_flatten.2 ⟨r, old, qMem⟩)
  refine ⟨ySound, dims, pos, fun ρ within => ?_⟩
  have withinA : Within A.flatten ρ := fun q mem => within q ((List.sublist_insertIdx _ _ _).flatten.subset mem)
  rw [reads _ (dims ▸ isPosition_position pos within), position, List.map_insertIdx, List.eraseIdx_insertIdx_self]
  exact den.reads ρ withinA

section Join

variable {xs : List Tensor} {parts : List (List (List (Label × Int)) × ((Label → Nat) → Float))}

theorem forall₂_denotes (den : List.Forall₂ (fun x p => Denotes x p.1 p.2) xs parts) :
    (∀ x ∈ xs, x.Sound) ∧ xs.flatMap (·.shape.dims) = (parts.flatMap (·.1)).map runSize ∧
      ∀ q ∈ (parts.flatMap (·.1)).flatten, 0 < q.2 := by
  induction den with
  | nil => simp
  | @cons x p xs parts head _ ih =>
    obtain ⟨sound, dims, pos⟩ := ih
    refine ⟨List.forall_mem_cons.2 ⟨head.sound, sound⟩, by simp [head.dims, dims], fun q mem => ?_⟩
    rw [List.flatMap_cons, List.flatten_append, List.mem_append] at mem
    exact mem.elim (head.pos q) (pos q)

/-- Arrays denoting functions, read at the positions of the same coordinates within the sizes,
give each its function's value there. -/
theorem forall₂_reads (den : List.Forall₂ (fun x p => Denotes x p.1 p.2) xs parts) {ρ : Label → Nat}
    (within : Within (parts.flatMap (·.1)).flatten ρ) :
    List.Forall₂ (fun I x => IsPosition x.shape.dims I) (parts.map (position ·.1 ρ)) xs ∧
      List.zipWith (fun x I => x.get I) xs (parts.map (position ·.1 ρ)) = (parts.map (·.2 ρ)).map .ok := by
  induction den with
  | nil => exact ⟨.nil, rfl⟩
  | @cons x p xs parts head _ ih =>
    rw [List.flatMap_cons, List.flatten_append, within_append] at within
    obtain ⟨here, rest⟩ := within
    obtain ⟨positions, values⟩ := ih rest
    refine ⟨.cons (head.dims ▸ isPosition_position head.pos here) positions, ?_⟩
    simp only [List.map_cons, List.zipWith_cons_cons, values, head.reads ρ here]

theorem denotes_join (den : List.Forall₂ (fun x p => Denotes x p.1 p.2) xs parts) (done : Tensor.join xs = .ok y)
    (ySound : y.Sound) :
    Denotes y (parts.flatMap (·.1)) fun ρ =>
      (parts.map (·.2 ρ)).foldl (fun acc v => y.shape.dtype.normalize (acc * v)) 1 := by
  obtain ⟨sound, flatDims, pos⟩ := forall₂_denotes den
  obtain ⟨dims, -, reads⟩ := join_get sound done
  refine ⟨ySound, dims.trans flatDims, pos, fun ρ within => ?_⟩
  obtain ⟨positions, values⟩ := forall₂_reads den within
  obtain ⟨vs, listed, result⟩ := reads _ positions
  have same : vs = parts.map (·.2 ρ) := List.map_injective_iff.2 (fun u v h => Except.ok.inj h) (listed.symm.trans values)
  rw [position_flatMap, result, same]

end Join

/-- Every position of an array whose axes are runs of distinct labels with positive sizes is the
position of coordinates within the sizes: each coordinate taken apart along its run. -/
theorem position_coordinatesOf : ∀ (A : List (List (Label × Int))) (J : List Int), (A.flatten.map Prod.fst).Nodup →
    (∀ q ∈ A.flatten, 0 < q.2) → IsPosition (A.map runSize) J →
    position A (coordinatesOf A J) = J ∧ Within A.flatten (coordinatesOf A J)
  | [], [], _, _, _ => ⟨rfl, fun q mem => by simp at mem⟩
  | [], _ :: _, _, _, isPos => by cases isPos
  | _ :: _, [], _, _, isPos => by cases isPos
  | run :: A, j :: J, nodup, pos, isPos => by
    obtain ⟨⟨nonneg, below⟩, rest⟩ := List.forall₂_cons.1 isPos
    rw [List.flatten_cons, List.map_append, List.nodup_append] at nodup
    obtain ⟨runNodup, restNodup, apart⟩ := nodup
    have runPos : ∀ q ∈ run, 0 < q.2 := fun q mem => pos q (by simp [mem])
    have restPos : ∀ q ∈ A.flatten, 0 < q.2 := fun q mem => pos q (by simp [List.mem_flatten.1 mem])
    obtain ⟨positioned, within⟩ := position_coordinatesOf A J restNodup restPos rest
    have disjoint : ∀ q ∈ A.flatten, q.1 ∉ run.map Prod.fst :=
      fun q mem inRun => apart _ inRun _ (List.mem_map_of_mem mem) rfl
    have lt : j.toNat < (run.map (·.2.toNat)).prod := by
      rw [runSize_eq runPos] at below
      omega
    refine ⟨?_, within_flatten_cons.2 ⟨within_assign runNodup runPos, fun q mem => ?_⟩⟩
    · have others : position A (assign run j.toNat (coordinatesOf A J)) = position A (coordinatesOf A J) :=
        List.map_congr_left fun r mem => by
          rw [runCoordinate_assign_of_disjoint fun q qMem => disjoint q (List.mem_flatten.2 ⟨r, mem, qMem⟩)]
      have first : (runCoordinate (assign run j.toNat (coordinatesOf A J)) run : Int) = j := by
        rw [runCoordinate_assign runNodup lt, Int.toNat_of_nonneg nonneg]
      rw [coordinatesOf, position, List.map_cons, first]
      exact congrArg (j :: ·) (others.trans positioned)
    · rw [coordinatesOf, assign_of_not_mem (disjoint q mem)]
      exact within q mem

theorem Denotes.get_eq (den : Denotes x A M) (nodup : (A.flatten.map Prod.fst).Nodup) {J : List Int}
    (isPos : IsPosition x.shape.dims J) : x.get J = .ok (M (coordinatesOf A J)) := by
  obtain ⟨positioned, within⟩ := position_coordinatesOf A J nodup den.pos (den.dims ▸ isPos)
  conv_lhs => rw [← positioned]
  exact den.reads _ within

end Operations

end Plan

end Rearrange
