import Rearrange.Proofs.Representation
import Rearrange.Proofs.Elements
/-!
# Regular host values

A host value of `k` levels of slices over one element type is regular, a box of dimensions
`dims`, when every slice at level `i` has `dims[i]` items (`HostData.Box`). Walking the value
for its shape fixes each level's length at the first slice met there and checks every later
slice against it; for a typed value the walk succeeds exactly on the boxes with non-empty
slices, and finds their dimensions (`shapeWalk_eq_ok_iff`). The invariant of the walk is
`Found.Completes`: the lengths found below the current level begin the box's dimensions, and
the walk completes them.

The scalars of a box, depth first, lie in row-major order: the scalar at the path of item
indices `J` is the one at the row-major number of `J` (`Box.leafAt_rowNumber`). So the array
of a regular value reads, at each position, the scalar at that path, once the block that
holds its scalars can be reserved (`ofValue_reads_leaves`); a value of more scalars than a
block holds is refused (`ofValue_past_block`).
-/
namespace Rearrange

open Word

/-- The type of `k` levels of slices over an element type. -/
def HostType.nested (e : ElementType) : Nat → HostType
  | 0 => .element e
  | k + 1 => .slice (nested e k)

namespace HostData

/-- A value is a box of dimensions `dims` of scalars of type `e`: a scalar for no dimensions,
and for `n :: dims` a slice of `n` items, each a box of `dims`. -/
inductive Box (e : ElementType) : HostData → List Int → Prop
  | scalar (v : HostValue) : Box e (.scalar e v) []
  | slice {t : HostType} {items : List HostData} {n : Int} {dims : List Int}
      (len : (items.length : Int) = n) (each : ∀ d ∈ items, Box e d dims) : Box e (.slice t items) (n :: dims)

mutual

/-- The scalar at a path of item indices, one per slice level. -/
def leafAt : HostData → List Nat → Option HostValue
  | .scalar _ v, [] => some v
  | .slice _ items, i :: is => itemLeafAt items i is
  | _, _ => none

/-- The scalar at a path within item `i` of a slice's items. -/
def itemLeafAt : List HostData → Nat → List Nat → Option HostValue
  | [], _, _ => none
  | d :: _, 0, is => d.leafAt is
  | _ :: ds, i + 1, is => itemLeafAt ds i is

end

theorem itemLeafAt_eq (is : List Nat) :
    ∀ (items : List HostData) (i : Nat), itemLeafAt items i is = items[i]?.bind (·.leafAt is)
  | [], _ => by simp [itemLeafAt]
  | d :: _, 0 => by simp [itemLeafAt]
  | _ :: ds, i + 1 => by simp [itemLeafAt, itemLeafAt_eq is ds i]

theorem leafAt_slice (t : HostType) (items : List HostData) (i : Nat) (is : List Nat) :
    (slice t items).leafAt (i :: is) = items[i]?.bind (·.leafAt is) := by
  rw [leafAt, itemLeafAt_eq]

theorem length_leavesOfItems {P : Nat} :
    ∀ {items : List HostData}, (∀ d ∈ items, d.leaves.length = P) →
      (leavesOfItems items).length = items.length * P
  | [], _ => by simp [leavesOfItems]
  | d :: ds, each => by
    rw [leavesOfItems_cons, List.length_append, each d List.mem_cons_self,
      length_leavesOfItems fun d' mem => each d' (List.mem_cons_of_mem _ mem), List.length_cons]
    ring

/-- Among items of `P` scalars each, scalar `r` of item `j` is scalar `j * P + r` of all. -/
theorem getElem?_leavesOfItems {P r : Nat} (lt : r < P) :
    ∀ {items : List HostData} (j : Nat), (∀ d ∈ items, d.leaves.length = P) →
      (leavesOfItems items)[j * P + r]? = items[j]?.bind (·.leaves[r]?)
  | [], _, _ => by simp [leavesOfItems]
  | d :: ds, 0, each => by
    rw [leavesOfItems_cons, List.getElem?_append_left (by rw [each d List.mem_cons_self]; omega)]
    simp
  | d :: ds, j + 1, each => by
    have first := each d List.mem_cons_self
    rw [leavesOfItems_cons, List.getElem?_append_right (by rw [first]; nlinarith), first,
      show (j + 1) * P + r - P = j * P + r by rw [Nat.succ_mul]; omega,
      getElem?_leavesOfItems lt j fun d' mem => each d' (List.mem_cons_of_mem _ mem)]
    simp

namespace Box

variable {e : ElementType} {d : HostData} {dims : List Int}

theorem scalar_iff {v : HostValue} : (HostData.scalar e v).Box e dims ↔ dims = [] := by
  constructor
  · rintro ⟨⟩
    rfl
  · rintro rfl
    exact .scalar v

theorem slice_iff {t : HostType} {items : List HostData} :
    (HostData.slice t items).Box e dims ↔
      ∃ dims', dims = (items.length : Int) :: dims' ∧ ∀ d ∈ items, d.Box e dims' := by
  constructor
  · intro box
    cases box with
    | slice len each => exact ⟨_, by rw [len], each⟩
  · rintro ⟨dims', rfl, each⟩
    exact .slice rfl each

/-- A box of non-empty slices has one dimension per slice level of its type. -/
theorem length_eq {k : Nat} (box : d.Box e dims) (typed : d.HasType (.nested e k))
    (pos : ∀ n ∈ dims, 0 < n) : dims.length = k := by
  induction box generalizing k with
  | scalar v =>
    cases k with
    | zero => rfl
    | succ k => cases typed
  | @slice t items n dims len each ih =>
    cases k with
    | zero => cases typed
    | succ k =>
      cases typed with
      | slice itemsTyped =>
        have nonempty : 0 < items.length := by
          have := pos n List.mem_cons_self
          omega
        obtain ⟨first, mem⟩ := List.exists_mem_of_length_pos nonempty
        have inner := ih first mem (itemsTyped first mem) fun m mem' => pos m (List.mem_cons_of_mem _ mem')
        simp [inner]

/-- The scalars of a box of non-empty slices all have its type: the box holds a scalar arrays do
not take exactly when its type is one. -/
theorem foreignScalar?_eq (box : d.Box e dims) (pos : ∀ n ∈ dims, 0 < n) :
    d.foreignScalar? = if e.isArrayElement then none else some e := by
  induction box with
  | scalar v => rfl
  | @slice t items n dims len each ih =>
    have nonempty : items ≠ [] := by
      have := pos n List.mem_cons_self
      intro none
      simp [none] at len
      omega
    rw [foreignScalar?_slice]
    exact foreignScalarOfItems?_of_forall nonempty fun d mem =>
      ih d mem fun m mem' => pos m (List.mem_cons_of_mem _ mem')

theorem length_leaves (box : d.Box e dims) : d.leaves.length = (dims.map Int.toNat).prod := by
  induction box with
  | scalar v => simp [leaves]
  | @slice t items n dims len each ih =>
    rw [leaves_slice, length_leavesOfItems ih, List.map_cons, List.prod_cons, ← len]
    simp

/-- The scalar at a path within a box's dimensions is its scalar at the path's row-major
number. -/
theorem leafAt_rowNumber (box : d.Box e dims) {J : List Nat} (bounds : InBounds (dims.map Int.toNat) J) :
    ∃ v, d.leafAt J = some v ∧ d.leaves[rowNumber (dims.map Int.toNat) J]? = some v.toFloat := by
  induction box generalizing J with
  | scalar v =>
    cases bounds
    exact ⟨v, by simp [leafAt], by simp [leaves, rowNumber]⟩
  | @slice t items n dims len each ih =>
    cases bounds with
    | @cons j m js ms below inner =>
      have lt : j < items.length := by omega
      have item : items[j]? = some items[j] := List.getElem?_eq_getElem lt
      obtain ⟨v, leaf, at_r⟩ := ih items[j] (List.getElem_mem lt) inner
      have uniform : ∀ d ∈ items, d.leaves.length = (dims.map Int.toNat).prod :=
        fun d mem => (each d mem).length_leaves
      have r_lt : rowNumber (dims.map Int.toNat) js < (dims.map Int.toNat).prod := rowNumber_lt inner
      refine ⟨v, by rw [leafAt_slice, item, Option.bind_some, leaf], ?_⟩
      rw [List.map_cons, rowNumber_cons, leaves_slice, getElem?_leavesOfItems r_lt j uniform, item, Option.bind_some,
        at_r]

end Box

namespace Found

/-- The walk of a box of dimensions `dims` at level `l` takes the lengths found from `f` to
`f'`: those found from level `l` on begin `dims`, and the walk completes them to `dims`, with the
box's element type. -/
structure Completes (e : ElementType) (dims : List Int) (l : Nat) (f f' : Found) : Prop where
  level_le : l ≤ f.dims.length
  begins : f.dims.drop l <+: dims
  found : f' = ⟨f.dims.take l ++ dims, e.dtype⟩

variable {e : ElementType} {dims : List Int} {l : Nat} {f f' : Found}

theorem Completes.take_eq (c : Completes e dims l f f') : f'.dims.take l = f.dims.take l := by
  rw [c.found]
  simp [c.level_le]

theorem Completes.drop_eq (c : Completes e dims l f f') : f'.dims.drop l = dims := by
  rw [c.found]
  simp [c.level_le]

theorem Completes.level_le_found (c : Completes e dims l f f') : l ≤ f'.dims.length := by
  rw [c.found]
  simp [c.level_le]

theorem Completes.trans_iff {f'' : Found} (c : Completes e dims l f f') :
    Completes e dims l f' f'' ↔ f'' = f' := by
  constructor
  · intro c'
    rw [c'.found, c.take_eq, ← c.found]
  · rintro rfl
    exact ⟨c.level_le_found, by rw [c.drop_eq], by rw [c.take_eq, ← c.found]⟩

theorem completes_nil_iff : Completes e [] l f f' ↔ l = f.dims.length ∧ f' = { f with dtype := e.dtype } := by
  constructor
  · rintro ⟨le, begins, rfl⟩
    have : f.dims.length ≤ l := by simpa using begins
    have same : l = f.dims.length := by omega
    subst same
    simp
  · rintro ⟨rfl, rfl⟩
    exact ⟨le_rfl, by simp, by simp⟩

theorem drop_begins_cons_iff {xs ys : List Int} {n : Int} :
    (l ≤ xs.length ∧ xs.drop l <+: n :: ys) ↔ (l = xs.length ∨ xs[l]? = some n) ∧ xs.drop (l + 1) <+: ys := by
  rcases Nat.lt_or_ge l xs.length with lt | ge
  · rw [List.drop_eq_getElem_cons lt, List.cons_prefix_cons, List.getElem?_eq_getElem lt]
    simp [lt.le, lt.ne]
  · rw [List.drop_eq_nil_of_le ge, List.drop_eq_nil_of_le (by omega), List.getElem?_eq_none ge]
    simp only [List.nil_prefix, and_true, reduceCtorEq, or_false]
    omega

section SetLevel

variable {xs : List Int} (le : l ≤ xs.length) (n : Int)
include le

/-! The lengths found with `n` at level `l`, in place of the one there or after the last. -/

theorem take_succ_setLevel : (xs.take l ++ n :: xs.drop (l + 1)).take (l + 1) = xs.take l ++ [n] := by
  rw [List.take_append, List.length_take_of_le le]
  simp

theorem drop_succ_setLevel : (xs.take l ++ n :: xs.drop (l + 1)).drop (l + 1) = xs.drop (l + 1) := by
  rw [List.drop_append, List.length_take_of_le le]
  simp

theorem succ_le_length_setLevel : l + 1 ≤ (xs.take l ++ n :: xs.drop (l + 1)).length := by
  simp [List.length_take_of_le le]

end SetLevel

/-- Completing a slice level: the slice's length is set at level `l`, then its items complete
the levels below. -/
theorem completes_cons_iff {n : Int} :
    Completes e (n :: dims) l f f' ↔ (l = f.dims.length ∨ f.dims[l]? = some n) ∧
      Completes e dims (l + 1) { f with dims := f.dims.take l ++ n :: f.dims.drop (l + 1) } f' := by
  constructor
  · rintro ⟨le, begins, rfl⟩
    obtain ⟨check, begins'⟩ := drop_begins_cons_iff.1 ⟨le, begins⟩
    refine ⟨check, succ_le_length_setLevel le n, ?_, ?_⟩
    · rw [drop_succ_setLevel le n]
      exact begins'
    · rw [take_succ_setLevel le n]
      simp
  · rintro ⟨check, -, begins, rfl⟩
    have le : l ≤ f.dims.length := by
      rcases check with same | at_l
      · omega
      · exact (List.getElem?_eq_some_iff.1 at_l).1.le
    dsimp only at begins ⊢
    rw [drop_succ_setLevel le n] at begins
    refine ⟨le, (drop_begins_cons_iff.2 ⟨check, begins⟩).2, ?_⟩
    rw [take_succ_setLevel le n]
    simp

end Found

theorem shapeWalk_scalar_eq_ok {e : ElementType} {v : HostValue} {l : Nat} {f f' : Found} :
    (scalar e v).shapeWalk l f = .ok f' ↔ l = f.dims.length ∧ f' = { f with dtype := e.dtype } := by
  rw [shapeWalk]
  split <;> simp_all [eq_comm]

/-- One slice: it must have items, its length is new at its level or the one found there, and
its items are walked one level down. -/
theorem shapeWalk_slice_eq_ok {t : HostType} {items : List HostData} {l : Nat} {f f' : Found} :
    (slice t items).shapeWalk l f = .ok f' ↔ items ≠ [] ∧
      (l = f.dims.length ∨ f.dims[l]? = some (items.length : Int)) ∧
      shapeWalkItems items (l + 1) { f with dims := f.dims.take l ++ (items.length : Int) :: f.dims.drop (l + 1) } =
        .ok f' := by
  rw [shapeWalk]
  by_cases empty : items = []
  · simp [empty]
  simp only [List.isEmpty_iff, empty, if_false, ne_eq, not_false_eq_true, true_and]
  by_cases atEnd : l = f.dims.length
  · subst atEnd
    simp [List.drop_eq_nil_of_le (Nat.le_succ f.dims.length)]
  · cases found : f.dims[l]? with
    | none => simp [atEnd]
    | some m =>
      have whole : f.dims.take l ++ m :: f.dims.drop (l + 1) = f.dims := by
        obtain ⟨lt, rfl⟩ := List.getElem?_eq_some_iff.1 found
        rw [← List.drop_eq_getElem_cons lt, List.take_append_drop]
      by_cases same : m = items.length
      · subst same
        simp [atEnd, whole]
      · simp [atEnd, same]

theorem shapeWalkItems_cons_eq_ok {d : HostData} {ds : List HostData} {l : Nat} {f f' : Found} :
    shapeWalkItems (d :: ds) l f = .ok f' ↔ ∃ f₂, d.shapeWalk l f = .ok f₂ ∧ shapeWalkItems ds l f₂ = .ok f' := by
  rw [shapeWalkItems]
  split <;> simp_all

section Walk

variable {e : ElementType} {k : Nat}

/-- The walk of the items of a slice of boxes, from the walk of each item: the items are boxes of
one dimension list, which the walk completes. -/
theorem shapeWalkItems_eq_ok_iff
    (walk : ∀ d : HostData, d.HasType (.nested e k) → ∀ l f f',
      d.shapeWalk l f = .ok f' ↔ ∃ dims, d.Box e dims ∧ (∀ n ∈ dims, 0 < n) ∧ f.Completes e dims l f')
    {items : List HostData} (typed : ∀ d ∈ items, d.HasType (.nested e k)) (nonempty : items ≠ [])
    {l : Nat} {f f' : Found} :
    shapeWalkItems items l f = .ok f' ↔
      ∃ dims, (∀ d ∈ items, d.Box e dims) ∧ (∀ n ∈ dims, 0 < n) ∧ f.Completes e dims l f' := by
  obtain ⟨x, xs, rfl⟩ := List.exists_cons_of_ne_nil nonempty
  -- induction on the items after the first, from the lengths found before the first
  induction xs generalizing x f with
  | nil =>
    rw [shapeWalkItems_cons_eq_ok]
    simp only [shapeWalkItems, Except.ok.injEq, exists_eq_right, List.mem_singleton, forall_eq]
    exact walk x (typed x List.mem_cons_self) l f f'
  | cons y ys ih =>
    have rest : ∀ g : Found, shapeWalkItems (y :: ys) l g = .ok f' ↔
        ∃ dims, (∀ d ∈ y :: ys, d.Box e dims) ∧ (∀ n ∈ dims, 0 < n) ∧ g.Completes e dims l f' :=
      fun g => @ih g y (fun d mem => typed d (List.mem_cons_of_mem _ mem)) (List.cons_ne_nil _ _)
    rw [shapeWalkItems_cons_eq_ok]
    constructor
    · rintro ⟨f₂, first, others⟩
      obtain ⟨dims₁, box₁, pos₁, c₁⟩ := (walk x (typed x List.mem_cons_self) l f f₂).1 first
      obtain ⟨dims, boxes, pos, c⟩ := (rest f₂).1 others
      have same : dims₁ = dims := by
        have begins : dims₁ <+: dims := c₁.drop_eq ▸ c.begins
        have len₁ := box₁.length_eq (typed x List.mem_cons_self) pos₁
        have len := (boxes y List.mem_cons_self).length_eq (typed y (by simp)) pos
        exact begins.eq_of_length (len₁.trans len.symm)
      subst same
      refine ⟨dims₁, fun d mem => ?_, pos, (c₁.trans_iff.1 c) ▸ c₁⟩
      rcases List.mem_cons.1 mem with rfl | later
      · exact box₁
      · exact boxes d later
    · rintro ⟨dims, boxes, pos, c⟩
      have c₁ : f.Completes e dims l ⟨f.dims.take l ++ dims, e.dtype⟩ := ⟨c.level_le, c.begins, rfl⟩
      refine ⟨_, (walk x (typed x List.mem_cons_self) l f _).2 ⟨dims, boxes x List.mem_cons_self, pos, c₁⟩, ?_⟩
      refine (rest _).2 ⟨dims, fun d mem => boxes d (List.mem_cons_of_mem _ mem), pos, ?_⟩
      rw [c₁.trans_iff, c.found]

/-- The walk of a typed value accepts exactly the boxes of non-empty slices, and completes the
lengths found to the box's dimensions. -/
theorem shapeWalk_eq_ok_iff {d : HostData} (typed : d.HasType (.nested e k)) {l : Nat} {f f' : Found} :
    d.shapeWalk l f = .ok f' ↔ ∃ dims, d.Box e dims ∧ (∀ n ∈ dims, 0 < n) ∧ f.Completes e dims l f' := by
  induction k generalizing d l f f' with
  | zero =>
    cases typed with
    | scalar e v =>
      rw [shapeWalk_scalar_eq_ok, ← Found.completes_nil_iff]
      simp [Box.scalar_iff]
  | succ k ih =>
    cases typed with
    | @slice t items itemsTyped =>
      rw [shapeWalk_slice_eq_ok]
      constructor
      · rintro ⟨nonempty, check, walked⟩
        obtain ⟨dims, boxes, pos, c⟩ :=
          (shapeWalkItems_eq_ok_iff (fun d typed _ _ _ => ih typed) itemsTyped nonempty).1 walked
        refine ⟨_, .slice rfl boxes, fun n mem => ?_, Found.completes_cons_iff.2 ⟨check, c⟩⟩
        rcases List.mem_cons.1 mem with rfl | inner
        · exact_mod_cast List.length_pos_iff.2 nonempty
        · exact pos n inner
      · rintro ⟨dims, box, pos, c⟩
        obtain ⟨dims', rfl, boxes⟩ := Box.slice_iff.1 box
        obtain ⟨check, c'⟩ := Found.completes_cons_iff.1 c
        have nonempty : items ≠ [] := by
          have := pos _ List.mem_cons_self
          exact List.ne_nil_of_length_pos (by exact_mod_cast this)
        refine ⟨nonempty, check, ?_⟩
        exact (shapeWalkItems_eq_ok_iff (fun d typed _ _ _ => ih typed) itemsTyped nonempty).2
          ⟨_, boxes, fun n mem => pos n (List.mem_cons_of_mem _ mem), c'⟩

end Walk

end HostData

open HostData

section Arrays

variable {e : ElementType} {k : Nat} {d : HostData}

theorem Shape.ofValue_eq_ok_iff (typed : d.HasType (.nested e k)) {s : Shape} :
    Shape.ofValue (some d) = .ok s ↔ ∃ dims, d.Box e dims ∧ (∀ n ∈ dims, 0 < n) ∧ s = ⟨e.dtype, dims⟩ := by
  rw [Shape.ofValue_some_eq_ok]
  constructor
  · rintro ⟨f, walked, rfl⟩
    obtain ⟨dims, box, pos, c⟩ := (shapeWalk_eq_ok_iff typed).1 walked
    exact ⟨dims, box, pos, by simp [c.found]⟩
  · rintro ⟨dims, box, pos, rfl⟩
    exact ⟨_, (shapeWalk_eq_ok_iff typed).2 ⟨dims, box, pos, ⟨le_rfl, by simp, rfl⟩⟩, by simp⟩

theorem HostData.Box.product_eq {dims : List Int} (box : d.Box e dims) (pos : ∀ n ∈ dims, 0 < n)
    (small : (d.leaves.length : Int) ≤ Tensor.blockLimit) : product dims = d.leaves.length := by
  have count : (d.leaves.length : Int) = dims.prod := by
    rw [box.length_leaves, ← positionCount_eq_prod pos, positionCount_of_pos pos]
  rw [product_eq_prod pos (count ▸ small.trans (by decide)), count]

theorem Tensor.ofValue_box_eq_ok {dims : List Int} (typed : d.HasType (.nested e k)) (box : d.Box e dims)
    (pos : ∀ n ∈ dims, 0 < n) (element : e.isArrayElement = true)
    (small : (d.leaves.length : Int) ≤ Tensor.blockLimit) :
    Tensor.ofValue (some d) =
      .ok { shape := ⟨e.dtype, dims⟩, flat := d.leaves.toArray, spare := (product dims).toNat - d.leaves.length } := by
  have shape := (Shape.ofValue_eq_ok_iff typed).2 ⟨dims, box, pos, rfl⟩
  have size := box.product_eq pos small
  rw [Tensor.ofValue_of_shape shape, box.foreignScalar?_eq pos, if_pos element]
  simp only [Shape.size, size]
  rw [if_neg (by omega), if_neg (by omega)]

theorem Tensor.ofValue_box_foreign {dims : List Int} (typed : d.HasType (.nested e k)) (box : d.Box e dims)
    (pos : ∀ n ∈ dims, 0 < n) (foreign : e.isArrayElement = false)
    (small : (d.leaves.length : Int) ≤ Tensor.blockLimit) :
    Tensor.ofValue (some d) = .error (.plain ("reference.FromValue(): unsupported value type " ++ e.name)) := by
  have shape := (Shape.ofValue_eq_ok_iff typed).2 ⟨dims, box, pos, rfl⟩
  have size := box.product_eq pos small
  rw [Tensor.ofValue_of_shape shape, box.foreignScalar?_eq pos, foreign]
  simp only [Shape.size, size]
  rw [if_neg (by omega)]
  rfl

/-- The shape of a typed host value is found exactly when the value is a box of non-empty slices,
and is the box's dimensions, one per slice level, with the element type's array type. The array
of such a value is made exactly when its scalars fit a block; it then holds the scalars depth
first, and the value at each position is the scalar at that path. -/
theorem ofValue_reads_leaves (typed : d.HasType (.nested e k)) :
    ((∃ s, Shape.ofValue (some d) = .ok s) ↔ ∃ dims, d.Box e dims ∧ ∀ n ∈ dims, 0 < n) ∧
      ∀ dims, d.Box e dims → (∀ n ∈ dims, 0 < n) →
        Shape.ofValue (some d) = .ok ⟨e.dtype, dims⟩ ∧ dims.length = k ∧
        ((∃ t, Tensor.ofValue (some d) = .ok t) ↔
          e.isArrayElement = true ∧ (d.leaves.length : Int) ≤ Tensor.blockLimit) ∧
        ∀ t, Tensor.ofValue (some d) = .ok t → t.shape = ⟨e.dtype, dims⟩ ∧ t.flat.toList = d.leaves ∧
          ∀ I, IsPosition dims I → ∃ v, d.leafAt (I.map Int.toNat) = some v ∧ t.get I = .ok v.toFloat := by
  refine ⟨⟨fun ⟨s, h⟩ => ?_, fun ⟨dims, box, pos⟩ => ?_⟩, fun dims box pos => ?_⟩
  · obtain ⟨dims, box, pos, -⟩ := (Shape.ofValue_eq_ok_iff typed).1 h
    exact ⟨dims, box, pos⟩
  · exact ⟨_, (Shape.ofValue_eq_ok_iff typed).2 ⟨dims, box, pos, rfl⟩⟩
  have shape := (Shape.ofValue_eq_ok_iff typed).2 ⟨dims, box, pos, rfl⟩
  -- a made array had no scalar of a type arrays do not take, so its type is one they take
  have element : ∀ t, Tensor.ofValue (some d) = .ok t → e.isArrayElement = true := fun t made => by
    have none := (Tensor.ofValue_some_eq_ok.1 made).2.1
    rw [box.foreignScalar?_eq pos] at none
    cases taken : e.isArrayElement
    · simp [taken] at none
    · rfl
  refine ⟨shape, box.length_eq typed pos,
    ⟨fun ⟨t, made⟩ => ⟨element t made, (Tensor.ofValue_some_eq_ok.1 made).2.2.2.2.1⟩,
      fun ⟨taken, small⟩ => ⟨_, Tensor.ofValue_box_eq_ok typed box pos taken small⟩⟩, fun t made => ?_⟩
  obtain ⟨found, -, -, -, small, flat, -⟩ := Tensor.ofValue_some_eq_ok.1 made
  have same : t.shape = ⟨e.dtype, dims⟩ := by
    rw [shape] at found
    exact (Except.ok.inj found).symm
  refine ⟨same, by rw [flat], fun I position => ?_⟩
  have sound : t.Sound := by
    refine (Tensor.ofValue_sound_iff typed made).2 ?_
    rw [(Tensor.ofValue_count typed made).2, flat, List.size_toArray]
    exact small.trans (by decide)
  obtain ⟨v, leaf, at_row⟩ := box.leafAt_rowNumber (position.toNat).2
  refine ⟨v, leaf, ?_⟩
  rw [Tensor.get_of_position sound (same ▸ position), same, flat]
  simp [Array.getD_eq_getD_getElem?, at_row]

/-- The 2 × 2 grid of the numbers 1 to 4. -/
theorem ofValue_reads_leaves_grid :
    ∃ d : HostData, d = .slice (.nested .int32 1)
        [.slice (.nested .int32 0) [.scalar .int32 (.int 1), .scalar .int32 (.int 2)],
          .slice (.nested .int32 0) [.scalar .int32 (.int 3), .scalar .int32 (.int 4)]] ∧
      d.HasType (.nested .int32 2) ∧
      (((∃ s, Shape.ofValue (some d) = .ok s) ↔ ∃ dims, d.Box .int32 dims ∧ ∀ n ∈ dims, 0 < n) ∧
        ∀ dims, d.Box .int32 dims → (∀ n ∈ dims, 0 < n) →
          Shape.ofValue (some d) = .ok ⟨ElementType.int32.dtype, dims⟩ ∧ dims.length = 2 ∧
          ((∃ t, Tensor.ofValue (some d) = .ok t) ↔
            ElementType.int32.isArrayElement = true ∧ (d.leaves.length : Int) ≤ Tensor.blockLimit) ∧
          ∀ t, Tensor.ofValue (some d) = .ok t → t.shape = ⟨ElementType.int32.dtype, dims⟩ ∧
            t.flat.toList = d.leaves ∧
            ∀ I, IsPosition dims I → ∃ v, d.leafAt (I.map Int.toNat) = some v ∧ t.get I = .ok v.toFloat) := by
  have row : ∀ a b : Int, (HostData.slice (.nested .int32 0)
      [.scalar .int32 (.int a), .scalar .int32 (.int b)]).HasType (.nested .int32 1) := by
    intro a b
    refine .slice fun x mem => ?_
    rcases List.mem_pair.1 mem with rfl | rfl <;> exact .scalar _ _
  have typed : (HostData.slice (.nested .int32 1)
      [.slice (.nested .int32 0) [.scalar .int32 (.int 1), .scalar .int32 (.int 2)],
        .slice (.nested .int32 0) [.scalar .int32 (.int 3), .scalar .int32 (.int 4)]]).HasType
      (.nested .int32 2) := by
    refine .slice fun x mem => ?_
    rcases List.mem_pair.1 mem with rfl | rfl
    · exact row 1 2
    · exact row 3 4
  exact ⟨_, rfl, typed, ofValue_reads_leaves typed⟩

/-- A box of 2^46 scalars, 8388608 rows of 8388608: its shape is found, but a block of its
number of elements cannot be reserved, and its array is refused. -/
theorem ofValue_past_block :
    ∃ d : HostData, d = .slice (.nested .bool 1) (List.replicate 8388608
        (.slice (.nested .bool 0) (List.replicate 8388608 (.scalar .bool (.bool true))))) ∧
      d.HasType (.nested .bool 2) ∧ Shape.ofValue (some d) = .ok ⟨.bool, [8388608, 8388608]⟩ ∧
      Tensor.ofValue (some d) = .error (.fault "runtime error: makeslice: cap out of range") := by
  have rowTyped : (HostData.slice (.nested .bool 0)
      (List.replicate 8388608 (.scalar .bool (.bool true)))).HasType (.nested .bool 1) :=
    .slice fun x mem => List.eq_of_mem_replicate mem ▸ .scalar _ _
  have rowBox : (HostData.slice (.nested .bool 0)
      (List.replicate 8388608 (.scalar .bool (.bool true)))).Box .bool [8388608] :=
    .slice (by rw [List.length_replicate]; rfl) fun x mem => List.eq_of_mem_replicate mem ▸ .scalar _
  have typed : (HostData.slice (.nested .bool 1) (List.replicate 8388608
      (.slice (.nested .bool 0) (List.replicate 8388608 (.scalar .bool (.bool true)))))).HasType
      (.nested .bool 2) :=
    .slice fun x mem => List.eq_of_mem_replicate mem ▸ rowTyped
  have shape := (Shape.ofValue_eq_ok_iff typed).2
    ⟨[8388608, 8388608], .slice (by rw [List.length_replicate]; rfl)
      fun x mem => List.eq_of_mem_replicate mem ▸ rowBox, by simp, rfl⟩
  refine ⟨_, rfl, typed, shape, ?_⟩
  rw [Tensor.ofValue_of_shape shape, if_pos (Or.inr (by decide))]

end Arrays

end Rearrange
