import Rearrange.Tensor.Host
import Rearrange.Proofs.Operations
/-!
# Arrays read off typed host values

A host value the host's type system admits is regular: every item of a slice has the slice's
element type, so every slice level of the value is an axis and every scalar sits at the bottom.
Walking such a value depth first, the first slice met at each level fixes that axis, and every
later slice at that level is checked against it. `walk_typed` follows one value and
`walkItems_typed` the items of a slice: the dimensions found so far only grow, the walk of a
value of nesting depth `k` from level `l` ends with `l + k` dimensions, and the value holds as
many scalars as the dimensions below `l` multiply to. So `ofValue` of a typed value has as many
values as positions (`ofValue_count`).

The arrays the library builds (`Tensor.Built`) start at a constructor and go through operations.
Each constructor and operation keeps them sound (`Tensor.Built.sound`) as long as the positions
of what it counts with a wrapping product fit a signed word; `sound_arrays` adds that the
operations on a built array read only within its values.
-/
namespace Rearrange

open Word

/-- A host value of a static type, as the host builds them: a scalar of its element type, or a
slice whose items all have the slice's element type. -/
inductive HostData.HasType : HostData → HostType → Prop
  | scalar (e : ElementType) (v : HostValue) : HasType (.scalar e v) (.element e)
  | slice {t : HostType} {items : List HostData} (typed : ∀ d ∈ items, HasType d t) :
      HasType (.slice t items) (.slice t)

/-- The number of slice levels of a host type. -/
def HostType.depth : HostType → Nat
  | .element _ => 0
  | .slice t => t.depth + 1
  | .unsupported _ => 0

/-- The number of positions of the dimensions from level `l` on. -/
def positionsFrom (dims : List Int) (l : Nat) : Nat := ((dims.drop l).map Int.toNat).prod

theorem positionsFrom_of_getElem? {dims : List Int} {l n : Nat} (h : dims[l]? = some (n : Int)) :
    positionsFrom dims l = n * positionsFrom dims (l + 1) := by
  obtain ⟨lt, at_l⟩ := List.getElem?_eq_some_iff.1 h
  rw [positionsFrom, List.drop_eq_getElem_cons lt, List.map_cons, List.prod_cons, at_l,
    Int.toNat_natCast, positionsFrom]

namespace HostData

/-- The dimensions found by walking a value of depth `k` from level `l` from the found `f`:
they extend `f`'s, there are `l + k` of them, all positive, and the scalars of the value are as
many as the positions below `l`. -/
structure Walked (f f' : Found) (l k : Nat) (count : Nat) : Prop where
  extends_dims : f.dims <+: f'.dims
  length_dims : f'.dims.length = l + k
  pos : ∀ e ∈ f'.dims, 0 < e
  count_eq : count = positionsFrom f'.dims l

theorem leaves_slice (t : HostType) (items : List HostData) :
    (HostData.slice t items).leaves = leavesOfItems items := by
  rw [leaves]

theorem leavesOfItems_cons (d : HostData) (ds : List HostData) :
    leavesOfItems (d :: ds) = d.leaves ++ leavesOfItems ds := by
  rw [leavesOfItems]

theorem foreignScalar?_slice (t : HostType) (items : List HostData) :
    (HostData.slice t items).foreignScalar? = foreignScalarOfItems? items := by
  rw [foreignScalar?]

theorem foreignScalarOfItems?_of_forall {r : Option ElementType} : ∀ {items : List HostData}, items ≠ [] →
    (∀ d ∈ items, d.foreignScalar? = r) → foreignScalarOfItems? items = r
  | [], nonempty, _ => absurd rfl nonempty
  | [d], _, all => by
    rw [foreignScalarOfItems?, all d List.mem_cons_self]
    cases r <;> rfl
  | d :: d' :: ds, _, all => by
    rw [foreignScalarOfItems?, all d List.mem_cons_self]
    cases r with
    | some e => rfl
    | none => exact foreignScalarOfItems?_of_forall (List.cons_ne_nil _ _) fun x mem => all x (List.mem_cons_of_mem _ mem)

/-- The walk of the items of a slice of element type `t`, each walked as a typed value: the
dimensions only grow, and once an item is walked they stand at `l + t.depth` and stay. -/
theorem walkItems_typed {t : HostType} {items : List HostData}
    (walked : ∀ d ∈ items, ∀ l f f', (∀ e ∈ f.dims, 0 < e) → d.shapeWalk l f = .ok f' →
      Walked f f' l t.depth d.leaves.length) :
    ∀ l f f', (∀ e ∈ f.dims, 0 < e) → shapeWalkItems items l f = .ok f' →
      f.dims <+: f'.dims ∧ (∀ e ∈ f'.dims, 0 < e) ∧
        (items = [] ∧ f' = f ∨ f'.dims.length = l + t.depth) ∧
        (leavesOfItems items).length = items.length * positionsFrom f'.dims l := by
  induction items with
  | nil =>
    intro l f f' pos h
    cases h
    exact ⟨List.prefix_refl _, pos, .inl ⟨rfl, rfl⟩, by simp [leavesOfItems]⟩
  | cons d ds ih =>
    intro l f f' pos h
    rw [shapeWalkItems] at h
    split at h
    · cases h
    · rename_i f₂ first
      have w := walked d List.mem_cons_self l f f₂ pos first
      obtain ⟨ext, pos', shape, count⟩ :=
        ih (fun d' mem => walked d' (List.mem_cons_of_mem _ mem)) l f₂ f' w.pos h
      -- the items after the first find no new axis
      have same : f'.dims = f₂.dims := by
        rcases shape with ⟨-, rfl⟩ | len
        · rfl
        · exact (ext.eq_of_length (w.length_dims.trans len.symm)).symm
      refine ⟨w.extends_dims.trans ext, pos', .inr (same ▸ w.length_dims), ?_⟩
      rw [leavesOfItems_cons, List.length_append, count, w.count_eq, same, List.length_cons]
      ring

/-- The walk of a typed value of depth `k` from level `l`. -/
theorem walk_typed {d : HostData} {T : HostType} (typed : d.HasType T) :
    ∀ l f f', (∀ e ∈ f.dims, 0 < e) → d.shapeWalk l f = .ok f' →
      Walked f f' l T.depth d.leaves.length := by
  induction typed with
  | scalar e v =>
    intro l f f' pos h
    unfold shapeWalk at h
    split at h
    · cases h
    · rename_i level
      cases h
      simp only [ne_eq, Decidable.not_not] at level
      refine ⟨List.prefix_refl _, by simp [HostType.depth, level], pos, ?_⟩
      simp [leaves, positionsFrom, level]
  | @slice t items typed walked =>
    intro l f f' pos h
    unfold shapeWalk at h
    split at h
    · cases h
    · rename_i nonempty
      dsimp only at h
      split at h
      · cases h
      rename_i f₁ checked
      have positive : (0 : Int) < items.length := by
        have : items ≠ [] := fun empty => nonempty (by simp [empty])
        exact_mod_cast List.length_pos_iff.2 this
      have axis : f.dims <+: f₁.dims ∧ f₁.dims[l]? = some (items.length : Int) ∧
          ∀ e ∈ f₁.dims, 0 < e := by
        split at checked
        · rename_i atEnd
          cases checked
          refine ⟨List.prefix_append _ _, by simp [atEnd], fun e mem => ?_⟩
          rcases List.mem_append.1 mem with old | new
          · exact pos e old
          · rw [List.mem_singleton.1 new]
            exact positive
        · split at checked
          · rename_i d found
            split at checked
            · rename_i same
              cases checked
              exact ⟨List.prefix_refl _, found.trans (congrArg some same), pos⟩
            · cases checked
          · cases checked
      obtain ⟨ext₁, atAxis, pos₁⟩ := axis
      obtain ⟨ext, pos', shape, count⟩ := walkItems_typed walked (l + 1) f₁ f' pos₁ h
      have len : f'.dims.length = l + 1 + t.depth := by
        rcases shape with ⟨empty, -⟩ | len
        · exact absurd (by simp [empty]) nonempty
        · exact len
      have atAxis' : f'.dims[l]? = some (items.length : Int) := by
        obtain ⟨rest, grown⟩ := ext
        rw [← grown, List.getElem?_append_left (List.getElem?_eq_some_iff.1 atAxis).1, atAxis]
      refine ⟨ext₁.trans ext, by rw [len, HostType.depth]; omega, pos', ?_⟩
      rw [leaves_slice, count, positionsFrom_of_getElem? atAxis']

end HostData

theorem Shape.ofValue_some_eq_ok {d : HostData} {s : Shape} :
    Shape.ofValue (some d) = .ok s ↔ ∃ f, d.shapeWalk 0 {} = .ok f ∧ s = ⟨f.dtype, f.dims⟩ := by
  rw [Shape.ofValue]
  cases d.shapeWalk 0 {} <;> simp [Except.map, eq_comm]

namespace Tensor

variable {d : HostData} {T : HostType} {t : Tensor}

/-- Once the shape of a value is found, the array of the value is its scalars, unless a block of
the shape's number of elements cannot be reserved, a scalar is of a type arrays do not take, or
the scalars do not fit one block. -/
theorem ofValue_of_shape {s : Shape} (h : Shape.ofValue (some d) = .ok s) :
    ofValue (some d) =
      if s.size < 0 ∨ blockLimit < s.size then .error (.fault "runtime error: makeslice: cap out of range")
      else match d.foreignScalar? with
        | some e => .error (.plain ("reference.FromValue(): unsupported value type " ++ e.name))
        | none =>
          if blockLimit < d.leaves.length then .error growFault
          else .ok { shape := s, flat := d.leaves.toArray, spare := s.size.toNat - d.leaves.length } := by
  unfold ofValue
  rw [h]
  by_cases room : s.size < 0 ∨ blockLimit < s.size
  · simp [Except.mapError, bind, Except.bind, reserve, room]
  · cases foreign : d.foreignScalar? with
    | some e => simp [Except.mapError, bind, Except.bind, reserve, room, foreign, throw, throwThe, MonadExceptOf.throw]
    | none =>
      by_cases many : blockLimit < d.leaves.length
      · simp [Except.mapError, bind, Except.bind, reserve, room, foreign, many, throw, throwThe, MonadExceptOf.throw]
      · simp [Except.mapError, bind, Except.bind, reserve, room, foreign, many, pure, Except.pure]

theorem ofValue_some_eq_ok : ofValue (some d) = .ok t ↔ Shape.ofValue (some d) = .ok t.shape ∧
    d.foreignScalar? = none ∧ 0 ≤ t.shape.size ∧ t.shape.size ≤ blockLimit ∧
    (d.leaves.length : Int) ≤ blockLimit ∧ t.flat = d.leaves.toArray ∧
    t.spare = t.shape.size.toNat - d.leaves.length := by
  cases h : Shape.ofValue (some d) with
  | error m => simp [ofValue, h, Except.mapError, bind, Except.bind]
  | ok s =>
    rw [ofValue_of_shape h]
    simp only [Except.ok.injEq]
    cases foreign : d.foreignScalar? with
    | some e => split_ifs <;> simp
    | none =>
      simp only [true_and]
      split_ifs with room many
      · simp only [false_iff, not_and]
        rintro rfl
        omega
      · simp only [false_iff, not_and]
        intros
        omega
      · cases t
        simp only [Except.ok.injEq, Tensor.mk.injEq]
        constructor
        · rintro ⟨rfl, rfl, rfl⟩
          exact ⟨rfl, by omega, by omega, by omega, rfl, rfl⟩
        · rintro ⟨rfl, -, -, -, rfl, rfl⟩
          exact ⟨rfl, rfl, rfl⟩

theorem ofValue_count (typed : d.HasType T) (h : ofValue (some d) = .ok t) :
    (∀ e ∈ t.shape.dims, 0 < e) ∧ positionCount t.shape.dims = t.flat.size := by
  obtain ⟨shape, -, -, -, -, flat, -⟩ := ofValue_some_eq_ok.1 h
  obtain ⟨f, found, same⟩ := Shape.ofValue_some_eq_ok.1 shape
  have w := HostData.walk_typed typed 0 {} f (by simp) found
  rw [same]
  refine ⟨w.pos, ?_⟩
  rw [positionCount_eq_prod w.pos, flat]
  simpa [positionsFrom] using w.count_eq.symm

theorem ofValue_sound_iff (typed : d.HasType T) (h : ofValue (some d) = .ok t) :
    t.Sound ↔ (positionCount t.shape.dims : Int) ≤ maxInt64 :=
  sound_iff_of_count (ofValue_count typed h).1 (ofValue_count typed h).2

end Tensor

/-- The arrays the library builds: a constructor's result whose positions fit a signed word, and
the result of an operation on built arrays (a reshape's or a repeat's when its positions fit). -/
inductive Tensor.Built : Tensor → Prop
  | ofFlat {e : ElementType} {vs : List HostValue} {dims : List Int} {t : Tensor} :
      Tensor.ofFlat e vs dims = .ok t → (Tensor.positionCount dims : Int) ≤ maxInt64 → Built t
  | iota {dtype : DType} {dims : List Int} {t : Tensor} :
      Tensor.iota dtype dims = .ok t → (Tensor.positionCount dims : Int) ≤ maxInt64 → Built t
  | ofValue {d : HostData} {T : HostType} {t : Tensor} : d.HasType T → Tensor.ofValue (some d) = .ok t →
      (Tensor.positionCount t.shape.dims : Int) ≤ maxInt64 → Built t
  | reshape {x t : Tensor} {dims : List Int} : Built x → x.reshape dims = .ok t →
      (Tensor.positionCount dims : Int) ≤ maxInt64 → Built t
  | transpose {x t : Tensor} {perm : List Int} : Built x → x.transpose perm = .ok t → Built t
  | reduce {x t : Tensor} {axis : Int} {op : Reduction} : Built x → x.reduce axis op = .ok t → Built t
  | repeat {x t : Tensor} {axis count : Int} : Built x → x.repeat axis count = .ok t →
      (Tensor.positionCount t.shape.dims : Int) ≤ maxInt64 → Built t
  | join {xs : List Tensor} {t : Tensor} : (∀ x ∈ xs, Built x) → Tensor.join xs = .ok t → Built t

namespace Tensor

theorem Built.sound {t : Tensor} (built : t.Built) : t.Sound := by
  induction built with
  | ofFlat made fits => exact (ofFlat_sound_iff made).2 fits
  | iota made fits => exact (iota_sound_iff made).2 fits
  | ofValue typed made fits => exact (ofValue_sound_iff typed made).2 fits
  | reshape _ done fits sound => exact (reshape_sound_iff sound done).2 fits
  | transpose _ done sound => exact transpose_sound sound done
  | reduce _ done sound => exact (reduce_sound sound done).1
  | «repeat» _ done fits sound => exact (repeat_sound_iff sound done).2 fits
  | join _ done sound => exact (join_sound sound done).1

end Tensor

open Tensor in
/-- A built array has positive dimensions and as many values as positions, a signed word of
them; and the index arithmetic of the operations on it stays within its values, so each
succeeds once its shape rule accepts and its result fits a block. -/
theorem sound_arrays {t : Tensor} (built : t.Built) :
    t.Sound ∧
      (∀ perm r, Shape.transpose t.shape perm = .ok r → ∃ y, t.transpose perm = .ok y) ∧
      (∀ axis op r, Shape.reduce t.shape axis op = .ok r →
        (positionCount r.dims : Int) ≤ blockLimit → ∃ y, t.reduce axis op = .ok y) ∧
      (∀ axis count r, Shape.repeat t.shape axis count = .ok r →
        (positionCount r.dims : Int) ≤ blockLimit → ∃ y, t.repeat axis count = .ok y) := by
  have sound := built.sound
  exact ⟨sound, fun perm r h => ⟨_, transpose_eq sound h⟩, fun axis op r => reduce_succeeds sound,
    fun axis count r => repeat_succeeds sound⟩

/-- The six values `0, …, 5` under the dimensions `[2, 3]` are a sound array. -/
theorem sound_arrays_iota : ∃ t, Tensor.iota .float32 [2, 3] = .ok t ∧ t.Sound := by
  have made : Tensor.iota .float32 [2, 3] = _ :=
    Tensor.iota_eq_ok (by decide) (by decide) (by decide)
  exact ⟨_, made, (sound_arrays (.iota made (by decide))).1⟩

end Rearrange
