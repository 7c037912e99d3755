import Rearrange.Proofs.OpenFunction
import Rearrange.Proofs.Counts
import Rearrange.Hlo.Lower
/-!
# Lowering a checked plan

A compiled plan replays: each step gives, by the shape rules, the output it records (`Plan.Checked`).
Lowering it to StableHLO then goes through, and builds exactly what the plan records: each step's
operations leave arrays of `main` with the shapes recorded after that step, and `main` takes the
plan's inputs and returns its output (`lowerPlan_checked`).

The one exception is the starting value of a reduction: a min or max reduction starts from the
lowest or highest value of the element type, and only the twelve element types of the host have
one with a literal (`initWritable_order_iff`). The other steps have nothing that can fail on a plan
that replays: a broadcast of a repeat maps each axis past the inserted one (`repeat_mapping_fits`),
the arrays of a join are broadcast onto consecutive blocks of the joined shape
(`OpenMain.lowerJoin`), and a merge is a reshape to the recorded dimensions, whose wrapped product
is the operand's (`merge_product`).
-/
namespace Rearrange.Hlo

open Program Word Plan

section Literals

/-- A double has a literal of every element type that is boolean, an integer or one of the three
floating types, and of every other one when it is finite. -/
theorem numericLiteral_ok {dtype : DType} {f : Float} {finite : Bool}
    (writable : finite = true ∨ dtype = .float16 ∨ dtype = .float32 ∨ dtype = .float64) :
    ∃ text, numericLiteral dtype f finite = .ok text := by
  unfold numericLiteral
  split
  · exact ⟨_, rfl⟩
  split
  · exact ⟨_, rfl⟩
  split
  · exact ⟨_, rfl⟩
  rename_i infinite
  rcases writable with finite' | rfl | rfl | rfl
  · exact absurd finite' infinite
  all_goals exact ⟨_, rfl⟩

theorem int_literal_ok (dtype : DType) (n : Int) : ∃ text, (Scalar.typed .int (.int n)).literal dtype = .ok text :=
  numericLiteral_ok (.inl rfl)

theorem numericLiteral_toBool {dtype : DType} {f : Float} {finite : Bool}
    (writable : finite = true ∨ dtype = .float16 ∨ dtype = .float32 ∨ dtype = .float64) :
    (numericLiteral dtype f finite).toBool = true := by
  obtain ⟨text, ok⟩ := numericLiteral_ok writable
  rw [ok]
  rfl

/-- The starting value of a reduction over an element type has a literal of that type. -/
def initWritable (dtype : DType) (op : Reduction) : Bool :=
  match reduction dtype op with
  | .ok (init, _) => (init.literal dtype).toBool
  | .error _ => false

/-- The element types of the host: a reduction by order starts from their lowest or highest value. -/
def hostTypes : List DType :=
  [.bool, .int8, .int16, .int32, .int64, .uint8, .uint16, .uint32, .uint64, .float16, .float32, .float64]

theorem initWritable_number {op : Reduction} (number : Shape.isNumberReduction op = true) (dtype : DType) :
    initWritable dtype op = true ↔ dtype ≠ .bool := by
  by_cases isBool : dtype = .bool
  · subst isBool
    cases op <;> simp_all [Shape.isNumberReduction, initWritable, reduction]
  · have writable : ∀ f, (numericLiteral dtype f true).toBool = true := fun f => numericLiteral_toBool (.inl rfl)
    cases op <;> simp_all [Shape.isNumberReduction, initWritable, reduction, Scalar.literal, HostValue.toFloat]

theorem initWritable_order_iff {op : Reduction} (order : Shape.isOrderReduction op = true) (dtype : DType) :
    initWritable dtype op = true ↔ dtype ∈ hostTypes := by
  cases op <;> simp only [Shape.isOrderReduction, Bool.false_eq_true] at order <;>
    cases dtype <;> simp [initWritable, reduction, lowestValue, highestValue, Except.map, Scalar.literal, hostTypes,
      numericLiteral_toBool, DType.isInteger, DType.isSignedInt, DType.isUnsigned] <;> rfl

theorem initWritable_ok {dtype : DType} {op : Reduction} (writable : initWritable dtype op = true) :
    ∃ init combine text, reduction dtype op = .ok (init, combine) ∧ init.literal dtype = .ok text := by
  unfold initWritable at writable
  split at writable
  · rename_i init combine red
    cases lit : init.literal dtype with
    | error f => simp [lit, Except.toBool] at writable
    | ok text => exact ⟨init, combine, text, red, lit⟩
  · cases writable

/-- Every reduction combines by an element-wise operation of two operands. -/
theorem reduction_isBinary {dtype : DType} {op : Reduction} {init : Scalar} {combine : Op}
    (h : reduction dtype op = .ok (init, combine)) : combine.isBinary = true := by
  cases op with
  | sum | mean | prod =>
    simp only [reduction] at h
    split at h
    · cases h
    · cases h
      rfl
  | min | max =>
    obtain ⟨_, -, h⟩ := Except.map_eq_ok.1 h
    cases h
    split <;> rfl
  | none | unnamed => cases h

/-- A reduce that its shape rule accepts is a min or a max, or its starting value has a literal:
a sum, mean or product is refused for booleans. -/
theorem reduce_writable {t out : Shape} {axis : Int} {op : Reduction} (h : t.reduce axis op = .ok out) :
    op = .min ∨ op = .max ∨ initWritable out.dtype op = true := by
  obtain ⟨a, -, -, rfl⟩ := reduce_shape_ok h
  unfold Shape.reduce at h
  split at h
  · cases h
  rename_i known
  split at h
  · cases h
  rename_i numeric
  cases op with
  | min => exact .inl rfl
  | max => exact .inr (.inl rfl)
  | sum | mean | prod =>
    refine .inr (.inr ((initWritable_number rfl _).2 ?_))
    simpa [Shape.isNumberReduction, Shape.withDims] using numeric
  | none | unnamed _ => simp [Shape.isNumberReduction, Shape.isOrderReduction] at known

end Literals

section Shapes

/-- The operands of a join have its element type. -/
theorem join_dtypes {ss : List Shape} {s : Shape} (h : Shape.join ss = .ok s) : ∀ t ∈ ss, t.dtype = s.dtype := by
  unfold Shape.join at h
  split at h
  · cases h
  · rename_i first rest
    dsimp only at h
    split at h
    · cases h
    · rename_i unchecked
      obtain ⟨rfl, -⟩ := Shape.make_ok h
      intro t mem
      obtain ⟨i, lt, rfl⟩ := List.getElem_of_mem mem
      have passed := List.findSome?_eq_none_iff.1 unchecked ((first :: rest)[i], i)
        (List.mem_zipIdx_iff_getElem?.2 (by simp))
      by_cases valid : ((first :: rest)[i]).ok = true
      · simp only [valid, Bool.not_true, Bool.false_eq_true, if_false] at passed
        split at passed
        · cases passed
        · rename_i same
          simpa using same
      · simp [valid] at passed

theorem wrapInt64_wrap_mul (a b : Int) : wrapInt64 (wrapInt64 a * b) = wrapInt64 (a * b) := Int.bmod_mul_bmod

theorem wrapInt64_mul_wrap (a b : Int) : wrapInt64 (a * wrapInt64 b) = wrapInt64 (a * b) := Int.mul_bmod_bmod

theorem wrapInt64_prod_map_wrap {α : Type} (f : α → Int) :
    ∀ xs : List α, wrapInt64 (xs.map fun x => wrapInt64 (f x)).prod = wrapInt64 (xs.map f).prod
  | [] => rfl
  | x :: xs => by
    simp only [List.map_cons, List.prod_cons]
    rw [wrapInt64_wrap_mul, ← wrapInt64_mul_wrap, wrapInt64_prod_map_wrap f xs, wrapInt64_mul_wrap]

theorem merge_product {s r : Shape} {groups : List (Int × Int)} (h : s.merge groups = .ok r) :
    Word.product r.dims = s.size := by
  have covers : Shape.CoversFrom s.rank 0 groups := (Shape.merge_ok_iff s groups).1 ⟨r, h⟩
  rw [Shape.merge, Shape.merge_go_ok s groups groups 0 0 [] covers] at h
  cases h
  have runs : ∀ g : Int × Int, Shape.runDim s.dims g.1.toNat g.2.toNat = wrapInt64 (Shape.slice s.dims g).prod :=
    fun g => by rw [Shape.runDim, Word.product, List.prod_eq_foldl, Shape.slice]
  simp only [Shape.withDims, List.reverse_nil, List.nil_append, Shape.size, Word.product, ← List.prod_eq_foldl,
    runs]
  rw [wrapInt64_prod_map_wrap, Shape.prod_slices groups 0 le_rfl covers]
  rfl

/-- A reshape takes a valid operand and keeps its element type. -/
theorem reshape_shape_ok {t out : Shape} {dims : List Int} (h : t.reshape dims = .ok out) :
    t.ok = true ∧ out = t.withDims dims := by
  unfold Shape.reshape at h
  split at h
  · cases h
  rename_i valid
  split at h
  · cases h
  dsimp only at h
  split at h
  · cases h
  · cases h
    exact ⟨by simpa using valid, rfl⟩

theorem transpose_dtype {t out : Shape} {perm : List Int} (h : t.transpose perm = .ok out) : out.dtype = t.dtype := by
  unfold Shape.transpose at h
  split at h
  · cases h
  split at h
  · cases h
    rfl
  split at h
  · cases h
  · cases h
    rfl

/-- Every shape rule keeps the element type of an operand. -/
theorem inferStep_dtype {s : Step} {current : List Shape} {out : Shape} (nonempty : current ≠ [])
    (h : inferStep s current = .ok out) : ∃ t ∈ current, out.dtype = t.dtype := by
  obtain ⟨first, rest, rfl⟩ := List.exists_cons_of_ne_nil nonempty
  unfold inferStep at h
  dsimp only at h
  split at h
  · obtain ⟨valid, rfl⟩ := reshape_shape_ok h
    have lt : s.input.toNat < (first :: rest).length := by
      by_contra outside
      rw [List.getD_eq_default _ _ (by omega)] at valid
      cases valid
    refine ⟨(first :: rest).getD s.input.toNat Shape.invalid, ?_, rfl⟩
    rw [List.getD_eq_getElem _ _ lt]
    exact List.getElem_mem lt
  · exact ⟨first, by simp, by simpa using (join_dtypes h first (by simp)).symm⟩
  · obtain ⟨a, -, -, rfl⟩ := reduce_shape_ok h
    exact ⟨first, by simp, rfl⟩
  · exact ⟨first, by simp, by simpa using transpose_dtype h⟩
  · obtain ⟨-, -, -, rfl⟩ := repeat_shape_ok h
    exact ⟨first, by simp, rfl⟩
  · have covers := (Shape.merge_ok_iff _ s.groups).1 ⟨out, h⟩
    rw [Shape.merge, Shape.merge_go_ok _ _ _ 0 0 [] covers] at h
    cases h
    exact ⟨first, by simp, rfl⟩
  · cases h

/-- A merge is a reshape of a valid operand to the merged dimensions, when they are positive. -/
theorem reshape_of_merge {s out : Shape} {groups : List (Int × Int)} (valid : s.ok = true)
    (merged : s.merge groups = .ok out) (pos : ∀ d ∈ out.dims, 0 < d) : s.reshape out.dims = .ok out := by
  have none : out.dims.zipIdx.find? (fun x => decide (x.1 ≤ 0)) = none :=
    List.find?_eq_none.2 fun x mem => by
      have := pos x.1 (List.fst_mem_of_mem_zipIdx mem)
      simpa using this
  have covers := (Shape.merge_ok_iff s groups).1 ⟨out, merged⟩
  have product := merge_product merged
  rw [Shape.merge, Shape.merge_go_ok s groups groups 0 0 [] covers] at merged
  cases merged
  simp only [Shape.reshape, valid, Bool.not_true, Bool.false_eq_true, if_false, none, product, ne_eq,
    not_true_eq_false]
  rfl

end Shapes

section Broadcasts

/-- A mapping that sends operand axis `i` to target axis `f i`, increasing, inside the target and
onto an axis of the same dimension, has no fault. -/
theorem mappingFault_eq_none {operand target : Shape} {f : Nat → Nat}
    (increasing : ∀ i, i + 1 < operand.rank → f i < f (i + 1))
    (within : ∀ i < operand.rank, f i < target.rank)
    (dims : ∀ i < operand.rank, target.dims.getD (f i) 0 = operand.dims.getD i 0) :
    mappingFault operand target ((List.range operand.rank).map fun i => (f i : Int)) = none := by
  have go : ∀ (mapping : List Int) m j (prev : Option Int), j + m = operand.rank →
      (∀ q, prev = some q → 0 < j ∧ q = f (j - 1)) →
      mappingFault.go operand target mapping j prev ((List.range' j m).map fun i => (f i : Int)) = none := by
    intro mapping m
    induction m with
    | zero => intro j prev _ _; simp [mappingFault.go]
    | succ m ih =>
      intro j prev total before
      have inRange : ¬ target.rank ≤ f j := Nat.not_le.2 (within j (by omega))
      have same : operand.dims[j]?.getD 0 = target.dims[f j]?.getD 0 := by
        simpa using (dims j (by omega)).symm
      have nonneg : ¬ ((f j : Int) < 0) := by omega
      have rest := ih (j + 1) (some (f j)) (by omega) (fun q h => ⟨by omega, by simpa using h.symm⟩)
      rw [List.range'_succ, List.map_cons, mappingFault.go.eq_def]
      cases prev with
      | none => simp [inRange, same, rest, nonneg]
      | some q =>
        obtain ⟨pos, rfl⟩ := before q rfl
        have below : f (j - 1) < f j := by
          have := increasing (j - 1) (by omega)
          rwa [show j - 1 + 1 = j by omega] at this
        simp [inRange, same, rest, nonneg, Nat.not_le.2 below]
  unfold mappingFault
  rw [List.range_eq_range']
  exact go _ operand.rank 0 none (by omega) (fun q h => by cases h)

/-- The broadcast of a repeat maps each operand axis to itself before the inserted axis and to the
next one after it, so it passes every check when the repeat's shape rule accepts. -/
theorem repeat_mapping_fits {s out : Shape} {axis count : Int} (h : s.repeat axis count = .ok out) :
    let mapping := (List.range s.rank).map fun (i : Nat) => if (i : Int) ≥ axis then (i : Int) + 1 else (i : Int)
    mapping.length = s.rank ∧ s.dtype = out.dtype ∧ mappingFault s out mapping = none := by
  obtain ⟨nonneg, le, -, rfl⟩ := repeat_shape_ok h
  intro mapping
  have skip : mapping = (List.range s.rank).map fun i => ((if axis.toNat ≤ i then i + 1 else i : Nat) : Int) :=
    List.map_congr_left fun i _ => by split_ifs <;> omega
  have length : (s.dims.insertIdx axis.toNat count).length = s.dims.length + 1 :=
    List.length_insertIdx_of_le_length le count
  refine ⟨by simp [mapping], rfl, ?_⟩
  rw [skip]
  apply mappingFault_eq_none
  · intro i _
    split_ifs <;> omega
  · intro i lt
    simp only [Shape.rank, Shape.withDims, length] at lt ⊢
    split_ifs <;> omega
  · intro i lt
    simp only [Shape.withDims, List.getD_eq_getElem?_getD]
    split_ifs with after
    · rw [List.getElem?_insertIdx_of_gt (by omega), Nat.add_sub_cancel]
    · rw [List.getElem?_insertIdx_of_lt (by omega)]

end Broadcasts

namespace Program

section Join

variable {p : Program} {main : Nat} {target : Shape}

/-- One array of a join, of the joined element type and with its dimensions after `front` in the
joined dimensions, is broadcast onto them and multiplied into the product of the arrays before. -/
theorem OpenMain.joinOperand (o : p.OpenMain main) {v : Nat} {s : Shape} (c : p.Carries main v s)
    (dtype : s.dtype = target.dtype) {front back : List Int} (block : target.dims = front ++ s.dims ++ back)
    {product : Option Nat} (before : ∀ m, product = some m → p.Carries main m target) :
    ∃ q m, Program.joinOperand target (p, product, (front.length : Int)) v =
        .ok (q, some m, ((front ++ s.dims).length : Int)) ∧
      q.OpenMain main ∧ Grows p q main ∧ q.Carries main m target := by
  obtain ⟨lt, fn, rfl⟩ := c
  set s := (p.value v).shape with hs
  -- operand axis `i` goes to axis `front.length + i` of the joined shape
  have shifted : ((List.range s.rank).map fun (i : Nat) => (front.length : Int) + (i : Int)) =
      (List.range s.rank).map fun i => ((front.length + i : Nat) : Int) := by simp
  have fits : mappingFault s target ((List.range s.rank).map fun (i : Nat) => (front.length : Int) + (i : Int)) =
      none := by
    rw [shifted]
    apply mappingFault_eq_none
    · intro i _
      omega
    · intro i lt
      simp only [Shape.rank, block, List.length_append] at lt ⊢
      omega
    · intro i lt
      simp only [Shape.rank] at lt
      simp [block, List.getElem?_append_left, List.getElem?_append_right, lt]
  obtain ⟨q₁, b, broadcast, o₁, g₁, c₁⟩ :=
    o.broadcastInDim ⟨lt, fn, rfl⟩ (by simp [hs]) dtype fits
  have offset : (front.length : Int) + ((List.range s.rank).map fun (i : Nat) => (front.length : Int) + (i : Int)).length =
      ((front ++ s.dims).length : Int) := by simp [Shape.rank]
  cases product with
  | none =>
    refine ⟨q₁, b, ?_, o₁, g₁, c₁⟩
    simp only [Program.joinOperand, ← hs, broadcast, offset]
    rfl
  | some prev =>
    obtain ⟨q₂, m, multiplied, o₂, g₂, c₂⟩ := o₁.binary (show Op.multiply.isBinary = true from rfl)
      (g₁.carries (before prev rfl)) c₁
    refine ⟨q₂, m, ?_, o₂, g₁.trans g₂, c₂⟩
    simp only [Program.joinOperand, ← hs, broadcast, offset]
    simp only [bind, Except.bind, multiplied]
    rfl

/-- The arrays of a join, each broadcast onto the block of the joined dimensions after those of
the arrays before it, leave the product of all with the joined shape. -/
theorem OpenMain.joinOperands (target : Shape) :
    ∀ (vs : List Nat) (ss : List Shape) (p : Program) (product : Option Nat) (front : List Int),
    p.OpenMain main → List.Forall₂ (p.Carries main) vs ss → (∀ s ∈ ss, s.dtype = target.dtype) →
    target.dims = front ++ ss.flatMap (·.dims) → (∀ m, product = some m → p.Carries main m target) →
    ∃ q last, vs.foldlM (Program.joinOperand target) (p, product, (front.length : Int)) =
        .ok (q, last, (target.rank : Int)) ∧
      q.OpenMain main ∧ Grows p q main ∧ (∀ m, last = some m → q.Carries main m target) ∧
      (product.isSome ∨ vs ≠ [] → last.isSome)
  | [], ss, p, product, front, o, carried, _, block, before => by
    cases carried
    refine ⟨p, product, ?_, o, Grows.refl p main, before, fun started => by simpa using started⟩
    simp [block, Shape.rank]
    rfl
  | v :: vs, ss, p, product, front, o, carried, dtypes, block, before => by
    obtain ⟨s, ss, c, later, rfl⟩ : ∃ s ss', p.Carries main v s ∧ List.Forall₂ (p.Carries main) vs ss' ∧
        ss = s :: ss' := by
      cases carried with
      | cons c rest => exact ⟨_, _, c, rest, rfl⟩
    have blocks : target.dims = front ++ s.dims ++ ss.flatMap (·.dims) := by
      simpa [List.append_assoc] using block
    obtain ⟨q₁, m, first, o₁, g₁, c₁⟩ :=
      o.joinOperand c (dtypes s (by simp)) blocks before
    obtain ⟨q, last, rest, o', g', carries, some⟩ :=
      joinOperands target vs ss q₁ (some m) (front ++ s.dims) o₁ (later.imp fun _ _ => g₁.carries)
        (fun t mem => dtypes t (by simp [mem])) (by simpa [List.append_assoc] using block)
        (fun m' same => by cases same; exact c₁)
    refine ⟨q, last, ?_, o', g₁.trans g', carries, fun _ => some (.inl rfl)⟩
    rw [List.foldlM_cons, first]
    exact rest

/-- The join of arrays of `main` whose shapes the join rule accepts gives one array of the joined
shape. -/
theorem OpenMain.lowerJoin (o : p.OpenMain main) {values : List Nat} {current : List Shape}
    (carried : List.Forall₂ (p.Carries main) values current) (joined : Shape.join current = .ok target) :
    ∃ q m, p.lowerJoin target values = .ok (q, m) ∧ q.OpenMain main ∧ Grows p q main ∧
      q.Carries main m target := by
  have nonempty : values ≠ [] := by
    rintro rfl
    cases carried
    cases joined
  obtain ⟨q, last, folded, o', g, carries, some⟩ :=
    o.joinOperands target values current p none [] carried (fun s mem => join_dtypes joined s mem)
      (by simpa using (join_shape_ok joined).1) (fun m none => by cases none)
  obtain ⟨m, rfl⟩ := Option.isSome_iff_exists.1 (some (.inr nonempty))
  refine ⟨q, m, ?_, o', g, carries m rfl⟩
  simp only [Program.lowerJoin]
  rw [show ((([] : List Int).length : Nat) : Int) = 0 by rfl] at folded
  simp only [folded]
  rfl

end Join

section Reduce

variable {p : Program} {main : Nat}

/-- An axis in range has a dimension. -/
theorem dim_of_adjustAxis {s : Shape} {axis : Int} {a : Nat} (adjusted : Shape.adjustAxis axis s.rank = .ok a) :
    ∃ d, s.dim axis = .ok d := by
  unfold Shape.adjustAxis at adjusted
  split at adjusted
  · cases adjusted
  · rename_i inRange
    simp only [Bool.or_eq_true, decide_eq_true_eq, not_or, not_lt] at inRange
    have rank : s.rank = s.dims.length := rfl
    have lt : (if axis < 0 then axis + s.rank else axis).toNat < s.dims.length := by
      split <;> omega
    have nonneg : ¬ (if axis < 0 then axis + s.rank else axis) < 0 := by
      split <;> omega
    simp only [Shape.dim, nonneg, if_false, List.getElem?_eq_getElem lt]
    exact ⟨_, rfl⟩

/-- A reduction of an array of `main` whose starting value has a literal gives an array of the shape
the reduce rule gives; a mean divides the sum by the length of the reduced axis, which keeps it. -/
theorem OpenMain.lowerReduce (o : p.OpenMain main) {x : Nat} {s : Shape} (c : p.Carries main x s)
    {step : Step} {out : Shape} (reduced : Shape.reduce s step.axis step.op = .ok out)
    (writable : initWritable s.dtype step.op = true) :
    ∃ q m, p.lowerReduce main step x = .ok (q, m) ∧ q.OpenMain main ∧ Grows p q main ∧ q.Carries main m out := by
  obtain ⟨init, combine, text, red, literal⟩ := initWritable_ok writable
  obtain ⟨a, adjusted, -, rfl⟩ := reduce_shape_ok reduced
  have shape : (p.value x).shape = s := c.2.2
  obtain ⟨q₁, start, splat, o₁, g₁, c₁⟩ := o.splatConstant
    (show init.literal (⟨s.dtype, []⟩ : Shape).dtype = .ok text from literal)
  obtain ⟨q₂, combined, q₃, bin, ret, o₃, g₃, -, parent, two, args, outs⟩ :=
    o₁.reductionFn (reduction_isBinary red) ⟨s.dtype, []⟩
  obtain ⟨q₄, r, reduce, o₄, g₄, c₄⟩ :=
    o₃.reduce (g₃.carries (g₁.carries c)) (g₃.carries c₁) parent two args outs adjusted
  have g : Grows p q₄ main := g₁.trans (g₃.trans g₄)
  by_cases mean : step.op = .mean
  · obtain ⟨d, dim⟩ := dim_of_adjustAxis adjusted
    obtain ⟨text', count⟩ := int_literal_ok (q₄.value r).shape.dtype d
    obtain ⟨q₅, n, splat', o₅, g₅, c₅⟩ := o₄.splatConstant count
    obtain ⟨q₆, m, divided, o₆, g₆, c₆⟩ := o₅.binary (show Op.divide.isBinary = true from rfl) (g₅.carries c₄)
      (by rw [c₄.2.2] at c₅; exact c₅)
    refine ⟨q₆, m, ?_, o₆, g.trans (g₅.trans g₆), c₆⟩
    simp only [Program.lowerReduce, shape, red, splat, bind, Except.bind]
    rw [bin]
    simp only [ret, reduce, mean, dim, ne_eq, not_true_eq_false, if_false, splat', divided]
  · refine ⟨q₄, r, ?_, o₄, g, c₄⟩
    simp only [Program.lowerReduce, shape, red, splat, bind, Except.bind]
    rw [bin]
    simp only [ret, reduce, mean, ne_eq, not_false_eq_true, if_true]
    rfl

end Reduce

section Steps

variable {p q : Program} {main : Nat}

theorem Grows.forall₂ (g : Grows p q main) {vs : List Nat} {ss : List Shape}
    (carried : List.Forall₂ (p.Carries main) vs ss) : List.Forall₂ (q.Carries main) vs ss :=
  carried.imp fun _ _ => g.carries

theorem forall₂_set {α β : Type} {R : α → β → Prop} {l₁ : List α} {l₂ : List β} (h : List.Forall₂ R l₁ l₂)
    (i : Nat) {a : α} {b : β} (r : R a b) : List.Forall₂ R (l₁.set i a) (l₂.set i b) := by
  induction h generalizing i with
  | nil => simp
  | cons head _ ih =>
    cases i with
    | zero => exact .cons r (by assumption)
    | succ i => exact .cons head (ih i)

/-- One step of a plan that replays lowers to operations of `main` that leave arrays with the shapes
the plan records after it. -/
theorem OpenMain.lowerStep (o : p.OpenMain main) {values : List Nat} {current : List Shape}
    (carried : List.Forall₂ (p.Carries main) values current) (nonempty : current ≠ [])
    (valid : ∀ t ∈ current, t.ok = true) {s : Step} (replays : inferStep s current = .ok s.output)
    (compiled : s.Compiled) (writable : s.kind = .reduce → initWritable s.output.dtype s.op = true) :
    ∃ q vs, p.lowerStep main s values = .ok (q, vs) ∧ q.OpenMain main ∧ Grows p q main ∧
      List.Forall₂ (q.Carries main) vs (s.recorded current) := by
  obtain ⟨first, rest, rfl⟩ := List.exists_cons_of_ne_nil nonempty
  obtain ⟨v, vs, cFirst, -, rfl⟩ : ∃ v vs, p.Carries main v first ∧ List.Forall₂ (p.Carries main) vs rest ∧
      values = v :: vs := by
    cases carried with
    | cons c r => exact ⟨_, _, c, r, rfl⟩
  have head : Plan.operandAt (v :: vs) 0 = .ok v := rfl
  have shape : (p.value v).shape = first := cFirst.2.2
  have single : ∀ {q : Program} {x : Nat}, q.Carries main x s.output → s.kind ≠ .reshapeSplit →
      List.Forall₂ (q.Carries main) [x] (s.recorded (first :: rest)) := fun c notSplit => by
    simp only [Step.recorded, notSplit, if_false]
    exact .cons c .nil
  unfold inferStep at replays
  dsimp only at replays
  cases kind : s.kind with
  | reshapeSplit =>
    simp only [kind] at replays
    have nonneg := compiled.input_nonneg kind
    obtain ⟨operandOk, -⟩ := reshape_shape_ok replays
    have lt : s.input.toNat < (first :: rest).length := by
      by_contra outside
      rw [List.getD_eq_default _ _ (by omega)] at operandOk
      cases operandOk
    have ltV : s.input.toNat < (v :: vs).length := by rw [carried.length_eq]; exact lt
    rw [List.getD_eq_getElem _ _ lt] at replays
    have c : p.Carries main (v :: vs)[s.input.toNat] (first :: rest)[s.input.toNat] := by
      simpa only [List.get_eq_getElem] using carried.get ltV lt
    obtain ⟨q, x, done, o', g, cx⟩ := o.reshape c replays
    refine ⟨q, (v :: vs).set s.input.toNat x, ?_, o', g, ?_⟩
    · simp only [Program.lowerStep, kind, Plan.operandAt_get nonneg ltV, bind, Except.bind, done]
      rfl
    · simp only [Step.recorded, kind, if_true]
      exact forall₂_set (g.forall₂ carried) _ cx
  | join =>
    simp only [kind] at replays
    obtain ⟨q, m, joined, o', g, c⟩ := o.lowerJoin carried replays
    refine ⟨q, [m], ?_, o', g, single c (by simp [kind])⟩
    simp only [Program.lowerStep, kind, joined]
    rfl
  | reduce =>
    simp only [kind, List.headD_cons] at replays
    have same : s.output.dtype = first.dtype := by
      obtain ⟨a, -, -, out⟩ := reduce_shape_ok replays
      rw [out]
      rfl
    obtain ⟨q, m, reduced, o', g, c⟩ := o.lowerReduce cFirst replays (same ▸ writable kind)
    refine ⟨q, [m], ?_, o', g, single c (by simp [kind])⟩
    simp only [Program.lowerStep, kind, head, bind, Except.bind, reduced]
    rfl
  | permute =>
    simp only [kind, List.headD_cons] at replays
    obtain ⟨q, m, transposed, o', g, c⟩ := o.transpose cFirst replays
    refine ⟨q, [m], ?_, o', g, single c (by simp [kind])⟩
    simp only [Program.lowerStep, kind, head, bind, Except.bind, transposed]
    rfl
  | «repeat» =>
    simp only [kind, List.headD_cons] at replays
    obtain ⟨rank, dtype, fits⟩ := repeat_mapping_fits replays
    obtain ⟨q, m, broadcast, o', g, c⟩ := o.broadcastInDim cFirst rank dtype fits
    refine ⟨q, [m], ?_, o', g, single c (by simp [kind])⟩
    simp only [Program.lowerStep, kind, head, shape, bind, Except.bind, broadcast]
    rfl
  | reshapeMerge =>
    simp only [kind, List.headD_cons] at replays
    obtain ⟨dims, pos⟩ := compiled.merge_dims kind
    have reshaped := reshape_of_merge (valid first (by simp)) replays (dims ▸ pos)
    rw [← dims] at reshaped
    obtain ⟨q, m, done, o', g, c⟩ := o.reshape cFirst reshaped
    refine ⟨q, [m], ?_, o', g, single c (by simp [kind])⟩
    simp only [Program.lowerStep, kind, head, bind, Except.bind, done]
    rfl
  | invalid | last | unnamed _ =>
    simp only [kind] at replays
    cases replays

/-- The shapes recorded after a step that replays are valid when the ones before it are. -/
theorem recorded_valid {s : Step} {current : List Shape} (nonempty : current ≠ [])
    (valid : ∀ t ∈ current, t.ok = true) (replays : inferStep s current = .ok s.output) :
    ∀ t ∈ s.recorded current, t.ok = true := by
  obtain ⟨t, mem, same⟩ := inferStep_dtype nonempty replays
  have outputOk : s.output.ok = true := by
    simpa only [Shape.ok, same] using valid t mem
  intro u mem'
  unfold Step.recorded at mem'
  split at mem'
  · rcases List.mem_or_eq_of_mem_set mem' with old | rfl
    · exact valid u old
    · exact outputOk
  · rw [List.mem_singleton] at mem'
    exact mem' ▸ outputOk

/-- The steps of a plan that replays lower one after another to operations of `main` that leave
arrays with the shapes the plan records after them all. -/
theorem OpenMain.lowerSteps (pattern : String) : ∀ (steps : List Step) (i : Nat) (p : Program)
    (values : List Nat) (current : List Shape), p.OpenMain main →
    List.Forall₂ (p.Carries main) values current → current ≠ [] → (∀ t ∈ current, t.ok = true) →
    Replays current steps → (∀ s ∈ steps, s.Compiled) →
    (∀ s ∈ steps, s.kind = .reduce → (s.op = .min ∨ s.op = .max) → initWritable s.output.dtype s.op = true) →
    ∃ q vs, Program.lowerSteps main pattern i steps p values = .ok (q, vs) ∧ q.OpenMain main ∧
      Grows p q main ∧ List.Forall₂ (q.Carries main) vs (recordedAfter current steps)
  | [], i, p, values, current, o, carried, _, _, _, _, _ =>
    ⟨p, values, rfl, o, Grows.refl p main, carried⟩
  | s :: rest, i, p, values, current, o, carried, nonempty, valid, replays, compiled, writable => by
    obtain ⟨first, later⟩ := replays
    -- a reduce the rule accepts has a starting literal unless it is a min or a max
    have written : s.kind = .reduce → initWritable s.output.dtype s.op = true := fun kind => by
      have rule : (current.headD Shape.invalid).reduce s.axis s.op = .ok s.output := by
        simpa [inferStep, kind] using first
      rcases reduce_writable rule with order | order | done
      · exact writable s (by simp) kind (.inl order)
      · exact writable s (by simp) kind (.inr order)
      · exact done
    obtain ⟨q₁, vs₁, stepped, o₁, g₁, c₁⟩ :=
      o.lowerStep carried nonempty valid first (compiled s (by simp)) written
    obtain ⟨q, vs, ran, o', g', c'⟩ :=
      lowerSteps pattern rest (i + 1) q₁ vs₁ (s.recorded current) o₁ c₁ (s.recorded_ne_nil nonempty)
        (recorded_valid nonempty valid first) later (fun t mem => compiled t (by simp [mem]))
        (fun t mem => writable t (by simp [mem]))
    refine ⟨q, vs, ?_, o', g₁.trans g', c'⟩
    simp only [Program.lowerSteps, stepped]
    exact ran

/-- Adding inputs of `main` one by one, the arrays so far kept in order, gives arrays of `main` with
the shapes of the inputs, which are its inputs in that order. -/
theorem foldl_inputs {f : Program × List Nat → Shape → Program × List Nat}
    (step : ∀ acc s, f acc s = ((acc.1.input main s).1, acc.2 ++ [(acc.1.input main s).2])) :
    ∀ (shapes : List Shape) (acc : Program × List Nat) (done : List Shape), acc.1.OpenMain main →
      List.Forall₂ (acc.1.Carries main) acc.2 done → (acc.1.fn main).inputs = acc.2 →
      (shapes.foldl f acc).1.OpenMain main ∧
        List.Forall₂ ((shapes.foldl f acc).1.Carries main) (shapes.foldl f acc).2 (done ++ shapes) ∧
        ((shapes.foldl f acc).1.fn main).inputs = (shapes.foldl f acc).2
  | [], acc, done, o, carried, inputs => by simpa using ⟨o, carried, inputs⟩
  | s :: rest, ⟨p, vs⟩, done, o, carried, inputs => by
    dsimp only at o carried inputs
    obtain ⟨o', result, c, old, added⟩ := o.input s
    have kept : List.Forall₂ ((p.input main s).1.Carries main) vs done := carried.imp fun v t c' => by
      obtain ⟨lt, fn, sh⟩ := c'
      exact ⟨by simp; omega, by rw [old v lt, fn], by rw [old v lt, sh]⟩
    have next := foldl_inputs step rest (f (p, vs) s) (done ++ [s]) (by rw [step]; exact o')
      (by rw [step, result]; exact List.rel_append kept (.cons c .nil))
      (by rw [step, result]; simpa [inputs] using added)
    simpa [List.foldl_cons] using next

theorem lowerInputs_main (plan : Plan) :
    (lowerInputs plan).1.OpenMain 0 ∧
      List.Forall₂ ((lowerInputs plan).1.Carries 0) (lowerInputs plan).2 plan.inputs ∧
      ((lowerInputs plan).1.fn 0).inputs = (lowerInputs plan).2 := by
  have unfolded : lowerInputs plan = plan.inputs.foldl
      (fun acc s => ((acc.1.input 0 s).1, acc.2 ++ [(acc.1.input 0 s).2])) ((({ name := plan.name } : Program).main).1, []) :=
    rfl
  rw [unfolded]
  simpa using foldl_inputs (fun acc s => rfl) plan.inputs _ [] (openMain_new plan.name) .nil rfl

theorem shapes_of_carried {vs : List Nat} {ss : List Shape} (carried : List.Forall₂ (p.Carries main) vs ss) :
    (vs.map fun v => (p.value v).shape) = ss := by
  induction carried with
  | nil => rfl
  | cons c _ ih => simp [c.2.2, ih]

theorem build_text {text : String} (built : p.build = .ok text) : text = p.write := by
  unfold build at built
  split at built
  · cases built
  · split at built
    · cases built
      rfl
    · cases built

end Steps

end Program

section Plans

/-- What lowering a plan builds, with `p` the program: `main` takes the plan's inputs in order and
returns its output, the program is complete and written as the plan's text, and the lowering of
the first `k` steps leaves arrays with the shapes the plan records after them. -/
structure LowersAsRecorded (plan : Plan) (p : Program) : Prop where
  program : lowerProgram plan = .ok p
  text : lowerPlan plan = .ok p.write
  main_name : (p.fn 0).name = "main"
  main_root : (p.fn 0).parent = none
  params : ((p.fn 0).inputs.map fun v => (p.value v).shape) = plan.inputs
  results : (p.fn 0).outputs = [plan.output]
  steps : ∀ k ≤ plan.steps.length, ∃ q vs,
    Program.lowerSteps 0 plan.pattern 0 (plan.steps.take k) (lowerInputs plan).1 (lowerInputs plan).2 =
      .ok (q, vs) ∧ (vs.map fun v => (q.value v).shape) = recordedAfter plan.inputs (plan.steps.take k)

/-- A plan that replays lowers as it records, unless a min or max reduction of it starts from a
value without a literal. -/
theorem lowers_of_checked {plan : Plan} (checked : plan.Checked)
    (writable : ∀ s ∈ plan.steps, s.kind = .reduce → (s.op = .min ∨ s.op = .max) →
      initWritable s.output.dtype s.op = true) :
    ∃ p, LowersAsRecorded plan p := by
  obtain ⟨o₀, carried₀, inputs₀⟩ := lowerInputs_main plan
  -- the lowering of every prefix of the steps keeps `main` open and leaves the recorded arrays
  have prefixes : ∀ k, ∃ q vs, Program.lowerSteps 0 plan.pattern 0 (plan.steps.take k) (lowerInputs plan).1
      (lowerInputs plan).2 = .ok (q, vs) ∧ q.OpenMain 0 ∧ Grows (lowerInputs plan).1 q 0 ∧
      List.Forall₂ (q.Carries 0) vs (recordedAfter plan.inputs (plan.steps.take k)) := fun k =>
    o₀.lowerSteps plan.pattern _ 0 _ _ plan.inputs carried₀ checked.inputs_ne_nil checked.inputs_ok
      ((replays_append plan.inputs _ _).1 (by rw [List.take_append_drop]; exact checked.replays)).1
      (fun s mem => checked.compiled s (List.mem_of_mem_take mem))
      (fun s mem => writable s (List.mem_of_mem_take mem))
  obtain ⟨q, vs, ran, o, g, carried⟩ := prefixes plan.steps.length
  rw [List.take_length] at ran carried
  rw [checked.ends] at carried
  obtain ⟨v, rfl, c⟩ : ∃ v, vs = [v] ∧ q.Carries 0 v plan.output := by
    cases carried with
    | cons c rest =>
      cases rest
      exact ⟨_, rfl, c⟩
  have returned := ret_ok (List.cons_ne_nil v [])
    (o.checkOpen (show ∀ w ∈ [v], (q.value w).fn = 0 by simp [c.2.1]) _)
  obtain ⟨r, hr⟩ : ∃ r, r = q.setFn 0 { q.fn 0 with
      returned := true,
      outputs := [v].map fun w => (q.value w).shape,
      statements := (q.fn 0).statements ++
        [{ op := if (q.fn 0).parent.isSome then Op.«return» else .funcReturn, inputs := [v] }] } := ⟨_, rfl⟩
  rw [← hr] at returned
  have fnR := fun i => hr ▸ fn_setFn q o.lt _ i
  have program : lowerProgram plan = .ok r := by
    have mainZero : (({ name := plan.name } : Program).main).2 = 0 := rfl
    simp only [lowerProgram, mainZero, ran, bind, Except.bind, c.2.2, Plan.Shape.same_self, if_true, pure,
      Except.pure]
    exact returned
  have complete : ∃ text, r.build = .ok text := by
    refine (build_ok_iff r).2 ⟨fun f mem => ?_, r.fn 0, ?_, by simp [fnR, o.name], by simp [fnR, o.root]⟩
    · obtain ⟨i, lt, rfl⟩ := List.getElem_of_mem mem
      have lt' : i < q.functions.length := by simpa [hr] using lt
      rw [← List.getD_eq_getElem _ default lt, ← fn]
      by_cases here : i = 0
      · simp [fnR, here]
      · simpa [fnR, here] using o.others i lt' here
    · have lt0 : 0 < r.functions.length := by simpa [hr] using Nat.lt_of_le_of_lt (Nat.zero_le _) o.lt
      show r.functions.getD 0 default ∈ r.functions
      rw [List.getD_eq_getElem _ _ lt0]
      exact List.getElem_mem lt0
  obtain ⟨text, built⟩ := complete
  refine ⟨r, ⟨program, ?_, by simp [fnR, o.name], by simp [fnR, o.root], ?_, by simp [fnR, c.2.2], fun k _ => ?_⟩⟩
  · simp only [lowerPlan, program, bind, Except.bind, built, build_text built]
  · have inputs : (r.fn 0).inputs = (lowerInputs plan).2 := by simpa [fnR] using g.inputs.trans inputs₀
    have values : ∀ w, r.value w = q.value w := fun w => by rw [hr, value_setFn]
    simpa only [inputs, values] using shapes_of_carried (g.forall₂ carried₀)
  · obtain ⟨q', vs', ran', -, -, carried'⟩ := prefixes k
    exact ⟨q', vs', ran', shapes_of_carried carried'⟩

/-- Lowering a compiled plan to StableHLO fails only for a min or max reduction over an element type
outside the host's, whose lowest or highest value has no literal; otherwise `main` takes the plan's
inputs in order and returns its output, and the steps leave arrays with the shapes the plan records
after each of them. -/
theorem lowerPlan_compiled {pattern : String} {inputs : List Shape} {opts : CompileOptions} {plan : Plan}
    (compiled : compile pattern inputs opts = .ok plan) :
    (∃ s ∈ plan.steps, s.kind = .reduce ∧ (s.op = .min ∨ s.op = .max) ∧ s.output.dtype ∉ hostTypes) ∨
      ∃ p, LowersAsRecorded plan p := by
  by_cases unwritable : ∃ s ∈ plan.steps, s.kind = .reduce ∧ (s.op = .min ∨ s.op = .max) ∧
      s.output.dtype ∉ hostTypes
  · exact .inl unwritable
  · refine .inr (lowers_of_checked (compile_checked compiled) fun s mem kind order => ?_)
    have host : s.output.dtype ∈ hostTypes := by
      by_contra outside
      exact unwritable ⟨s, mem, kind, order, outside⟩
    have isOrder : Shape.isOrderReduction s.op = true := by
      rcases order with isMin | isMax
      · rw [isMin]
        rfl
      · rw [isMax]
        rfl
    exact (initWritable_order_iff isOrder _).2 host

theorem lowerPlan_compiled_join :
    ∃ plan, compile "a, b -> a b" [⟨.float32, [2]⟩, ⟨.float32, [3]⟩] {} = .ok plan ∧
      ((∃ s ∈ plan.steps, s.kind = .reduce ∧ (s.op = .min ∨ s.op = .max) ∧ s.output.dtype ∉ hostTypes) ∨
        ∃ p, LowersAsRecorded plan p) := by
  have ok : (compile "a, b -> a b" [⟨.float32, [2]⟩, ⟨.float32, [3]⟩] {}).toBool = true := by decide +kernel
  cases compiled : compile "a, b -> a b" [⟨.float32, [2]⟩, ⟨.float32, [3]⟩] {} with
  | error f =>
    rw [compiled] at ok
    cases ok
  | ok plan => exact ⟨plan, rfl, lowerPlan_compiled compiled⟩

end Plans

end Rearrange.Hlo
