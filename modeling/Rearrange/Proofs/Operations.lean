import Rearrange.Proofs.Transpose
import Rearrange.Proofs.CheckedReads
/-!
# Reductions, repeats and joins of sound arrays

On a sound array the index arithmetic of `Tensor.reduce`, `Tensor.repeat` and `Tensor.join` is
exact: the axis splits the dimensions into `outer × n × inner` positions, every offset the loops
read lies within the stored values, and the reservations are the result's number of positions.
So each operation succeeds once its shape rule accepts the operands and its result fits a block,
and it computes what it says: cell `o · inner + i` of a reduction folds the `n` values at
`(o · n + k) · inner + i` (`reduce_eq`), a repeat copies each block of `inner` values `count`
times (`repeat_eq`), and a join multiplies out the values of its operands (`join_eq`). The results
are sound (`reduce_sound`, `repeat_sound`, `join_sound`).
-/
namespace Rearrange

open Word

@[simp] theorem Except.ok_bind {ε α β : Type} (a : α) (f : α → Except ε β) :
    Except.bind (.ok a) f = f a := rfl

section Loops

variable {σ ε α : Type}

theorem forIn_range_fold (read : Nat → Except ε α) (f : σ → α → σ) (vals : Nat → α) (init : σ)
    (n : Nat) (reads : ∀ k < n, read k = .ok (vals k)) :
    (forIn [:n] init fun k acc => (read k).bind fun v => pure (.yield (f acc v))) =
      .ok ((List.range n).foldl (fun acc k => f acc (vals k)) init) := by
  have loop := forIn_range_eq (fun k acc => (read k).bind fun v => pure (.yield (f acc v)))
    (fun m => (List.range m).foldl (fun acc k => f acc (vals k)) init) n fun k lt => by
      simp [reads k lt, List.range_succ, pure, Except.pure]
  simpa using loop

theorem forIn_range_from (f : Nat → σ → Except ε (ForInStep σ)) (state : Nat → σ) (n : Nat)
    {init : σ} (start : state 0 = init)
    (step : ∀ k < n, f k (state k) = .ok (.yield (state (k + 1)))) :
    forIn [:n] init f = .ok (state n) :=
  start ▸ forIn_range_eq f state n step

end Loops

namespace Tensor

/-- The fold of cell `c` of a reduction along an axis of `n` positions with `inner` positions
after it: the values at `(c / inner · n + k) · inner + c % inner`, from the operation's start. -/
def reducedCell (x : Tensor) (op : Reduction) (n inner c : Nat) : Float :=
  (List.range n).foldl (fun acc k => reductionStep op acc (x.flat.getD ((c / inner * n + k) * inner + c % inner) 0))
    (reductionStart op)

theorem reserve_eq_ok {n : Int} (nonneg : 0 ≤ n) (small : n ≤ blockLimit) (byLength : Bool) :
    reserve n byLength = .ok () := by
  simp [reserve, Int.not_lt.2 nonneg, Int.not_lt.2 small]

end Tensor

/-- An axis the reduction rule accepts is in range, and the result has that axis erased. -/
theorem reduce_shape_ok {s r : Shape} {axis : Int} {op : Reduction} (h : Shape.reduce s axis op = .ok r) :
    ∃ a, Shape.adjustAxis axis s.rank = .ok a ∧ a < s.rank ∧ r = s.withDims (s.dims.eraseIdx a) := by
  unfold Shape.reduce at h
  split at h
  · cases h
  split at h
  · cases h
  cases adj : Shape.adjustAxis axis s.rank with
  | error f => simp [adj] at h
  | ok a =>
    simp only [adj, Except.ok.injEq] at h
    refine ⟨a, rfl, ?_, h.symm⟩
    unfold Shape.adjustAxis at adj
    split at adj
    · cases adj
    · simp only [Except.ok.injEq] at adj
      rename_i inRange
      simp only [Bool.or_eq_true, decide_eq_true_eq, not_or, not_lt] at inRange
      split at adj <;> omega

/-- Value `k` of cell `c` of a reduction over `outer × n × inner` positions is the one at
row-major index `(c / inner, k, c % inner)`, and the word arithmetic that finds it does not wrap. -/
theorem reduced_position {outer n inner c k : Nat} (hc : c < outer * inner) (hk : k < n)
    (fits : ((outer * n * inner : Nat) : Int) ≤ maxInt64) :
    wrapInt64 (wrapInt64 (wrapInt64 ((c : Int) / inner * n) + k) * inner + (c : Int) % inner) =
      ((c / inner * n + k) * inner + c % inner : Nat) ∧
      (c / inner * n + k) * inner + c % inner < outer * n * inner := by
  have innerPos : 0 < inner := Nat.pos_of_ne_zero fun zero => by simp [zero] at hc
  have index : InBounds [outer, n, inner] [c / inner, k, c % inner] :=
    .cons (Nat.div_lt_of_lt_mul (by rwa [Nat.mul_comm])) (.cons hk (.cons (Nat.mod_lt c innerPos) .nil))
  have lt : (c / inner * n + k) * inner + c % inner < outer * n * inner := by
    have := rowNumber_lt index
    simp only [rowNumber, List.prod_cons, List.prod_nil] at this
    rw [show outer * n * inner = outer * (n * (inner * 1)) by ring]
    convert this using 1
    ring
  have exact : ∀ m : Nat, m ≤ outer * n * inner → wrapInt64 (m : Int) = m := fun m le =>
    wrapInt64_of_le (Int.natCast_nonneg m) (le_trans (Int.ofNat_le.2 le) fits)
  have le : c / inner * n + k ≤ (c / inner * n + k) * inner := Nat.le_mul_of_pos_right _ innerPos
  refine ⟨?_, lt⟩
  rw [show (c : Int) / inner * n = ((c / inner * n : Nat) : Int) by push_cast; rfl,
    exact _ (by omega), ← Nat.cast_add, exact _ (by omega), ← Nat.cast_mul, ← Int.natCast_mod,
    ← Nat.cast_add, exact _ lt.le]

namespace Tensor

variable {x : Tensor}

theorem Sound.product_take (sound : x.Sound) (a : Nat) :
    Word.product (x.shape.dims.take a) = ((x.shape.dims.map Int.toNat).take a).prod := by
  have le := prod_take_le sound.natDims_pos a
  conv_lhs => rw [← sound.dims_eq, ← List.map_take, product_natCast _ (by
    exact le_trans (Int.ofNat_le.2 (sound.prod ▸ le)) sound.fits)]

theorem Sound.product_drop (sound : x.Sound) (a : Nat) :
    Word.product (x.shape.dims.drop a) = ((x.shape.dims.map Int.toNat).drop a).prod := by
  have le := prod_drop_le sound.natDims_pos a
  conv_lhs => rw [← sound.dims_eq, ← List.map_drop, product_natCast _ (by
    exact le_trans (Int.ofNat_le.2 (sound.prod ▸ le)) sound.fits)]

theorem Sound.getD_dims (sound : x.Sound) (a : Nat) :
    x.shape.dims.getD a 0 = ((x.shape.dims.map Int.toNat).getD a 0 : Int) := by
  conv_lhs => rw [← sound.dims_eq]
  exact List.getD_map _ _ _

theorem Sound.size_split (sound : x.Sound) {a : Nat} (lt : a < x.shape.rank) :
    x.flat.size = ((x.shape.dims.map Int.toNat).take a).prod * (x.shape.dims.map Int.toNat).getD a 0 *
      ((x.shape.dims.map Int.toNat).drop (a + 1)).prod := by
  generalize D : x.shape.dims.map Int.toNat = ds
  have aD : a < ds.length := by simpa [← D, Shape.rank] using lt
  rw [← sound.prod, D, ← List.prod_take_mul_prod_drop ds a, List.drop_eq_getElem_cons aD,
    List.prod_cons, List.getD_eq_getElem _ _ aD, Nat.mul_assoc]

theorem sound_iff_of_count {t : Tensor} (pos : ∀ d ∈ t.shape.dims, 0 < d)
    (count : positionCount t.shape.dims = t.flat.size) :
    t.Sound ↔ (positionCount t.shape.dims : Int) ≤ maxInt64 :=
  ⟨fun sound => count ▸ sound.fits, fun fits => ⟨pos, count, count ▸ fits⟩⟩

theorem Sound.getD_pos (sound : x.Sound) {a : Nat} (lt : a < x.shape.rank) :
    0 < (x.shape.dims.map Int.toNat).getD a 0 := by
  have aD : a < (x.shape.dims.map Int.toNat).length := by simpa [Shape.rank] using lt
  rw [List.getD_eq_getElem _ _ aD]
  exact sound.natDims_pos _ (List.getElem_mem aD)

theorem Sound.erased_le (sound : x.Sound) {a : Nat} (lt : a < x.shape.rank) :
    ((x.shape.dims.map Int.toNat).take a).prod * ((x.shape.dims.map Int.toNat).drop (a + 1)).prod ≤
      x.flat.size := by
  rw [sound.size_split lt]
  exact Nat.mul_le_mul_right _ (Nat.le_mul_of_pos_right _ (sound.getD_pos lt))

end Tensor

section Reduce

variable {x : Tensor} {axis : Int} {op : Reduction} {r : Shape}

theorem reduce_positionCount (sound : x.Sound) {a : Nat}
    (rdims : r = x.shape.withDims (x.shape.dims.eraseIdx a)) :
    Tensor.positionCount r.dims =
      ((x.shape.dims.map Int.toNat).take a).prod * ((x.shape.dims.map Int.toNat).drop (a + 1)).prod := by
  have pos : ∀ d ∈ r.dims, 0 < d := by
    rw [rdims]
    exact fun d mem => sound.pos d (List.mem_of_mem_eraseIdx mem)
  rw [positionCount_eq_prod pos, rdims, Shape.withDims, List.eraseIdx_eq_take_drop_succ,
    List.map_append, List.prod_append, List.map_take, List.map_drop]

/-- On a sound array a reduction the shape rule accepts, whose result fits a block, succeeds:
cell `c` folds the values of the reduced axis at `(c / inner · n + k) · inner + c % inner`. -/
theorem reduce_eq (sound : x.Sound) (h : Shape.reduce x.shape axis op = .ok r)
    (small : (Tensor.positionCount r.dims : Int) ≤ Tensor.blockLimit) :
    ∃ a, Shape.adjustAxis axis x.shape.rank = .ok a ∧
      let D := x.shape.dims.map Int.toNat
      x.reduce axis op = .ok ⟨r, ((List.range ((D.take a).prod * (D.drop (a + 1)).prod)).map fun c =>
        r.dtype.normalize (let acc := x.reducedCell op (D.getD a 0) (D.drop (a + 1)).prod c
          if op = .mean then acc / Float.ofInt (D.getD a 0) else acc)).toArray, 0⟩ := by
  obtain ⟨a, adj, lt, rdims⟩ := reduce_shape_ok h
  refine ⟨a, adj, ?_⟩
  intro D
  have Dpos : ∀ d ∈ D, 0 < d := sound.natDims_pos
  have nPos : 0 < D.getD a 0 := sound.getD_pos lt
  have roomLe : (D.take a).prod * (D.drop (a + 1)).prod ≤ x.flat.size := sound.erased_le lt
  have outerPos : 0 < (D.take a).prod :=
    List.prod_pos fun d mem => Dpos d (List.mem_of_mem_take mem)
  have innerPos : 0 < (D.drop (a + 1)).prod :=
    List.prod_pos fun d mem => Dpos d (List.mem_of_mem_drop mem)
  have size := sound.size_split lt
  have count := reduce_positionCount sound rdims
  simp only [Tensor.reduce, h, adj, bind, Except.ok_bind]
  rw [sound.product_take, sound.product_drop, sound.getD_dims]
  rw [count] at small
  generalize (D.take a).prod = outer at *
  generalize (D.drop (a + 1)).prod = inner at *
  generalize D.getD a 0 = n at *
  have nLe : n ≤ x.flat.size := by
    rw [size]
    exact le_trans (Nat.le_mul_of_pos_left n outerPos) (Nat.le_mul_of_pos_right _ innerPos)
  have room : wrapInt64 (↑outer * ↑inner) = ((outer * inner : Nat) : Int) := by
    rw [← Nat.cast_mul]
    exact wrapInt64_of_le (Int.natCast_nonneg _) (le_trans (Int.ofNat_le.2 roomLe) sound.fits)
  rw [room, Tensor.reserve_eq_ok (Int.natCast_nonneg _) small]
  have nMin : min n (x.flat.size + 1) = n := Nat.min_eq_left (by omega)
  have cMin : min (outer * inner) (outer * inner + 1) = outer * inner := Nat.min_eq_left (by omega)
  simp only [Int.toNat_natCast]
  rw [nMin, cMin]
  let cell : Nat → Float := fun c => r.dtype.normalize
    (if op = .mean then x.reducedCell op n inner c / Float.ofInt n else x.reducedCell op n inner c)
  rw [show (#[] : Array Float) = ((List.range 0).map cell).toArray from rfl,
    forIn_range_eq _ (fun c => ((List.range c).map cell).toArray) (outer * inner) ?cells]
  · simp [pure, Except.pure, cell]
  case cells =>
    intro c hc
    rw [forIn_range_fold _ _ (fun k => x.flat.getD ((c / inner * n + k) * inner + c % inner) 0) _ n
      fun k hk => ?_]
    · have below : (c : Int) < outer * inner := by exact_mod_cast hc
      simp [below, List.range_succ, pure, Except.pure, cell, Tensor.reducedCell]
    · obtain ⟨pos, lt⟩ := reduced_position hc hk (size ▸ sound.fits)
      rw [pos, Tensor.stored_of_lt (size ▸ lt)]

theorem reduce_succeeds (sound : x.Sound) (h : Shape.reduce x.shape axis op = .ok r)
    (small : (Tensor.positionCount r.dims : Int) ≤ Tensor.blockLimit) :
    ∃ t, x.reduce axis op = .ok t := by
  obtain ⟨a, -, eq⟩ := reduce_eq sound h small
  exact ⟨_, eq⟩

/-- A reduction of a sound array that succeeds has a result that fits a block. -/
theorem reduce_fits (sound : x.Sound) {t : Tensor} (done : x.reduce axis op = .ok t) :
    ∃ r, Shape.reduce x.shape axis op = .ok r ∧
      (Tensor.positionCount r.dims : Int) ≤ Tensor.blockLimit := by
  obtain ⟨r, h, rest⟩ := Except.bind_eq_ok.1 done
  obtain ⟨a, adj, lt, rdims⟩ := reduce_shape_ok h
  obtain ⟨a', adj', rest⟩ := Except.bind_eq_ok.1 rest
  obtain rfl : a' = a := Except.ok.inj (adj'.symm.trans adj)
  dsimp only at rest
  obtain ⟨u, reserved, -⟩ := Except.bind_eq_ok.1 rest
  have room := (Tensor.reserve_ok reserved).2
  have exact : wrapInt64 (product (x.shape.dims.take a') * product (x.shape.dims.drop (a' + 1))) =
      ((((x.shape.dims.map Int.toNat).take a').prod * ((x.shape.dims.map Int.toNat).drop (a' + 1)).prod :
        Nat) : Int) := by
    rw [sound.product_take, sound.product_drop, ← Nat.cast_mul]
    exact wrapInt64_of_le (Int.natCast_nonneg _) (le_trans (Int.ofNat_le.2 (sound.erased_le lt)) sound.fits)
  rw [exact] at room
  refine ⟨r, h, ?_⟩
  rw [reduce_positionCount sound rdims]
  exact room

/-- A reduction of a sound array that succeeds is sound, with the shape of the shape rule. -/
theorem reduce_sound (sound : x.Sound) {t : Tensor} (done : x.reduce axis op = .ok t) :
    t.Sound ∧ Shape.reduce x.shape axis op = .ok t.shape := by
  obtain ⟨r, h, small⟩ := reduce_fits sound done
  obtain ⟨a, adj, eq⟩ := reduce_eq sound h small
  obtain ⟨a', adj', lt, rdims⟩ := reduce_shape_ok h
  obtain rfl : a' = a := Except.ok.inj (adj'.symm.trans adj)
  rw [eq] at done
  cases done
  refine ⟨⟨?_, ?_, ?_⟩, h⟩
  · rw [rdims]
    exact fun d mem => sound.pos d (List.mem_of_mem_eraseIdx mem)
  · simp [reduce_positionCount sound rdims]
  · simpa using le_trans (Int.ofNat_le.2 (sound.erased_le lt)) sound.fits

end Reduce

namespace Tensor

theorem block_eq {t : Tensor} {lo hi : Nat} (le : lo ≤ hi) (within : hi ≤ t.flat.size) :
    t.block lo hi = ((List.range (hi - lo)).map fun i => t.flat.getD (lo + i) 0).toArray := by
  have spare : hi - max lo t.flat.size = 0 := by omega
  rw [block, spare, Array.replicate_zero, Array.append_empty]
  apply Array.ext
  · simp
    omega
  · intro i lt _
    simp at lt
    simp [Array.getElem_extract, Array.getD, show lo + i < t.flat.size by omega]

end Tensor

/-- Position `p` of `count` copies of blocks of `inner` values, read from block `o`. -/
theorem repeated_index {o count inner j i : Nat} (hj : j < count) (hi : i < inner) :
    (o * count * inner + j * inner + i) / (count * inner) * inner +
      (o * count * inner + j * inner + i) % inner = o * inner + i := by
  have within : j * inner + i < count * inner := by
    calc j * inner + i < j * inner + inner := by omega
      _ = (j + 1) * inner := by ring
      _ ≤ count * inner := Nat.mul_le_mul_right _ hj
  have split : o * count * inner + j * inner + i = j * inner + i + count * inner * o := by ring
  have cell : o * count * inner + j * inner + i = i + inner * (o * count + j) := by ring
  rw [split, Nat.add_mul_div_left _ _ (by omega), Nat.div_eq_of_lt within, ← split, cell,
    Nat.add_mul_mod_self_left, Nat.mod_eq_of_lt hi]
  ring

theorem insertIdx_eq_take_drop {α : Type} (a : α) :
    ∀ (l : List α) (n : Nat), n ≤ l.length → l.insertIdx n a = l.take n ++ a :: l.drop n
  | l, 0, _ => by simp [List.insertIdx_zero]
  | [], n + 1, le => by simp at le
  | b :: l, n + 1, le => by
    rw [List.insertIdx_succ_cons, insertIdx_eq_take_drop a l n (by simpa using le)]
    rfl

theorem product_of_count {dims : List Int} (pos : ∀ d ∈ dims, 0 < d)
    (fits : (Tensor.positionCount dims : Int) ≤ maxInt64) : product dims = Tensor.positionCount dims := by
  rw [positionCount_of_pos pos] at fits ⊢
  exact product_eq_prod pos fits

theorem repeat_shape_ok {s r : Shape} {axis count : Int} (h : Shape.repeat s axis count = .ok r) :
    0 ≤ axis ∧ axis.toNat ≤ s.rank ∧ 0 < count ∧ r = s.withDims (s.dims.insertIdx axis.toNat count) := by
  unfold Shape.repeat at h
  split at h
  · cases h
  split at h
  · cases h
  rename_i inRange positive
  simp only [Bool.or_eq_true, decide_eq_true_eq, not_or, not_lt] at inRange
  cases h
  exact ⟨inRange.1, by omega, by omega, rfl⟩

section Repeat

variable {x : Tensor} {axis count : Int} {r : Shape}

theorem repeat_eq (sound : x.Sound) (h : Shape.repeat x.shape axis count = .ok r)
    (reserved : Tensor.reserve r.size false = .ok ()) :
    let D := x.shape.dims.map Int.toNat
    let inner := (D.drop axis.toNat).prod
    x.repeat axis count =
      if Tensor.blockLimit < (((D.take axis.toNat).prod * count.toNat * inner : Nat) : Int) then
        .error Tensor.growFault
      else .ok ⟨r, ((List.range ((D.take axis.toNat).prod * count.toNat * inner)).map
        fun p => x.flat.getD (p / (count.toNat * inner) * inner + p % inner) 0).toArray,
        r.size.toNat - (D.take axis.toNat).prod * count.toNat * inner⟩ := by
  intro D inner
  obtain ⟨nonneg, le, positive, rdims⟩ := repeat_shape_ok h
  simp only [Tensor.repeat, h, reserved, bind, Except.ok_bind]
  rw [sound.product_take, sound.product_drop]
  have size : x.flat.size = (D.take axis.toNat).prod * inner := by
    rw [← sound.prod, ← List.prod_take_mul_prod_drop D axis.toNat]
  have innerPos : 0 < inner :=
    List.prod_pos fun d mem => sound.natDims_pos d (List.mem_of_mem_drop mem)
  have outerLe : (D.take axis.toNat).prod ≤ x.room := by
    rw [Tensor.room, size]
    exact le_trans (Nat.le_mul_of_pos_right _ innerPos) (Nat.le_add_right _ _)
  simp only [D, inner] at size innerPos outerLe ⊢
  generalize ((x.shape.dims.map Int.toNat).take axis.toNat).prod = outer at *
  generalize ((x.shape.dims.map Int.toNat).drop axis.toNat).prod = inner at *
  generalize count.toNat = n
  simp only [Int.toNat_natCast, Nat.min_eq_left (Nat.le_succ_of_le outerLe), ne_eq,
    Int.natCast_eq_zero, Nat.pos_iff_ne_zero.1 innerPos, not_false_eq_true, if_true]
  let g : Nat → Float := fun p => x.flat.getD (p / (n * inner) * inner + p % inner) 0
  -- the states are named, so that the kernel compares loop bodies without reducing them
  let copied : Nat → Array Float := fun o => ((List.range (o * n * inner)).map g).toArray
  have start : copied 0 = #[] := by simp [copied]
  let grows : Nat → Bool := fun o => decide (Tensor.blockLimit < ((o * n * inner + n * inner : Nat) : Int))
  rw [← start, forIn_range_until _ copied grows Tensor.growFault outer fun o ho => ?_]
  · -- the last block is the first to go past a block, if one does
    have anyOver : (List.range outer).any grows = decide (Tensor.blockLimit < ((outer * n * inner : Nat) : Int)) := by
      simpa only [grows, Nat.mul_assoc] using any_range_past (by decide) (n * inner) outer
    rw [anyOver]
    by_cases past : Tensor.blockLimit < ((outer * n * inner : Nat) : Int)
    · rw [decide_eq_true past, if_pos rfl, if_pos past]
      rfl
    · rw [decide_eq_false past, if_neg Bool.false_ne_true, if_neg past]
      simp [pure, Except.pure, g, copied]
  -- block `o` lies within the values, and the word arithmetic that bounds it does not wrap
  have hiLe : (o + 1) * inner ≤ x.flat.size := by
    rw [size]
    exact Nat.mul_le_mul_right _ ho
  have exact : ∀ m : Nat, m ≤ x.flat.size → wrapInt64 (m : Int) = m := fun m le =>
    wrapInt64_of_le (Int.natCast_nonneg m) (le_trans (Int.ofNat_le.2 le) sound.fits)
  have lo : wrapInt64 (↑o * ↑inner) = ((o * inner : Nat) : Int) := by
    rw [← Nat.cast_mul, exact _ (le_trans (Nat.mul_le_mul_right _ (Nat.le_succ o)) hiLe)]
  have hi : wrapInt64 ((↑o + 1) * ↑inner) = (((o + 1) * inner : Nat) : Int) := by
    rw [← exact _ hiLe]
    push_cast
    rfl
  have roomLe : (((o + 1) * inner : Nat) : Int) ≤ (x.room : Int) :=
    Int.ofNat_le.2 (le_trans hiLe (Nat.le_add_right _ _))
  rw [lo, hi, Failure.sliceFault?_none (Int.natCast_nonneg _) (by push_cast; nlinarith) roomLe]
  simp only [Int.toNat_natCast]
  rw [Tensor.block_eq (Nat.mul_le_mul_right _ (Nat.le_succ o)) hiLe,
    show (o + 1) * inner - o * inner = inner by rw [Nat.succ_mul, Nat.add_sub_cancel_left]]
  have sizes : (copied o).size + n * ((List.range inner).map fun i => x.flat.getD (o * inner + i) 0).toArray.size =
      o * n * inner + n * inner := by simp [copied]
  rw [sizes]
  by_cases past : Tensor.blockLimit < ((o * n * inner + n * inner : Nat) : Int)
  · rw [if_pos past, if_pos (decide_eq_true past)]
    rfl
  rw [if_neg past, if_neg (by simpa [grows] using past)]
  let appended : Nat → Array Float := fun j => ((List.range (o * n * inner + j * inner)).map g).toArray
  rw [forIn_range_from _ appended n (by simp [appended, copied]) fun j hj => ?_]
  · have whole : o * n * inner + n * inner = (o + 1) * n * inner := by ring
    simp [appended, copied, whole, pure, Except.pure]
  · have next : o * n * inner + (j + 1) * inner = o * n * inner + j * inner + inner := by ring
    have split : (List.range (o * n * inner + j * inner + inner)).map g =
        (List.range (o * n * inner + j * inner)).map g ++
          (List.range inner).map fun i => x.flat.getD (o * inner + i) 0 := by
      rw [List.range_add, List.map_append, List.map_map]
      refine congrArg (_ ++ ·) (List.map_congr_left fun i mem => ?_)
      simp only [Function.comp_apply, g, repeated_index hj (List.mem_range.1 mem)]
    simp only [pure, Except.pure, appended, next, split, List.append_toArray]

theorem repeat_dims_pos (sound : x.Sound) (positive : 0 < count) :
    ∀ d ∈ x.shape.dims.insertIdx axis.toNat count, 0 < d := by
  intro d mem
  rcases List.eq_or_mem_of_mem_insertIdx mem with rfl | listed
  · exact positive
  · exact sound.pos d listed

theorem repeat_positionCount (sound : x.Sound) (positive : 0 < count) (le : axis.toNat ≤ x.shape.rank) :
    let D := x.shape.dims.map Int.toNat
    Tensor.positionCount (x.shape.dims.insertIdx axis.toNat count) =
      (D.take axis.toNat).prod * count.toNat * (D.drop axis.toNat).prod := by
  intro D
  rw [positionCount_eq_prod (repeat_dims_pos sound positive), insertIdx_eq_take_drop _ _ _ le, List.map_append, List.map_cons,
    List.prod_append, List.prod_cons, List.map_take, List.map_drop, Nat.mul_assoc]

/-- A repeat of a sound array that succeeds has positive dimensions and as many values as
positions, with the shape of the shape rule. -/
theorem repeat_ok (sound : x.Sound) {t : Tensor} (done : x.repeat axis count = .ok t) :
    Shape.repeat x.shape axis count = .ok t.shape ∧ (∀ d ∈ t.shape.dims, 0 < d) ∧
      Tensor.positionCount t.shape.dims = t.flat.size := by
  obtain ⟨r, h, rest⟩ := Except.bind_eq_ok.1 done
  obtain ⟨u, reserved, -⟩ := Except.bind_eq_ok.1 rest
  obtain ⟨nonneg, le, positive, rdims⟩ := repeat_shape_ok h
  rw [repeat_eq sound h reserved] at done
  split at done
  · cases done
  cases done
  refine ⟨h, ?_, ?_⟩
  · rw [rdims]
    exact repeat_dims_pos sound positive
  · rw [rdims]
    simp [Shape.withDims, repeat_positionCount sound positive le]

theorem repeat_sound_iff (sound : x.Sound) {t : Tensor} (done : x.repeat axis count = .ok t) :
    t.Sound ↔ (Tensor.positionCount t.shape.dims : Int) ≤ maxInt64 := by
  obtain ⟨-, pos, count⟩ := repeat_ok sound done
  exact Tensor.sound_iff_of_count pos count

/-- On a sound array a repeat the shape rule accepts, whose result fits a block, succeeds. -/
theorem repeat_succeeds (sound : x.Sound) (h : Shape.repeat x.shape axis count = .ok r)
    (small : (Tensor.positionCount r.dims : Int) ≤ Tensor.blockLimit) :
    ∃ t, x.repeat axis count = .ok t := by
  obtain ⟨nonneg, le, positive, rdims⟩ := repeat_shape_ok h
  have pos : ∀ d ∈ r.dims, 0 < d := by
    rw [rdims]
    exact repeat_dims_pos sound positive
  have fits : (Tensor.positionCount r.dims : Int) ≤ maxInt64 := le_trans small (by decide)
  have size : r.size = Tensor.positionCount r.dims := product_of_count pos fits
  have total : Tensor.positionCount r.dims = ((x.shape.dims.map Int.toNat).take axis.toNat).prod * count.toNat *
      ((x.shape.dims.map Int.toNat).drop axis.toNat).prod := by
    rw [rdims]
    exact repeat_positionCount sound positive le
  have ran := repeat_eq sound h (size ▸ Tensor.reserve_eq_ok (Int.natCast_nonneg _) small false)
  rw [total] at small
  exact ⟨_, ran.trans (if_neg (not_lt.2 small))⟩

end Repeat

theorem wrapInt64_le_max (x : Int) : wrapInt64 x ≤ maxInt64 := by
  have bound : Int.bmod x 18446744073709551616 ≤ (((18446744073709551616 : Nat) : Int) - 1) / 2 :=
    Int.bmod_le (by decide)
  unfold wrapInt64 maxInt64
  exact le_of_le_of_eq bound (by decide)

theorem join_shape_ok {ss : List Shape} {s : Shape} (h : Shape.join ss = .ok s) :
    s.dims = ss.flatMap (·.dims) ∧ ∀ d ∈ s.dims, 0 < d := by
  unfold Shape.join at h
  split at h
  · cases h
  · dsimp only at h
    split at h
    · cases h
    · obtain ⟨rfl, pos⟩ := Shape.make_ok h
      exact ⟨rfl, pos⟩

/-- A fold whose every step multiplies the number of values by an operand's ends with the product
of the operands' numbers of values. -/
theorem foldlM_size {ε : Type} (f : Array Float → Tensor → Except ε (Array Float))
    (step : ∀ acc x b, f acc x = .ok b → b.size = acc.size * x.flat.size) :
    ∀ (xs : List Tensor) (acc flat : Array Float), xs.foldlM f acc = .ok flat →
      flat.size = acc.size * (xs.map (·.flat.size)).prod
  | [], acc, flat, h => by
    cases h
    simp
  | x :: xs, acc, flat, h => by
    rw [List.foldlM_cons] at h
    obtain ⟨b, hb, rest⟩ := Except.bind_eq_ok.1 h
    rw [foldlM_size f step xs b flat rest, step acc x b hb, List.map_cons, List.prod_cons,
      Nat.mul_assoc]

section Join

variable {xs : List Tensor} {t : Tensor}

/-- A join of sound arrays that succeeds is sound, with the shape of the join rule. -/
theorem join_sound (sound : ∀ x ∈ xs, x.Sound) (done : Tensor.join xs = .ok t) :
    t.Sound ∧ Shape.join (xs.map (·.shape)) = .ok t.shape := by
  obtain ⟨s, h, rest⟩ := Except.bind_eq_ok.1 done
  obtain ⟨flat, folded, rest⟩ := Except.bind_eq_ok.1 rest
  dsimp only at rest
  obtain ⟨same, rfl⟩ : (flat.size : Int) = s.size ∧ t = ⟨s, flat, 0⟩ := by
    split at rest
    · cases rest
    · rename_i same
      cases rest
      exact ⟨not_not.1 same, rfl⟩
  obtain ⟨dims, pos⟩ := join_shape_ok h
  have size := foldlM_size _ (fun acc x b step => by
    obtain ⟨u, -, done⟩ := Except.bind_eq_ok.1 step
    obtain ⟨-, done⟩ := Except.ite_throw_ok done
    cases done
    rcases acc with ⟨l⟩
    simp [List.map_const', List.sum_replicate]) xs #[1] flat folded
  refine ⟨⟨pos, ?_, ?_⟩, h⟩
  · have counts : (xs.map fun x => (x.shape.dims.map Int.toNat).prod) = xs.map (·.flat.size) :=
      List.map_congr_left fun x mem => (sound x mem).prod
    rw [positionCount_eq_prod pos, dims, size]
    simp [List.flatMap, List.prod_flatten, Function.comp_def, counts]
  · exact le_trans (le_of_eq same) (wrapInt64_le_max _)

end Join

end Rearrange
