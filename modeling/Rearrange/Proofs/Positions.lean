import Rearrange.Pattern.Index
import Rearrange.Word.Checked
/-!
# Positions once the ellipsis is known

A counter hands out one position per item of a run: items before the ellipsis get `known`
positions, the ellipsis a `range`, items after it `unknown` ones. `Positions.indices` lists
the positions handed out to a run, the ellipsis marked `true`.

Once the ellipsis is known to match `w` axes, the run expands into axes: the ellipsis into `w`
of them, every other item into one. The main statement, `resolve_indices`, says that an item's
position resolves to the offset of its first axis in the expanded run, as long as the
arithmetic stays within a signed 64-bit word.
-/
namespace Rearrange.Pattern

/-- The positions a counter hands out to a run of items, `true` marking the ellipsis. -/
def Positions.indices : Positions → List Bool → List Index
  | _, [] => []
  | p, true :: bs => p.takeRange.1 :: Positions.indices p.takeRange.2 bs
  | p, false :: bs => p.take.1 :: Positions.indices p.take.2 bs

/-- The position a counter hands out to one item, `true` marking the ellipsis, and the counter
after it. -/
def Positions.step (p : Positions) (ell : Bool) : Index × Positions :=
  if ell then p.takeRange else p.take

/-- The number of axes an item stands for: the ellipsis `w`, any other item one. -/
def spanOf (w : Nat) (ell : Bool) : Nat := if ell then w else 1

/-- The offset of item `m`'s first axis once the run is expanded. -/
def offsetOf (w : Nat) (bs : List Bool) (m : Nat) : Nat := ((bs.take m).map (spanOf w)).sum

namespace Positions

theorem indices_cons (p : Positions) (b : Bool) (bs : List Bool) :
    p.indices (b :: bs) = (p.step b).1 :: (p.step b).2.indices bs := by
  cases b <;> rfl

@[simp] theorem length_indices : ∀ (p : Positions) (bs : List Bool), (p.indices bs).length = bs.length
  | _, [] => rfl
  | p, true :: bs => by simp [indices, length_indices _ bs]
  | p, false :: bs => by simp [indices, length_indices _ bs]

theorem map_isRange_indices : ∀ (p : Positions) (bs : List Bool),
    (p.indices bs).map (fun i => decide (i.kind = .range)) = bs
  | _, [] => rfl
  | p, true :: bs => by simp [indices, takeRange, map_isRange_indices _ bs]
  | p, false :: bs => by
    simp only [indices, take, List.map_cons, map_isRange_indices _ bs]
    split <;> simp

theorem indices_append : ∀ (p : Positions) (bs cs : List Bool),
    p.indices (bs ++ cs) =
      p.indices bs ++ indices ⟨p.next + bs.length, p.pastEllipsis || bs.any id⟩ cs
  | p, [], cs => by simp [indices]
  | p, true :: bs, cs => by
    simp only [List.cons_append, indices, indices_append _ bs cs, takeRange]
    simp [Nat.add_assoc, Nat.add_comm 1]
  | p, false :: bs, cs => by
    simp only [List.cons_append, indices, indices_append _ bs cs, take]
    simp [Nat.add_assoc, Nat.add_comm 1]

/-- Past the ellipsis every position is unknown and counts on from the counter. -/
theorem indices_past : ∀ (n : Nat) (bs : List Bool), true ∉ bs → ∀ (m : Nat) (idx : Index),
    (indices ⟨n, true⟩ bs)[m]? = some idx → idx = ⟨(n + m : Nat), .unknown⟩
  | _, [], _, m, idx, h => by simp [indices] at h
  | _, true :: _, noEll, _, _, _ => absurd List.mem_cons_self noEll
  | n, false :: bs, noEll, m, idx, h => by
    cases m with
    | zero =>
      simp only [indices, take, List.getElem?_cons_zero, Option.some.injEq] at h
      simp [← h]
    | succ m =>
      simp only [indices, take, List.getElem?_cons_succ] at h
      have := indices_past (n + 1) bs (fun mem => noEll (List.mem_cons_of_mem _ mem)) m idx h
      rw [this]
      congr 2
      omega

end Positions

theorem offsetOf_of_not_mem (w : Nat) : ∀ (bs : List Bool), true ∉ bs → ∀ m, m ≤ bs.length →
    offsetOf w bs m = m
  | [], _, m, hm => by
    simp at hm
    simp [offsetOf, hm]
  | b :: bs, _, 0, _ => by simp [offsetOf]
  | b :: bs, noEll, m + 1, hm => by
    have hb : b = false := by
      cases b
      · rfl
      · exact absurd List.mem_cons_self noEll
    have rest := offsetOf_of_not_mem w bs (fun mem => noEll (List.mem_cons_of_mem _ mem)) m
      (by simp at hm; omega)
    simp only [offsetOf, List.take_succ_cons, List.map_cons, List.sum_cons] at rest ⊢
    rw [rest, hb]
    simp [spanOf]
    omega

theorem sum_spanOf_of_not_mem (w : Nat) {bs : List Bool} (noEll : true ∉ bs) :
    (bs.map (spanOf w)).sum = bs.length := by
  have all := offsetOf_of_not_mem w bs noEll bs.length le_rfl
  rwa [offsetOf, List.take_length] at all

/-- A run with at most one ellipsis expands to at most its length and `w` axes. -/
theorem sum_spanOf_le (w : Nat) : ∀ (bs : List Bool), bs.count true ≤ 1 →
    (bs.map (spanOf w)).sum ≤ bs.length + w
  | [], _ => by simp
  | true :: bs, once => by
    have rest : true ∉ bs := fun mem => by
      have := List.count_pos_iff.2 mem
      simp at once
      omega
    simp [spanOf, sum_spanOf_of_not_mem w rest]
    omega
  | false :: bs, once => by
    have rest := sum_spanOf_le w bs (by simpa using once)
    simp [spanOf]
    omega

/-- Once the ellipsis matches `w` axes, the position of item `m` resolves to the offset of its
first axis in the expanded run. The run holds at most one ellipsis, and the counter's start and
the expanded run's length together stay within a signed 64-bit word, so resolving an unknown
position does not wrap. -/
theorem resolve_indices (w : Nat) : ∀ (bs : List Bool) (n : Nat), bs.count true ≤ 1 →
    n + (bs.map (spanOf w)).sum ≤ Word.maxInt64 → ∀ (m : Nat) (idx : Index),
    (Positions.indices ⟨n, false⟩ bs)[m]? = some idx → idx.resolve w = n + offsetOf w bs m
  | [], _, _, _, m, idx, h => by simp [Positions.indices] at h
  | true :: bs, n, once, fits, m, idx, h => by
    have rest : true ∉ bs := by
      intro mem
      have := List.count_pos_iff.2 mem
      simp at once
      omega
    cases m with
    | zero =>
      simp only [Positions.indices, Positions.takeRange, List.getElem?_cons_zero,
        Option.some.injEq] at h
      simp [← h, Index.resolve, offsetOf]
    | succ m =>
      simp only [Positions.indices, Positions.takeRange, List.getElem?_cons_succ] at h
      have hm : m < bs.length := by
        have := (List.getElem?_eq_some_iff.1 h).1
        simpa using this
      rw [Positions.indices_past (n + 1) bs rest m idx h]
      have offset : offsetOf w (true :: bs) (m + 1) = w + m := by
        simp only [offsetOf, List.take_succ_cons, List.map_cons, List.sum_cons]
        rw [← offsetOf, offsetOf_of_not_mem w bs rest m (by omega)]
        simp [spanOf]
      rw [offset]
      simp only [Index.resolve, if_pos]
      simp only [List.map_cons, List.sum_cons, spanOf, if_true, sum_spanOf_of_not_mem w rest] at fits
      rw [Word.wrapInt64_of_le (by omega) (by push_cast; omega)]
      push_cast
      omega
  | false :: bs, n, once, fits, m, idx, h => by
    cases m with
    | zero =>
      simp only [Positions.indices, Positions.take, List.getElem?_cons_zero, Option.some.injEq] at h
      simp [← h, Index.resolve, offsetOf]
    | succ m =>
      simp only [Positions.indices, Positions.take, List.getElem?_cons_succ] at h
      have sum : ((false :: bs).map (spanOf w)).sum = 1 + (bs.map (spanOf w)).sum := by
        simp [spanOf]
      rw [sum] at fits
      have := resolve_indices w bs (n + 1) (by simpa using once) (by omega) m idx h
      rw [this]
      simp only [offsetOf, List.take_succ_cons, List.map_cons, List.sum_cons]
      simp [spanOf]
      omega

end Rearrange.Pattern
