import Rearrange.Proofs.Positions
import Rearrange.Pattern.Expression
import Mathlib
/-!
# Layouts: the axes of an array by where they come from

While a plan runs, each axis of the current array is labelled by where it comes from
(`Label`): a named axis of the inputs, one of the axes the ellipsis matches, or a new axis of
the output. A layout is the list of labels of an array; its dimensions are their sizes.

The steps of a plan act on layouts through three list operations, whose laws are here:

* erasing at a label's position in a layout filtered by a test removes that label, provided
  every label before it passed the test (`eraseIdx_filter`); so reductions taken from the last
  axis to the first keep the positions of those still to come;
* inserting a label at its position in the final layout, into that layout filtered by a test,
  puts it back, under the same proviso (`insertIdx_filter`); so new axes inserted from the first
  to the last land where they belong;
* reading a layout at the positions of a rearrangement of it gives the rearrangement
  (`map_getD_idxOf`), and those positions are a permutation of the layout's
  (`map_idxOf_perm_range`).
-/
namespace Rearrange.Plan

open Pattern

/-- Where an axis comes from: a named axis of the inputs, the `k`-th axis matched by the
ellipsis, or the new axis of output item `k`. -/
inductive Label where
  | axis (name : String)
  | ellipsis (k : Nat)
  | fresh (k : Nat)
  deriving DecidableEq, Repr

/-- The labels of the axes a name of the inputs stands for, the ellipsis matching `w` axes. -/
def Label.ofName (w : Nat) (x : String) : List Label :=
  if x = ellipsisName then (List.range w).map .ellipsis else [.axis x]

namespace Label

@[simp] theorem length_ofName (w : Nat) (x : String) :
    (ofName w x).length = spanOf w (decide (x = ellipsisName)) := by
  by_cases h : x = ellipsisName <;> simp [ofName, spanOf, h]

theorem ofName_nodup (w : Nat) (x : String) : (ofName w x).Nodup := by
  unfold ofName
  split
  · exact (List.nodup_range).map fun _ _ h => by cases h; rfl
  · exact List.nodup_singleton _

theorem mem_ofName {w : Nat} {x : String} {l : Label} :
    l ∈ ofName w x ↔ (x = ellipsisName ∧ ∃ k < w, l = .ellipsis k) ∨ (x ≠ ellipsisName ∧ l = .axis x) := by
  unfold ofName
  by_cases h : x = ellipsisName
  · simp only [h, if_true, List.mem_map, List.mem_range, true_and, ne_eq, not_true_eq_false,
      false_and, or_false]
    constructor
    · rintro ⟨k, lt, rfl⟩
      exact ⟨k, lt, rfl⟩
    · rintro ⟨k, lt, rfl⟩
      exact ⟨k, lt, rfl⟩
  · simp [h]

theorem ofName_disjoint (w : Nat) {x y : String} (ne : x ≠ y) : List.Disjoint (ofName w x) (ofName w y) := by
  intro l inX inY
  rcases mem_ofName.1 inX with ⟨ex, -⟩ | ⟨-, rfl⟩ <;> rcases mem_ofName.1 inY with ⟨ey, -⟩ | ⟨-, hy⟩
  · exact ne (ex.trans ey.symm)
  · obtain ⟨-, k, -, rfl⟩ := mem_ofName.1 inX |>.resolve_right (by simp [ex])
    cases hy
  · obtain ⟨-, k, -, hk⟩ := (mem_ofName.1 inY).resolve_right (by simp [ey])
    cases hk
  · cases hy
    exact ne rfl

theorem flatMap_ofName_nodup (w : Nat) : ∀ {xs : List String}, xs.Nodup → (xs.flatMap (ofName w)).Nodup
  | [], _ => List.nodup_nil
  | x :: xs, distinct => by
    rw [List.nodup_cons] at distinct
    rw [List.flatMap_cons, List.nodup_append]
    refine ⟨ofName_nodup w x, flatMap_ofName_nodup w distinct.2, fun a inX b inRest same => ?_⟩
    subst same
    obtain ⟨y, yMem, inY⟩ := List.mem_flatMap.1 inRest
    exact ofName_disjoint w (fun h => distinct.1 (by rw [h]; exact yMem)) inX inY

theorem length_flatMap_ofName (w : Nat) (xs : List String) :
    (xs.flatMap (ofName w)).length = ((xs.map fun x => decide (x = ellipsisName)).map (spanOf w)).sum := by
  simp [List.length_flatMap, Function.comp_def]

theorem count_ellipsis_le_one {xs : List String} (distinct : xs.Nodup) :
    (xs.map fun x => decide (x = ellipsisName)).count true ≤ 1 :=
  calc (xs.map fun x => decide (x = ellipsisName)).count true = xs.count ellipsisName := by
        simp only [List.count_eq_countP, List.countP_map]
        exact List.countP_congr fun x _ => by simp
    _ ≤ 1 := List.nodup_iff_count_le_one.1 distinct ellipsisName

theorem length_flatMap_take (w : Nat) (xs : List String) (m : Nat) :
    ((xs.take m).flatMap (ofName w)).length =
      offsetOf w (xs.map fun x => decide (x = ellipsisName)) m := by
  simp [offsetOf, List.length_flatMap, List.map_take, Function.comp_def]

end Label

section Lists

theorem insertIdx_length_append {α : Type} (A C : List α) (x : α) :
    (A ++ C).insertIdx A.length x = A ++ x :: C := by
  induction A with
  | nil => simp
  | cons a A ih => simp [List.insertIdx_succ_cons, ih]

variable {α : Type} [DecidableEq α]

theorem split_at_idxOf {L : List α} {x : α} (nodup : L.Nodup) (mem : x ∈ L) :
    ∃ A B, L = A ++ x :: B ∧ A.length = L.idxOf x ∧ x ∉ A ∧ x ∉ B := by
  obtain ⟨A, B, rfl⟩ := List.append_of_mem mem
  have apart := List.nodup_middle.1 nodup
  rw [List.nodup_cons] at apart
  have notA : x ∉ A := fun h => apart.1 (List.mem_append_left _ h)
  have notB : x ∉ B := fun h => apart.1 (List.mem_append_right _ h)
  refine ⟨A, B, rfl, ?_, notA, notB⟩
  rw [List.idxOf_append_of_notMem notA]
  simp

theorem idxOf_lt_of_mem_front {A B : List α} {x y : α} (notA : x ∉ A) (mem : y ∈ A) :
    (A ++ x :: B).idxOf y < (A ++ x :: B).idxOf x := by
  rw [List.idxOf_append_of_mem mem, List.idxOf_append_of_notMem notA]
  simp only [List.idxOf_cons_self, Nat.add_zero]
  exact List.idxOf_lt_length_iff.2 mem

/-- Erasing at a label's position in a layout filtered by `p` removes that label, when every
label before it passes `p`. -/
theorem eraseIdx_filter {L : List α} {p : α → Bool} {x : α} (nodup : L.Nodup) (mem : x ∈ L)
    (px : p x = true) (before : ∀ y ∈ L, L.idxOf y < L.idxOf x → p y = true) :
    L.idxOf x < (L.filter p).length ∧
      (L.filter p).eraseIdx (L.idxOf x) = L.filter fun y => p y && y != x := by
  obtain ⟨A, B, rfl, len, notA, notB⟩ := split_at_idxOf nodup mem
  have keptA : A.filter p = A :=
    List.filter_eq_self.2 fun y yA => before y (by simp [yA]) (idxOf_lt_of_mem_front notA yA)
  have keptA' : A.filter (fun y => p y && y != x) = A :=
    List.filter_eq_self.2 fun y yA => by
      have ne : y ≠ x := fun h => notA (h ▸ yA)
      simp [before y (by simp [yA]) (idxOf_lt_of_mem_front notA yA), ne]
  have restB : B.filter (fun y => p y && y != x) = B.filter p :=
    List.filter_congr fun y yB => by
      have ne : y ≠ x := fun h => notB (h ▸ yB)
      simp [ne]
  rw [← len]
  simp only [List.filter_append, List.filter_cons, px, if_true, keptA, bne_self_eq_false,
    Bool.and_false, Bool.false_eq_true, if_false, keptA', restB]
  refine ⟨by simp, ?_⟩
  rw [List.eraseIdx_append_of_length_le (Nat.le_refl _)]
  simp

/-- Inserting a label at its position in a layout, into the layout filtered by `p`, puts it
back, when it fails `p` and every label before it passes. -/
theorem insertIdx_filter {L : List α} {p : α → Bool} {x : α} (nodup : L.Nodup) (mem : x ∈ L)
    (px : p x = false) (before : ∀ y ∈ L, L.idxOf y < L.idxOf x → p y = true) :
    L.idxOf x ≤ (L.filter p).length ∧
      (L.filter p).insertIdx (L.idxOf x) x = L.filter fun y => p y || y == x := by
  obtain ⟨A, B, rfl, len, notA, notB⟩ := split_at_idxOf nodup mem
  have keptA : A.filter p = A :=
    List.filter_eq_self.2 fun y yA => before y (by simp [yA]) (idxOf_lt_of_mem_front notA yA)
  have keptA' : A.filter (fun y => p y || y == x) = A :=
    List.filter_eq_self.2 fun y yA => by
      simp [before y (by simp [yA]) (idxOf_lt_of_mem_front notA yA)]
  have restB : B.filter (fun y => p y || y == x) = B.filter p :=
    List.filter_congr fun y yB => by
      have ne : y ≠ x := fun h => notB (h ▸ yB)
      simp [ne]
  rw [← len]
  simp only [List.filter_append, List.filter_cons, px, Bool.false_eq_true, if_false, keptA,
    beq_self_eq_true, Bool.or_true, if_true, keptA', restB]
  exact ⟨by simp, insertIdx_length_append A _ x⟩

theorem map_getD_idxOf {β : Type} {K P : List α} (sub : ∀ x ∈ P, x ∈ K) (f : α → β) (d : β) :
    (P.map K.idxOf).map (fun i => (K.map f).getD i d) = P.map f := by
  rw [List.map_map]
  refine List.map_congr_left fun x mem => ?_
  have lt : K.idxOf x < K.length := List.idxOf_lt_length_iff.2 (sub x mem)
  simp [List.getD_eq_getElem?_getD, lt, List.getElem_idxOf lt]

theorem map_idxOf_perm_range {K P : List α} (nodup : K.Nodup) (perm : P.Perm K) :
    (P.map K.idxOf).Perm (List.range K.length) := by
  have own : K.map K.idxOf = List.range K.length := by
    refine List.ext_getElem (by simp) fun i h _ => ?_
    simp only [List.getElem_map, List.getElem_range]
    exact nodup.idxOf_getElem i (by simpa using h)
  rw [← own]
  exact perm.map _

end Lists

end Rearrange.Plan
