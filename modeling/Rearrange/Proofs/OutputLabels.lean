import Rearrange.Proofs.ReducedPositions
/-!
# The output of a plan on labels

The output side of a pattern lists items (`OutputItem`): kept names, and new axes, written as
integers or as names with sizes. On labels the output is the kept names' labels and one fresh
label per new axis, numbered in the order the new axes are written (`outputLabels`).

The new axes are inserted one at a time, each at the position its index resolves to. Here that
position is the offset of its fresh label among the output's labels
(`OutputHolds.newAxes_placed`), and the fresh labels come in order. Taking the fresh labels out
leaves the kept names' labels in output order (`filter_outputLabels`). The output's slots cover
all the labels (`OutputHolds.runsLength_output`).
-/
namespace Rearrange.Plan

open Pattern

/-- The labels of the output's items, in order, once the ellipsis matches `w` axes: a kept name's
labels, and for each new axis a fresh label, numbered in order from `k`. -/
def outputLabels (w : Nat) : List OutputItem → Nat → List Label
  | [], _ => []
  | .kept x _ :: is, k => Label.ofName w x ++ outputLabels w is k
  | .int _ :: is, k => .fresh k :: outputLabels w is (k + 1)
  | .named _ _ :: is, k => .fresh k :: outputLabels w is (k + 1)

section Lists

/-- The `k`-th value a partial map keeps comes from an element with `k` kept values before it. -/
theorem filterMap_split {β γ : Type} (f : β → Option γ) : ∀ (l : List β) (k : Nat) (b : γ),
    (l.filterMap f)[k]? = some b → ∃ A x B, l = A ++ x :: B ∧ (A.filterMap f).length = k ∧ f x = some b
  | [], _, _, found => by simp at found
  | x :: l, k, b, found => by
    cases fx : f x with
    | none =>
      rw [List.filterMap_cons, fx] at found
      obtain ⟨A, y, B, rfl, count, fy⟩ := filterMap_split f l k b found
      exact ⟨x :: A, y, B, rfl, by simpa [fx] using count, fy⟩
    | some c =>
      rw [List.filterMap_cons, fx] at found
      cases k with
      | zero =>
        cases found
        exact ⟨[], x, l, rfl, rfl, fx⟩
      | succ k =>
        obtain ⟨A, y, B, rfl, count, fy⟩ := filterMap_split f l k b found
        exact ⟨x :: A, y, B, rfl, by simp [fx, count], fy⟩

end Lists

section Items

variable (w : Nat)

theorem outputLabels_append (B : List OutputItem) :
    ∀ (A : List OutputItem) (k : Nat),
      outputLabels w (A ++ B) k = outputLabels w A k ++ outputLabels w B (k + A.countP (·.kept?.isNone))
  | [], k => rfl
  | .kept x _ :: A, k => by
    simp [outputLabels, outputLabels_append B A k, OutputItem.kept?]
  | .int _ :: A, k => by
    simp [outputLabels, outputLabels_append B A (k + 1), OutputItem.kept?, Nat.add_assoc, Nat.add_comm 1]
  | .named _ _ :: A, k => by
    simp [outputLabels, outputLabels_append B A (k + 1), OutputItem.kept?, Nat.add_assoc, Nat.add_comm 1]

theorem length_outputLabels : ∀ (is : List OutputItem) (k : Nat),
    (outputLabels w is k).length = ((is.map OutputItem.isEllipsis).map (spanOf w)).sum
  | [], _ => rfl
  | .kept x _ :: is, k => by
    simp [outputLabels, length_outputLabels is k, OutputItem.isEllipsis]
  | .int _ :: is, k => by
    simp [outputLabels, length_outputLabels is (k + 1), OutputItem.isEllipsis, spanOf, Nat.add_comm]
  | .named _ _ :: is, k => by
    simp [outputLabels, length_outputLabels is (k + 1), OutputItem.isEllipsis, spanOf, Nat.add_comm]

/-- The fresh labels of the output are numbered from `k`, one for each new axis. -/
theorem fresh_mem_outputLabels {j : Nat} : ∀ (is : List OutputItem) (k : Nat),
    Label.fresh j ∈ outputLabels w is k ↔ k ≤ j ∧ j < k + is.countP (·.kept?.isNone)
  | [], k => by simp [outputLabels]
  | .kept x _ :: is, k => by
    have notName : Label.fresh j ∉ Label.ofName w x := fun mem => by
      rcases Label.mem_ofName.1 mem with ⟨-, i, -, never⟩ | ⟨-, never⟩ <;> cases never
    simp [outputLabels, notName, fresh_mem_outputLabels is k, OutputItem.kept?]
  | .int _ :: is, k => by
    simp only [outputLabels, List.mem_cons, Label.fresh.injEq, fresh_mem_outputLabels is (k + 1)]
    simp [OutputItem.kept?]
    omega
  | .named _ _ :: is, k => by
    simp only [outputLabels, List.mem_cons, Label.fresh.injEq, fresh_mem_outputLabels is (k + 1)]
    simp [OutputItem.kept?]
    omega

/-- A label of the output that is not fresh is a label of a kept name. -/
theorem mem_outputLabels {l : Label} : ∀ {is : List OutputItem} {k : Nat}, l ∈ outputLabels w is k →
    (∃ j, l = .fresh j) ∨ l ∈ (is.filterMap OutputItem.kept?).flatMap (Label.ofName w)
  | [], _, mem => by simp [outputLabels] at mem
  | .kept x _ :: is, k, mem => by
    rcases List.mem_append.1 mem with here | later
    · exact .inr (by simp [OutputItem.kept?, here])
    · rcases mem_outputLabels later with fresh | kept
      · exact .inl fresh
      · exact .inr (by simp only [List.filterMap_cons, OutputItem.kept?, List.flatMap_cons]; exact
          List.mem_append_right _ kept)
  | .int _ :: is, k, mem => by
    rcases List.mem_cons.1 mem with rfl | later
    · exact .inl ⟨k, rfl⟩
    · simpa [OutputItem.kept?] using mem_outputLabels later
  | .named _ _ :: is, k, mem => by
    rcases List.mem_cons.1 mem with rfl | later
    · exact .inl ⟨k, rfl⟩
    · simpa [OutputItem.kept?] using mem_outputLabels later

/-- With distinct kept names, the output's labels are distinct. -/
theorem outputLabels_nodup : ∀ {is : List OutputItem} {k : Nat}, (is.filterMap OutputItem.kept?).Nodup →
    (outputLabels w is k).Nodup
  | [], _, _ => List.nodup_nil
  | .kept x _ :: is, k, distinct => by
    simp only [List.filterMap_cons, OutputItem.kept?, List.nodup_cons] at distinct
    rw [outputLabels, List.nodup_append]
    refine ⟨Label.ofName_nodup w x, outputLabels_nodup distinct.2, fun l here l' later same => ?_⟩
    subst same
    -- a label of `x` is no fresh label, so it is a label of another kept name
    rcases mem_outputLabels w later with ⟨j, rfl⟩ | kept
    · rcases Label.mem_ofName.1 here with ⟨-, i, -, never⟩ | ⟨-, never⟩ <;> cases never
    · obtain ⟨y, yMem, there⟩ := List.mem_flatMap.1 kept
      exact Label.ofName_disjoint w (fun h => distinct.1 (by rw [h]; exact yMem)) here there
  | .int _ :: is, k, distinct => by
    rw [outputLabels, List.nodup_cons]
    exact ⟨fun mem => by simp [fresh_mem_outputLabels] at mem, outputLabels_nodup distinct⟩
  | .named _ _ :: is, k, distinct => by
    rw [outputLabels, List.nodup_cons]
    exact ⟨fun mem => by simp [fresh_mem_outputLabels] at mem, outputLabels_nodup distinct⟩

/-- Taking the fresh labels out of the output's labels leaves the kept names' labels, in output
order. -/
theorem filter_outputLabels {n : Nat} : ∀ (is : List OutputItem) (k : Nat),
    k + is.countP (·.kept?.isNone) ≤ n →
    (outputLabels w is k).filter (· ∉ (List.range n).map Label.fresh) =
      (is.filterMap OutputItem.kept?).flatMap (Label.ofName w)
  | [], _, _ => rfl
  | .kept x _ :: is, k, within => by
    have kept : (Label.ofName w x).filter (· ∉ (List.range n).map Label.fresh) = Label.ofName w x := by
      refine List.filter_eq_self.2 fun l mem => ?_
      rcases Label.mem_ofName.1 mem with ⟨-, i, -, rfl⟩ | ⟨-, rfl⟩ <;> simp
    have rest := filter_outputLabels is k (by simpa [OutputItem.kept?] using within)
    simp only [outputLabels, List.filter_append, kept, rest, List.filterMap_cons, OutputItem.kept?,
      List.flatMap_cons]
  | .int _ :: is, k, within => by
    rw [List.countP_cons_of_pos (by rfl)] at within
    have out : decide (Label.fresh k ∉ (List.range n).map Label.fresh) = false := by simp; omega
    rw [outputLabels, List.filter_cons, out, if_neg Bool.false_ne_true,
      filter_outputLabels is (k + 1) (by omega)]
    rfl
  | .named _ _ :: is, k, within => by
    rw [List.countP_cons_of_pos (by rfl)] at within
    have out : decide (Label.fresh k ∉ (List.range n).map Label.fresh) = false := by simp; omega
    rw [outputLabels, List.filter_cons, out, if_neg Bool.false_ne_true,
      filter_outputLabels is (k + 1) (by omega)]
    rfl

/-- The new axes made of indexed items are as many as the items that are not kept. -/
theorem length_filterMap_newAxis : ∀ l : List (OutputItem × Index),
    (l.filterMap fun q => q.1.newAxis? q.2).length = (l.map Prod.fst).countP (·.kept?.isNone)
  | [] => rfl
  | (.kept _ _, _) :: l => by
    rw [List.filterMap_cons_none rfl, List.map_cons, List.countP_cons_of_neg (by simp [OutputItem.kept?]),
      length_filterMap_newAxis l]
  | (.int _, _) :: l => by
    rw [List.filterMap_cons_some (f := fun q : OutputItem × Index => q.1.newAxis? q.2) rfl, List.length_cons,
      List.map_cons, List.countP_cons_of_pos rfl, length_filterMap_newAxis l]
  | (.named _ _, _) :: l => by
    rw [List.filterMap_cons_some (f := fun q : OutputItem × Index => q.1.newAxis? q.2) rfl, List.length_cons,
      List.map_cons, List.countP_cons_of_pos rfl, length_filterMap_newAxis l]

end Items

end Rearrange.Plan

namespace Rearrange.Pattern

open Plan

/-- The size of an item that is a new axis: an integer's value, or the size of a new name. -/
def OutputItem.newSize? : OutputItem → Option Int
  | .kept _ _ => none
  | .int k => some k
  | .named k _ => some k

theorem map_size_filterMap_newAxis : ∀ l : List (OutputItem × Index),
    (l.filterMap fun q => q.1.newAxis? q.2).map (·.size) = (l.map Prod.fst).filterMap OutputItem.newSize?
  | [] => rfl
  | (.kept _ _, _) :: l => by
    rw [List.filterMap_cons_none rfl, List.map_cons, List.filterMap_cons_none rfl, map_size_filterMap_newAxis l]
  | (.int _, _) :: l => by
    rw [List.filterMap_cons_some (f := fun q : OutputItem × Index => q.1.newAxis? q.2) rfl, List.map_cons,
      List.map_cons, List.filterMap_cons_some (f := OutputItem.newSize?) rfl, map_size_filterMap_newAxis l]
  | (.named _ _, _) :: l => by
    rw [List.filterMap_cons_some (f := fun q : OutputItem × Index => q.1.newAxis? q.2) rfl, List.map_cons,
      List.map_cons, List.filterMap_cons_some (f := OutputItem.newSize?) rfl, map_size_filterMap_newAxis l]

section NewAxes

variable {e : Expression} {items : List OutputItem} (out : e.OutputHolds items) (w : Nat)

include out

theorem Expression.OutputHolds.map_size_newAxes : e.newAxes.map (·.size) = items.filterMap OutputItem.newSize? := by
  rw [out.newAxes, map_size_filterMap_newAxis, List.map_fst_zip (by simp)]

theorem Expression.OutputHolds.length_newAxes : e.newAxes.length = items.countP (·.kept?.isNone) := by
  rw [out.newAxes, length_filterMap_newAxis, List.map_fst_zip (by simp)]

/-- Once the ellipsis matches `w` axes, with the output's labels as many as a signed word counts,
new axis `k` resolves to the position of the fresh label `k` among the output's labels, and the
fresh labels before it come before it. -/
theorem Expression.OutputHolds.newAxes_placed (once : (items.map OutputItem.isEllipsis).count true ≤ 1)
    (fits : ((outputLabels w items 0).length : Int) ≤ Word.maxInt64) {k : Nat} (hk : k < e.newAxes.length) :
    Label.fresh k ∈ outputLabels w items 0 ∧
      e.newAxes[k].index.resolve w = (outputLabels w items 0).idxOf (.fresh k) ∧
      ∀ j < k, (outputLabels w items 0).idxOf (.fresh j) < (outputLabels w items 0).idxOf (.fresh k) := by
  set bs := items.map OutputItem.isEllipsis
  set P := Positions.indices {} bs
  have found : ((items.zip P).filterMap fun q => q.1.newAxis? q.2)[k]? = some e.newAxes[k] := by
    rw [← out.newAxes]
    exact List.getElem?_eq_getElem hk
  obtain ⟨A, x, B, split, count, made⟩ := filterMap_split _ _ k _ found
  have lenP : P.length = items.length := by simp [P, bs]
  have itemsEq : items = A.map Prod.fst ++ x.1 :: B.map Prod.fst := by
    have fsts := congrArg (List.map Prod.fst) split
    rwa [List.map_fst_zip (by omega), List.map_append, List.map_cons] at fsts
  have atP : P[A.length]? = some x.2 := by
    have snds := congrArg (List.map Prod.snd) split
    rw [List.map_snd_zip (by omega), List.map_append, List.map_cons] at snds
    rw [snds, List.getElem?_append_right (by simp)]
    simp
  rw [length_filterMap_newAxis] at count
  obtain ⟨i, idx⟩ := x
  have fresh : ∀ c, outputLabels w (i :: B.map Prod.fst) c = .fresh c :: outputLabels w (B.map Prod.fst) (c + 1) ∧
      e.newAxes[k].index = idx := by
    intro c
    cases i with
    | kept x s => simp [OutputItem.newAxis?] at made
    | int s =>
      simp only [OutputItem.newAxis?, Option.some.injEq] at made
      exact ⟨rfl, by rw [← made]⟩
    | named s x =>
      simp only [OutputItem.newAxis?, Option.some.injEq] at made
      exact ⟨rfl, by rw [← made]⟩
  obtain ⟨labels, index⟩ := fresh k
  set before := outputLabels w (A.map Prod.fst) 0
  have whole : outputLabels w items 0 = before ++ .fresh k :: outputLabels w (B.map Prod.fst) (k + 1) := by
    rw [itemsEq, outputLabels_append, Nat.zero_add, count, labels]
  have notBefore : Label.fresh k ∉ before := by
    rw [fresh_mem_outputLabels, count]
    omega
  have at_k : (outputLabels w items 0).idxOf (.fresh k) = before.length := by
    rw [whole, List.idxOf_append_of_notMem notBefore, List.idxOf_cons_self, Nat.add_zero]
  refine ⟨by rw [whole]; simp, ?_, fun j lt => ?_⟩
  · have total : (bs.map (spanOf w)).sum = (outputLabels w items 0).length :=
      (length_outputLabels w items 0).symm
    have expanded : 0 + ((bs.map (spanOf w)).sum : Int) ≤ Word.maxInt64 := by
      rw [total]
      omega
    have resolved := resolve_indices w bs 0 once expanded A.length idx atP
    have bsEq : bs = (A.map Prod.fst).map OutputItem.isEllipsis ++ (i :: B.map Prod.fst).map OutputItem.isEllipsis := by
      simp only [bs]
      rw [itemsEq, List.map_append]
    have prefixSpan : offsetOf w bs A.length = before.length := by
      rw [offsetOf, length_outputLabels, bsEq, List.take_left' (by simp)]
    rw [index, resolved, at_k, prefixSpan]
    simp
  · have inBefore : Label.fresh j ∈ before := by
      rw [fresh_mem_outputLabels, count]
      omega
    rw [at_k, whole, List.idxOf_append_of_mem inBefore]
    exact List.idxOf_lt_length_of_mem inBefore

theorem Expression.OutputHolds.length_outputLabels_le (once : (items.map OutputItem.isEllipsis).count true ≤ 1) :
    (outputLabels w items 0).length ≤ e.names.names.length + e.newAxes.length + w := by
  have spans := sum_spanOf_le w _ once
  have split : items.length = (items.filterMap OutputItem.kept?).length + items.countP (·.kept?.isNone) := by
    rw [List.length_filterMap_eq_countP, List.length_eq_countP_add_countP (fun i => i.kept?.isSome)]
    congr 1
    exact List.countP_congr fun i _ => by cases i.kept? <;> simp
  rw [length_outputLabels]
  rw [List.length_map, split, out.kept.length_eq, ← out.length_newAxes] at spans
  exact spans

end NewAxes

section Slots

theorem runsLength_slots (w : Nat) : ∀ ss : List Slot,
    runsLength w (ss.map Slot.shape) =
      (((ss.flatMap Slot.indices).map fun idx => decide (idx.kind = .range)).map (spanOf w)).sum
  | [] => rfl
  | slot :: ss => by
    have head : (slot.shape.2.map (spanOf w)).sum =
        ((slot.indices.map fun idx => decide (idx.kind = .range)).map (spanOf w)).sum := by
      cases slot <;> simp [Slot.shape, Slot.indices]
    have rest := runsLength_slots w ss
    simp only [runsLength, List.map_cons, List.sum_cons] at rest ⊢
    rw [rest, head, List.flatMap_cons, List.map_append, List.map_append, List.sum_append]

theorem Expression.OutputHolds.runsLength_output {e : Expression} {items : List OutputItem}
    (out : e.OutputHolds items) (w : Nat) :
    runsLength w (e.output.map Slot.shape) = (outputLabels w items 0).length := by
  rw [runsLength_slots, out.indices, Positions.map_isRange_indices, length_outputLabels]

end Slots

end Rearrange.Pattern
