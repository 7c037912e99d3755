import Rearrange.Plan.Basic
import Rearrange.Shape.Rules
import Rearrange.Proofs.Yields
/-!
# Reads and cuts of a list that fault outside it

The layout of a plan reads dimensions by position (`Plan.operandAt`), takes runs of them
(`Plan.sliceOf`), deletes one (`Plan.deleteAt`) and inserts one (`Plan.insertAt`); a position
outside the list is a fault of the machine. Each gives a result exactly when its positions are
within the list, and the result is then the plain list operation's. The layout's stage lemmas
discharge the faults with these lemmas from what they know of the positions they read.
-/
namespace Rearrange

namespace Failure

theorem sliceFault?_eq_none {lo hi : Int} {room : Nat} :
    sliceFault? lo hi room = none ↔ 0 ≤ lo ∧ lo ≤ hi ∧ hi ≤ room := by
  unfold sliceFault?
  split_ifs <;> simp <;> omega

theorem sliceFault?_none {lo hi : Int} {room : Nat} (nonneg : 0 ≤ lo) (le : lo ≤ hi)
    (within : hi ≤ room) : sliceFault? lo hi room = none :=
  sliceFault?_eq_none.2 ⟨nonneg, le, within⟩

theorem cutFault?_eq_none {lo hi : Int} {length : Nat} :
    cutFault? lo hi length = none ↔ 0 ≤ lo ∧ lo ≤ hi ∧ hi ≤ length := by
  unfold cutFault?
  split_ifs <;> simp <;> omega

end Failure

namespace Plan

variable {α : Type} {xs ys : List α}

theorem operandAt_eq_ok {i : Int} {v : α} : operandAt xs i = .ok v ↔ 0 ≤ i ∧ xs[i.toNat]? = some v := by
  unfold operandAt
  by_cases neg : i < 0
  · simp [neg]
  · rw [if_neg neg]
    cases xs[i.toNat]? <;> simp
    omega

theorem operandAt_get {i : Int} (nonneg : 0 ≤ i) (lt : i.toNat < xs.length) :
    operandAt xs i = .ok xs[i.toNat] :=
  operandAt_eq_ok.2 ⟨nonneg, List.getElem?_eq_getElem lt⟩

theorem mapM_eq_ok {β : Type} {f : β → Except Failure α} {bs : List β} :
    bs.mapM f = .ok ys ↔ List.Forall₂ (fun b y => f b = .ok y) bs ys := by
  induction bs generalizing ys with
  | nil => cases ys <;> simp [pure, Except.pure]
  | cons b bs ih =>
    simp only [List.mapM_cons, Except.bind_eq_ok, ih]
    cases ys with
    | nil => simp [pure, Except.pure]
    | cons y ys => simp [pure, Except.pure, List.forall₂_cons]

theorem operandAt_eq_ok_getD (d : α) {i : Int} {v : α} :
    operandAt xs i = .ok v ↔ (0 ≤ i ∧ i < xs.length) ∧ v = xs.getD i.toNat d := by
  rw [operandAt_eq_ok, List.getD_eq_getElem?_getD]
  constructor
  · rintro ⟨nonneg, at_i⟩
    have lt := (List.getElem?_eq_some_iff.1 at_i).1
    exact ⟨⟨nonneg, by omega⟩, by simp [at_i]⟩
  · rintro ⟨⟨nonneg, lt⟩, rfl⟩
    have inRange : i.toNat < xs.length := by omega
    exact ⟨nonneg, by simp [List.getElem?_eq_getElem inRange]⟩

/-- A checked map whose check succeeds exactly under `P`, with `g`'s value, gives the plain map
exactly when every element passes. -/
theorem mapM_eq_ok_map {β : Type} {f : β → Except Failure α} {P : β → Prop} {g : β → α}
    (each : ∀ b y, f b = .ok y ↔ P b ∧ y = g b) {bs : List β} :
    bs.mapM f = .ok ys ↔ (∀ b ∈ bs, P b) ∧ ys = bs.map g := by
  rw [mapM_eq_ok]
  induction bs generalizing ys with
  | nil => cases ys <;> simp
  | cons b bs ih =>
    cases ys with
    | nil => simp
    | cons y ys =>
      rw [List.forall₂_cons, ih, each]
      simp only [List.forall_mem_cons, List.map_cons, List.cons.injEq]
      exact and_and_and_comm

theorem mapM_operandAt_eq_ok (d : α) {ps : List Int} :
    ps.mapM (operandAt xs) = .ok ys ↔
      (∀ p ∈ ps, 0 ≤ p ∧ p < xs.length) ∧ ys = ps.map fun p => xs.getD p.toNat d :=
  mapM_eq_ok_map fun _ _ => operandAt_eq_ok_getD d

theorem sliceOf_eq_ok {lo hi : Int} :
    sliceOf xs lo hi = .ok ys ↔
      (0 ≤ lo ∧ lo ≤ hi ∧ hi ≤ xs.length) ∧ ys = (xs.drop lo.toNat).take (hi.toNat - lo.toNat) := by
  unfold sliceOf
  rw [← Failure.sliceFault?_eq_none]
  cases Failure.sliceFault? lo hi xs.length <;> simp [eq_comm]

theorem deleteAt_eq_ok {i : Int} :
    deleteAt xs i = .ok ys ↔ (0 ≤ i ∧ i < xs.length) ∧ ys = xs.eraseIdx i.toNat := by
  unfold deleteAt
  have bounds : (0 ≤ i ∧ i ≤ i + 1 ∧ i + 1 ≤ xs.length) ↔ (0 ≤ i ∧ i < xs.length) := by omega
  rw [← bounds, ← Failure.cutFault?_eq_none]
  cases Failure.cutFault? i (i + 1) xs.length <;> simp [eq_comm]

theorem insertAt_eq_ok {i : Int} {x : α} :
    insertAt xs i x = .ok ys ↔ (0 ≤ i ∧ i ≤ xs.length) ∧ ys = xs.insertIdx i.toNat x := by
  unfold insertAt
  have bounds : (0 ≤ i ∧ i ≤ xs.length ∧ (xs.length : Int) ≤ xs.length) ↔ (0 ≤ i ∧ i ≤ xs.length) := by
    omega
  rw [← bounds, ← Failure.sliceFault?_eq_none]
  cases Failure.sliceFault? i xs.length xs.length <;> simp [eq_comm]

/-- Multiplying out each run of `gs` gives the runs' products when every run lies within the
list. -/
theorem mapM_runs_eq_ok {dims ys : List Int} {gs : List (Int × Int)} :
    gs.mapM (fun g => Word.product <$> sliceOf dims g.1 g.2) = .ok ys ↔
      (∀ g ∈ gs, 0 ≤ g.1 ∧ g.1 ≤ g.2 ∧ g.2 ≤ dims.length) ∧
        ys = gs.map fun g => Shape.runDim dims g.1.toNat g.2.toNat := by
  refine mapM_eq_ok_map fun g y => ?_
  rw [Except.map_eq_ok]
  constructor
  · rintro ⟨run, cut, rfl⟩
    obtain ⟨bounds, rfl⟩ := sliceOf_eq_ok.1 cut
    exact ⟨bounds, rfl⟩
  · rintro ⟨bounds, rfl⟩
    exact ⟨_, sliceOf_eq_ok.2 ⟨bounds, rfl⟩, rfl⟩

end Plan

end Rearrange
