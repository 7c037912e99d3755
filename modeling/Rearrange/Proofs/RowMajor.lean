import Mathlib
/-!
# Row-major positions

A position of an array gives one coordinate per axis, and positions are numbered in row-major
order: the last axis varies fastest, and a coordinate counts as many positions as the axes after
it have together, its place value (`placeValues`). `rowNumber` numbers a position and `rowIndex`
finds the position of a number. Within the dimensions they undo each other (`rowNumber_rowIndex`,
`rowIndex_rowNumber`), and numbers stay below the product of the dimensions (`rowNumber_lt`).
The number of a position is its coordinates weighted by the place values (`rowNumber_eq_weighted`).

Counting up by one changes the last coordinate, unless it reaches its dimension; then it goes back
to 0 and the axes before it count up (`rowIndex_append_singleton`, `succ_div_mod_of_lt`,
`succ_div_mod_of_eq`).

An array whose axes are reordered by a permutation lists the entries of a position in that order
(`reorder`); reordering by the inverse permutation gives them back (`IsPerm.reorder_inverse`), and
weighting the coordinates is the same in either order (`IsPerm.weighted_reorder`).
-/
namespace Rearrange

/-- The row-major number of a position within dimensions. -/
def rowNumber : List Nat → List Nat → Nat
  | _ :: ds, i :: is => i * ds.prod + rowNumber ds is
  | _, _ => 0

/-- The position of a row-major number within dimensions. -/
def rowIndex : List Nat → Nat → List Nat
  | [], _ => []
  | d :: ds, k => k / ds.prod % d :: rowIndex ds k

/-- A position within dimensions: one coordinate per axis, each below its dimension. -/
def InBounds (dims idx : List Nat) : Prop := List.Forall₂ (· < ·) idx dims

/-- The place value of each axis: the product of the dimensions after it. -/
def placeValues : List Nat → List Nat
  | [] => []
  | _ :: ds => ds.prod :: placeValues ds

def weighted (idx weights : List Nat) : Nat := (List.zipWith (· * ·) idx weights).sum

section

variable {dims idx : List Nat}

@[simp] theorem rowNumber_cons (d i : Nat) (ds is : List Nat) :
    rowNumber (d :: ds) (i :: is) = i * ds.prod + rowNumber ds is := rfl

@[simp] theorem rowIndex_nil (k : Nat) : rowIndex [] k = [] := rfl

@[simp] theorem rowIndex_cons (d k : Nat) (ds : List Nat) :
    rowIndex (d :: ds) k = k / ds.prod % d :: rowIndex ds k := rfl

@[simp] theorem length_rowIndex (k : Nat) : (rowIndex dims k).length = dims.length := by
  induction dims <;> simp [*]

@[simp] theorem length_placeValues : (placeValues dims).length = dims.length := by
  induction dims <;> simp [placeValues, *]

theorem placeValues_eq : ∀ dims : List Nat,
    placeValues dims = (List.range dims.length).map fun a => (dims.drop (a + 1)).prod
  | [] => rfl
  | d :: ds => by
    rw [placeValues, placeValues_eq ds, List.length_cons, List.range_succ_eq_map]
    simp [Function.comp_def]

theorem prod_drop_le (pos : ∀ d ∈ dims, 0 < d) (k : Nat) : (dims.drop k).prod ≤ dims.prod := by
  have whole := List.prod_take_mul_prod_drop dims k
  have front : 0 < (dims.take k).prod :=
    List.prod_pos fun d mem => pos d (List.mem_of_mem_take mem)
  calc (dims.drop k).prod ≤ (dims.take k).prod * (dims.drop k).prod := Nat.le_mul_of_pos_left _ front
    _ = dims.prod := whole

theorem prod_take_le (pos : ∀ d ∈ dims, 0 < d) (k : Nat) : (dims.take k).prod ≤ dims.prod := by
  have whole := List.prod_take_mul_prod_drop dims k
  have back : 0 < (dims.drop k).prod :=
    List.prod_pos fun d mem => pos d (List.mem_of_mem_drop mem)
  calc (dims.take k).prod ≤ (dims.take k).prod * (dims.drop k).prod := Nat.le_mul_of_pos_right _ back
    _ = dims.prod := whole

theorem rowIndex_zero : rowIndex dims 0 = List.replicate dims.length 0 := by
  induction dims <;> simp [*, List.replicate_succ]

theorem weighted_replicate_zero (n : Nat) (ws : List Nat) : weighted (List.replicate n 0) ws = 0 := by
  induction n generalizing ws with
  | zero => simp [weighted]
  | succ n ih =>
    cases ws with
    | nil => simp [weighted]
    | cons w ws => simpa [weighted, List.replicate_succ] using ih ws

theorem rowNumber_lt (h : InBounds dims idx) : rowNumber dims idx < dims.prod := by
  induction h with
  | nil => simp [rowNumber]
  | @cons i d is ds lt _ ih =>
    rw [rowNumber_cons, List.prod_cons]
    calc i * ds.prod + rowNumber ds is < i * ds.prod + ds.prod := by omega
      _ = (i + 1) * ds.prod := by ring
      _ ≤ d * ds.prod := Nat.mul_le_mul_right _ lt

theorem rowIndex_inBounds (pos : ∀ d ∈ dims, 0 < d) (k : Nat) : InBounds dims (rowIndex dims k) := by
  induction dims with
  | nil => exact .nil
  | cons d ds ih =>
    exact .cons (Nat.mod_lt _ (pos d (by simp))) (ih fun d' mem => pos d' (by simp [mem]))

theorem rowIndex_mod (k : Nat) : rowIndex dims (k % dims.prod) = rowIndex dims k := by
  induction dims generalizing k with
  | nil => rfl
  | cons d ds ih =>
    rw [rowIndex_cons, rowIndex_cons, List.prod_cons, Nat.mul_comm d,
      Nat.mod_mul_right_div_self, Nat.mod_mod, ← ih (k % (ds.prod * d)), Nat.mod_mul_right_mod, ih]

theorem rowNumber_rowIndex {k : Nat} (lt : k < dims.prod) : rowNumber dims (rowIndex dims k) = k := by
  induction dims generalizing k with
  | nil =>
    have zero : k = 0 := by simpa using lt
    simp [zero, rowNumber]
  | cons d ds ih =>
    rw [List.prod_cons] at lt
    have below : k / ds.prod < d := Nat.div_lt_of_lt_mul (by rwa [Nat.mul_comm])
    have pos : 0 < ds.prod := Nat.pos_of_ne_zero fun zero => by simp [zero] at lt
    rw [rowIndex_cons, rowNumber_cons, Nat.mod_eq_of_lt below, ← rowIndex_mod,
      ih (Nat.mod_lt _ pos)]
    exact Nat.div_add_mod' k ds.prod

theorem rowIndex_rowNumber (h : InBounds dims idx) : rowIndex dims (rowNumber dims idx) = idx := by
  induction h with
  | nil => rfl
  | @cons i d is ds lt rest ih =>
    have below := rowNumber_lt rest
    have pos : 0 < ds.prod := Nat.lt_of_le_of_lt (Nat.zero_le _) below
    have high : (i * ds.prod + rowNumber ds is) / ds.prod = i := by
      rw [Nat.add_comm, Nat.add_mul_div_right _ _ pos, Nat.div_eq_of_lt below, Nat.zero_add]
    have low : (i * ds.prod + rowNumber ds is) % ds.prod = rowNumber ds is := by
      rw [Nat.add_comm, Nat.add_mul_mod_self_right, Nat.mod_eq_of_lt below]
    rw [rowNumber_cons, rowIndex_cons, high, Nat.mod_eq_of_lt lt, ← rowIndex_mod, low, ih]

theorem rowNumber_eq_weighted : ∀ dims idx : List Nat, rowNumber dims idx = weighted idx (placeValues dims)
  | [], _ => by simp [rowNumber, weighted, placeValues]
  | _ :: _, [] => by simp [rowNumber, weighted]
  | d :: ds, i :: is => by
    rw [rowNumber_cons, rowNumber_eq_weighted ds is]
    simp [weighted, placeValues]

theorem rowIndex_append_singleton (d k : Nat) :
    ∀ ds : List Nat, rowIndex (ds ++ [d]) k = rowIndex ds (k / d) ++ [k % d]
  | [] => by simp
  | e :: ds => by
    rw [List.cons_append, rowIndex_cons, rowIndex_cons, rowIndex_append_singleton d k ds,
      List.prod_append, List.prod_singleton, Nat.div_div_eq_div_mul, Nat.mul_comm d]
    rfl

theorem succ_div_mod_of_lt {k d : Nat} (h : k % d + 1 < d) :
    (k + 1) / d = k / d ∧ (k + 1) % d = k % d + 1 := by
  have split := Nat.div_add_mod k d
  have quot : (k + 1) / d = k / d := by
    apply Nat.div_eq_of_lt_le
    · rw [Nat.mul_comm]; omega
    · rw [Nat.succ_mul, Nat.mul_comm]; omega
  have split' := Nat.div_add_mod (k + 1) d
  rw [quot] at split'
  exact ⟨quot, by omega⟩

theorem succ_div_mod_of_eq {k d : Nat} (h : k % d + 1 = d) :
    (k + 1) / d = k / d + 1 ∧ (k + 1) % d = 0 := by
  have whole : k + 1 = d * (k / d + 1) := by
    have split := Nat.div_add_mod k d
    rw [Nat.mul_add, Nat.mul_one]; omega
  have pos : 0 < d := by omega
  rw [whole]
  exact ⟨Nat.mul_div_cancel_left _ pos, Nat.mul_mod_right _ _⟩

theorem weighted_append_singleton (x : Nat) :
    ∀ (is ws : List Nat), weighted (is ++ [x]) ws = weighted is ws + x * ws.getD is.length 0
  | [], [] => by simp [weighted]
  | [], w :: ws => by simp [weighted]
  | _ :: _, [] => by simp [weighted]
  | i :: is, w :: ws => by
    have rest := weighted_append_singleton x is ws
    simp only [weighted] at rest ⊢
    simp [rest]
    omega

theorem inBounds_iff : InBounds dims idx ↔
    idx.length = dims.length ∧ ∀ j (h₁ : j < idx.length) (h₂ : j < dims.length), idx[j] < dims[j] := by
  simp [InBounds, List.forall₂_iff_get]

theorem weighted_eq_sum {idx ws : List Nat} (len : idx.length = ws.length) :
    weighted idx ws = ((List.range idx.length).map fun j => idx.getD j 0 * ws.getD j 0).sum := by
  unfold weighted
  congr 1
  refine List.ext_getElem (by simp [len]) fun j h₁ h₂ => ?_
  have j₁ : j < idx.length := by simpa using h₂
  have j₂ : j < ws.length := len ▸ j₁
  simp [List.getElem?_eq_getElem j₁, List.getElem?_eq_getElem j₂]

end

section Permutation

variable {perm : List Nat}

/-- The entries of `l` in the order `perm`: entry `j` is `l[perm[j]]`. -/
def reorder (perm l : List Nat) : List Nat := perm.map fun p => l.getD p 0

/-- The permutation that undoes `perm`: axis `a` goes back to where `perm` took it from. -/
def inversePerm (perm : List Nat) : List Nat := (List.range perm.length).map perm.idxOf

/-- A permutation of the axes `0, …, r - 1`. -/
def IsPerm (perm : List Nat) : Prop := perm.Perm (List.range perm.length)

@[simp] theorem length_reorder (l : List Nat) : (reorder perm l).length = perm.length := by
  simp [reorder]

@[simp] theorem length_inversePerm : (inversePerm perm).length = perm.length := by
  simp [inversePerm]

theorem getD_reorder (l : List Nat) {j : Nat} (lt : j < perm.length) :
    (reorder perm l).getD j 0 = l.getD (perm.getD j 0) 0 := by
  simp [reorder, List.getElem?_eq_getElem lt]

theorem getD_inversePerm {a : Nat} (lt : a < perm.length) : (inversePerm perm).getD a 0 = perm.idxOf a := by
  simp [inversePerm, lt]

namespace IsPerm

variable (h : IsPerm perm)
include h

theorem nodup : perm.Nodup := h.nodup_iff.2 List.nodup_range

theorem lt_of_mem {a : Nat} (mem : a ∈ perm) : a < perm.length :=
  List.mem_range.1 (h.subset mem)

theorem mem {a : Nat} (lt : a < perm.length) : a ∈ perm :=
  h.symm.subset (List.mem_range.2 lt)

theorem getD_lt {j : Nat} (lt : j < perm.length) : perm.getD j 0 < perm.length := by
  rw [List.getD_eq_getElem _ _ lt]
  exact h.lt_of_mem (List.getElem_mem lt)

theorem idxOf_lt {a : Nat} (lt : a < perm.length) : perm.idxOf a < perm.length :=
  List.idxOf_lt_length_iff.2 (h.mem lt)

theorem getD_idxOf {a : Nat} (lt : a < perm.length) : perm.getD (perm.idxOf a) 0 = a := by
  rw [List.getD_eq_getElem _ _ (h.idxOf_lt lt), List.getElem_idxOf]

theorem idxOf_getD {j : Nat} (lt : j < perm.length) : perm.idxOf (perm.getD j 0) = j := by
  rw [List.getD_eq_getElem _ _ lt]
  exact h.nodup.idxOf_getElem j lt

theorem sum_map (f : Nat → Nat) :
    ((List.range perm.length).map fun j => f (perm.getD j 0)).sum =
      ((List.range perm.length).map f).sum := by
  have listed : (List.range perm.length).map (fun j => perm.getD j 0) = perm :=
    List.ext_getElem (by simp) fun j h₁ h₂ => by simp [List.getElem?_eq_getElem h₂]
  show ((List.range perm.length).map (f ∘ fun j => perm.getD j 0)).sum = _
  rw [← List.map_map, listed]
  exact (h.map f).sum_eq

theorem inverse : IsPerm (inversePerm perm) := by
  have own : perm.map perm.idxOf = List.range perm.length :=
    List.ext_getElem (by simp) fun j h₁ _ => by
      have lt : j < perm.length := by simpa using h₁
      have back := h.idxOf_getD lt
      rw [List.getD_eq_getElem _ _ lt] at back
      simpa using back
  have moved : ((List.range perm.length).map perm.idxOf).Perm (perm.map perm.idxOf) := h.symm.map _
  rw [own] at moved
  simpa [IsPerm, inversePerm] using moved

theorem idxOf_inversePerm {b : Nat} (lt : b < perm.length) :
    (inversePerm perm).idxOf b = perm.getD b 0 := by
  have inv := h.inverse
  have at_b : (inversePerm perm).getD (perm.getD b 0) 0 = b := by
    rw [getD_inversePerm (h.getD_lt lt), h.idxOf_getD lt]
  have len : perm.getD b 0 < (inversePerm perm).length := by simpa using h.getD_lt lt
  conv => lhs; rw [← at_b]
  exact inv.idxOf_getD len

theorem inversePerm_inversePerm : inversePerm (inversePerm perm) = perm := by
  refine List.ext_getElem (by simp) fun b h₁ h₂ => ?_
  simp only [inversePerm, List.getElem_map, List.getElem_range]
  have := h.idxOf_inversePerm h₂
  rw [inversePerm] at this
  rw [this, List.getD_eq_getElem _ _ h₂]

theorem reorder_inverse {l : List Nat} (len : l.length = perm.length) :
    reorder (inversePerm perm) (reorder perm l) = l := by
  refine List.ext_getElem (by simp [len]) fun a h₁ h₂ => ?_
  have lt : a < perm.length := by simpa using h₁
  have step : (reorder (inversePerm perm) (reorder perm l)).getD a 0 = _ :=
    getD_reorder (reorder perm l) (by simpa using lt)
  rw [getD_inversePerm lt, getD_reorder l (h.idxOf_lt lt), h.getD_idxOf lt,
    List.getD_eq_getElem _ _ h₂] at step
  rw [← step, List.getD_eq_getElem]

theorem weighted_reorder {idx ws : List Nat} (len : idx.length = perm.length)
    (wlen : ws.length = perm.length) :
    weighted idx (reorder perm ws) = weighted (reorder (inversePerm perm) idx) ws := by
  rw [weighted_eq_sum (by simp [len]), weighted_eq_sum (by simp [wlen]), length_reorder,
    length_inversePerm, len,
    ← h.sum_map fun a => (reorder (inversePerm perm) idx).getD a 0 * ws.getD a 0]
  refine congrArg List.sum (List.map_congr_left fun j mem => ?_)
  have lt : j < perm.length := List.mem_range.1 mem
  rw [getD_reorder ws lt, getD_reorder idx (by simpa using h.getD_lt lt),
    getD_inversePerm (h.getD_lt lt), h.idxOf_getD lt]

theorem inBounds_reorder {dims idx : List Nat} (dlen : dims.length = perm.length)
    (hb : InBounds dims idx) : InBounds (reorder perm dims) (reorder perm idx) := by
  rw [inBounds_iff] at hb ⊢
  refine ⟨by simp, fun j h₁ _ => ?_⟩
  have lt : j < perm.length := by simpa using h₁
  have inner : perm[j] < dims.length := dlen ▸ h.lt_of_mem (List.getElem_mem lt)
  have bound := hb.2 _ (hb.1 ▸ inner) inner
  simpa [reorder, List.getElem?_eq_getElem inner, List.getElem?_eq_getElem (hb.1 ▸ inner)] using bound

theorem weighted_placeValues {dims idx : List Nat} (dlen : dims.length = perm.length)
    (len : idx.length = perm.length) :
    weighted idx (reorder perm (placeValues dims)) = rowNumber dims (reorder (inversePerm perm) idx) := by
  rw [h.weighted_reorder len (by simp [dlen]), rowNumber_eq_weighted]

theorem mem_reorder {l : List Nat} (llen : l.length = perm.length) {d : Nat} (mem : d ∈ reorder perm l) :
    d ∈ l := by
  obtain ⟨p, listed, rfl⟩ := List.mem_map.1 mem
  rw [List.getD_eq_getElem _ _ (llen ▸ h.lt_of_mem listed)]
  exact List.getElem_mem _

theorem prod_reorder {l : List Nat} (llen : l.length = perm.length) : (reorder perm l).prod = l.prod := by
  have listed : (List.range perm.length).map (fun a => l.getD a 0) = l :=
    List.ext_getElem (by simp [llen]) fun a h₁ h₂ => by simp [List.getElem?_eq_getElem h₂]
  have moved : (perm.map fun a => l.getD a 0).Perm ((List.range perm.length).map fun a => l.getD a 0) :=
    h.map _
  rw [reorder, moved.prod_eq, listed]

end IsPerm

end Permutation

end Rearrange