import Rearrange.Tensor.Ops
import Rearrange.Word.Checked
import Rearrange.Proofs.InputsInGrammar
import Mathlib
/-!
# Sound arrays

An array is sound when its dimensions are positive and their exact product, the number of its
positions, is the number of values it stores, a number that is a signed 64-bit word
(`Tensor.Sound`). The constructors and `Tensor.reshape` count elements with the wrapping 64-bit
product of the dimensions (`Word.product`), and for positive dimensions that product is exact
precisely when the exact product fits in a word (`product_eq_prod`, `product_ne_prod`). So an array
they return is sound exactly when its dimensions multiply to at most `maxInt64`
(`sound_iff_fits`, `ofFlat_sound_iff`, `iota_sound_iff`, `reshape_sound_iff`), and dimensions
whose product wraps around to the number of values are accepted all the same
(`wrapped_count_accepted`).
-/
namespace Rearrange

open Word

section Products

variable {dims : List Int}

/-- The number of positions of positive dimensions is their exact product. -/
theorem positionCount_of_pos (pos : ∀ d ∈ dims, 0 < d) :
    (Tensor.positionCount dims : Int) = dims.prod := by
  have all : dims.all (0 < ·) = true := List.all_eq_true.2 fun d mem => by simpa using pos d mem
  unfold Tensor.positionCount
  rw [if_pos all]
  have fold : ∀ (n : Nat) (ds : List Int), (∀ d ∈ ds, 0 < d) →
      ((ds.foldl (fun n d => n * d.toNat) n : Nat) : Int) = n * ds.prod := by
    intro n ds dsPos
    induction ds generalizing n with
    | nil => simp
    | cons d ds ih =>
      rw [List.foldl_cons, ih _ fun d' mem => dsPos d' (by simp [mem]), List.prod_cons]
      have dPos := dsPos d (by simp)
      push_cast
      rw [Int.toNat_of_nonneg dPos.le, Int.mul_assoc]
  simpa using fold 1 dims pos

theorem positionCount_eq_prod (pos : ∀ d ∈ dims, 0 < d) :
    Tensor.positionCount dims = (dims.map Int.toNat).prod := by
  have all : dims.all (0 < ·) = true := List.all_eq_true.2 fun d mem => by simpa using pos d mem
  rw [Tensor.positionCount, if_pos all, List.prod_eq_foldl, List.foldl_map]

theorem map_toNat_ofNat (nonneg : ∀ d ∈ dims, 0 ≤ d) : (dims.map Int.toNat).map Int.ofNat = dims := by
  rw [List.map_map]
  exact (List.map_congr_left fun d mem => Int.toNat_of_nonneg (nonneg d mem)).trans (List.map_id _)

@[simp] theorem map_ofNat_toNat (l : List Nat) : (l.map Int.ofNat).map Int.toNat = l := by
  rw [List.map_map]
  exact (List.map_congr_left fun d _ => rfl).trans (List.map_id _)

theorem product_natCast (ds : List Nat) (fits : (ds.prod : Int) ≤ maxInt64) :
    product (ds.map Int.ofNat) = ds.prod := by
  unfold product
  rw [← List.prod_eq_foldl]
  have cast : (ds.map Int.ofNat).prod = (ds.prod : Int) := by
    rw [Nat.cast_list_prod]
    rfl
  rw [cast]
  exact wrapInt64_of_le (Int.natCast_nonneg _) fits

theorem product_eq_prod (pos : ∀ d ∈ dims, 0 < d) (fits : dims.prod ≤ maxInt64) :
    product dims = dims.prod := by
  unfold product
  rw [← List.prod_eq_foldl]
  exact wrapInt64_of_le (prod_pos_of_pos dims pos).le fits

end Products

section Loops

variable {σ ε : Type}

theorem forIn_range'_eq (f : Nat → σ → Except ε (ForInStep σ)) (state : Nat → σ) :
    ∀ n s, (∀ k, s ≤ k → k < s + n → f k (state k) = .ok (.yield (state (k + 1)))) →
      forIn (List.range' s n) (state s) f = .ok (state (s + n))
  | 0, s, _ => rfl
  | n + 1, s, step => by
    have rest := forIn_range'_eq f state n (s + 1) fun k low high => step k (by omega) (by omega)
    rw [List.range'_succ, List.forIn_cons, step s (Nat.le_refl s) (by omega)]
    simpa [bind, Except.bind, Nat.add_right_comm s 1 n, Nat.add_assoc] using rest

theorem forIn_range_eq (f : Nat → σ → Except ε (ForInStep σ)) (state : Nat → σ) (n : Nat)
    (step : ∀ k < n, f k (state k) = .ok (.yield (state (k + 1)))) :
    forIn [:n] (state 0) f = .ok (state n) := by
  have loop := forIn_range'_eq f state n 0 fun k _ lt => step k (by omega)
  simpa [Std.Legacy.Range.forIn_eq_forIn_range', Std.Legacy.Range.size] using loop

/-- A loop over `s, …, s + n - 1` whose body fails with `e` at a bad step and otherwise takes the
state after `k` to the state after `k + 1` fails with `e` exactly when one of its steps is bad. -/
theorem forIn_range'_until (f : Nat → σ → Except ε (ForInStep σ)) (state : Nat → σ) (bad : Nat → Bool)
    (e : ε) :
    ∀ n s, (∀ k, s ≤ k → k < s + n →
        f k (state k) = if bad k then .error e else .ok (.yield (state (k + 1)))) →
      forIn (List.range' s n) (state s) f =
        if (List.range' s n).any bad then .error e else .ok (state (s + n))
  | 0, s, _ => rfl
  | n + 1, s, step => by
    have rest := forIn_range'_until f state bad e n (s + 1) fun k low high => step k (by omega) (by omega)
    rw [List.range'_succ, List.forIn_cons, step s (Nat.le_refl s) (by omega), List.any_cons]
    cases first : bad s
    · rw [Bool.false_or, show s + (n + 1) = s + 1 + n by omega, ← rest]
      rfl
    · rfl

theorem forIn_range_until (f : Nat → σ → Except ε (ForInStep σ)) (state : Nat → σ) (bad : Nat → Bool)
    (e : ε) (n : Nat)
    (step : ∀ k < n, f k (state k) = if bad k then .error e else .ok (.yield (state (k + 1)))) :
    forIn [:n] (state 0) f = if (List.range n).any bad then .error e else .ok (state n) := by
  have loop := forIn_range'_until f state bad e n 0 fun k _ lt => step k (by omega)
  simpa [Std.Legacy.Range.forIn_eq_forIn_range', Std.Legacy.Range.size, List.range_eq_range'] using loop

/-- A loop that adds `c` values a step goes past a nonnegative bound at some step exactly when it
is past it after the last step. -/
theorem any_range_past {bound : Int} (nonneg : 0 ≤ bound) (c n : Nat) :
    (List.range n).any (fun o => decide (bound < ((o * c + c : Nat) : Int))) =
      decide (bound < ((n * c : Nat) : Int)) := by
  rw [Bool.eq_iff_iff, List.any_eq_true, decide_eq_true_iff]
  constructor
  · rintro ⟨o, mem, past⟩
    have le : o * c + c ≤ n * c := by
      calc o * c + c = (o + 1) * c := (Nat.succ_mul o c).symm
        _ ≤ n * c := Nat.mul_le_mul_right _ (List.mem_range.1 mem)
    exact lt_of_lt_of_le (of_decide_eq_true past) (Nat.cast_le.2 le)
  · intro past
    cases n with
    | zero => simp at past; omega
    | succ m =>
      refine ⟨m, List.mem_range.2 (Nat.lt_succ_self m), decide_eq_true ?_⟩
      rwa [← Nat.succ_mul]

end Loops

/-- A sound array: positive dimensions, whose exact product is the number of stored values, a
signed 64-bit word. -/
structure Tensor.Sound (t : Tensor) : Prop where
  pos : ∀ d ∈ t.shape.dims, 0 < d
  count : Tensor.positionCount t.shape.dims = t.flat.size
  fits : (t.flat.size : Int) ≤ maxInt64

/-- An array with positive dimensions whose wrapping product is its number of values is sound
exactly when the dimensions multiply to at most `maxInt64`. -/
theorem Tensor.sound_iff_fits {t : Tensor} (pos : ∀ d ∈ t.shape.dims, 0 < d)
    (wrapped : product t.shape.dims = t.flat.size) :
    t.Sound ↔ (Tensor.positionCount t.shape.dims : Int) ≤ maxInt64 := by
  have exact := positionCount_of_pos pos
  constructor
  · intro sound
    rw [sound.count]
    exact sound.fits
  · intro fits
    have same : product t.shape.dims = t.shape.dims.prod := product_eq_prod pos (exact ▸ fits)
    refine ⟨pos, ?_, by omega⟩
    exact_mod_cast exact.trans (same.symm.trans wrapped)

theorem Shape.make_ok {dtype : DType} {dims : List Int} {s : Shape}
    (h : Shape.make dtype dims = .ok s) : s = ⟨dtype, dims⟩ ∧ ∀ d ∈ dims, 0 < d := by
  unfold Shape.make at h
  by_cases pos : dims.all (0 < ·)
  · simp only [pos, if_true, Except.ok.injEq] at h
    exact ⟨h.symm, fun d mem => by simpa using List.all_eq_true.1 pos d mem⟩
  · simp [pos] at h

namespace Tensor

variable {t : Tensor}

theorem Sound.product (sound : t.Sound) : product t.shape.dims = t.flat.size := by
  have exact := positionCount_of_pos sound.pos
  rw [sound.count] at exact
  rw [product_eq_prod sound.pos (exact ▸ sound.fits), ← exact]

theorem Sound.prod (sound : t.Sound) : (t.shape.dims.map Int.toNat).prod = t.flat.size := by
  rw [← positionCount_eq_prod sound.pos, sound.count]

theorem Sound.dims_eq (sound : t.Sound) : (t.shape.dims.map Int.toNat).map Int.ofNat = t.shape.dims :=
  map_toNat_ofNat fun d mem => (sound.pos d mem).le

theorem Sound.natDims_pos (sound : t.Sound) : ∀ d ∈ t.shape.dims.map Int.toNat, 0 < d := by
  intro d mem
  obtain ⟨e, listed, rfl⟩ := List.mem_map.1 mem
  have := sound.pos e listed
  omega

theorem stored_of_lt {i : Nat} (lt : i < t.flat.size) : t.stored i = .ok (t.flat.getD i 0) := by
  simp [stored, lt, Array.getD]

/-- What `ofFlat` returns: the values under the dimensions, which are positive and whose wrapping
product is the number of values. -/
theorem ofFlat_ok {e : ElementType} {vs : List HostValue} {dims : List Int}
    (h : ofFlat e vs dims = .ok t) :
    t = { shape := ⟨e.dtype, dims⟩, flat := (vs.map HostValue.toFloat).toArray } ∧
      (∀ d ∈ dims, 0 < d) ∧ product dims = vs.length := by
  unfold ofFlat at h
  by_cases bad : dims.any (· ≤ 0)
  · simp [bad] at h
    cases h
  · by_cases count : product dims = vs.length
    · simp only [bad, count, ne_eq, not_true_eq_false] at h
      cases h
      refine ⟨rfl, fun d mem => ?_, count⟩
      simp only [List.any_eq_true, decide_eq_true_eq, not_exists, not_and, not_le] at bad
      exact bad d mem
    · simp [bad, count] at h
      cases h

theorem ofFlat_eq_ok {e : ElementType} {vs : List HostValue} {dims : List Int}
    (pos : ∀ d ∈ dims, 0 < d) (count : product dims = vs.length) :
    ofFlat e vs dims = .ok { shape := ⟨e.dtype, dims⟩, flat := (vs.map HostValue.toFloat).toArray } := by
  have good : dims.any (· ≤ 0) = false := by
    simpa using fun d mem => pos d mem
  simp [ofFlat, good, count, pure, Except.pure]

theorem ofFlat_sound_iff {e : ElementType} {vs : List HostValue} {dims : List Int}
    (h : ofFlat e vs dims = .ok t) : t.Sound ↔ (positionCount dims : Int) ≤ maxInt64 := by
  obtain ⟨rfl, pos, count⟩ := ofFlat_ok h
  exact sound_iff_fits pos (by simpa using count)

theorem reserve_ok {n : Int} {byLength : Bool} {u : Unit} (h : reserve n byLength = .ok u) :
    0 ≤ n ∧ n ≤ blockLimit := by
  unfold reserve at h
  by_cases bad : n < 0 || n > blockLimit
  · simp [bad] at h
  · simp at bad
    omega

theorem iota_ok {dtype : DType} {dims : List Int} (h : iota dtype dims = .ok t) :
    t.shape = ⟨dtype, dims⟩ ∧ (∀ d ∈ dims, 0 < d) ∧ (t.flat.size : Int) = product dims := by
  obtain ⟨shape, made, rest⟩ := Except.bind_eq_ok.1 h
  obtain ⟨rfl, pos⟩ := Shape.make_ok made
  obtain ⟨u, reserved, rfl⟩ := Except.map_eq_ok.1 rest
  have nonneg := (reserve_ok reserved).1
  refine ⟨rfl, pos, ?_⟩
  simpa [Shape.size] using Int.toNat_of_nonneg nonneg

theorem iota_eq_ok {dtype : DType} {dims : List Int} (pos : ∀ d ∈ dims, 0 < d)
    (nonneg : 0 ≤ product dims) (room : product dims ≤ blockLimit) :
    iota dtype dims =
      .ok ⟨⟨dtype, dims⟩,
        Array.map (fun i => dtype.normalize (Float.ofNat i)) (Array.range (product dims).toNat), 0⟩ := by
  have all : dims.all (0 < ·) = true := List.all_eq_true.2 fun d mem => by simpa using pos d mem
  simp [iota, Shape.make, all, reserve, Shape.size, Int.not_lt.2 nonneg, Int.not_lt.2 room, bind,
    Except.bind, pure, Except.pure]

theorem iota_sound_iff {dtype : DType} {dims : List Int} (h : iota dtype dims = .ok t) :
    t.Sound ↔ (positionCount dims : Int) ≤ maxInt64 := by
  obtain ⟨shape, pos, count⟩ := iota_ok h
  have dims_eq : t.shape.dims = dims := by rw [shape]
  rw [← dims_eq] at pos count ⊢
  exact sound_iff_fits pos count.symm

/-- What `reshape` returns: the same values under the new dimensions, which are positive and have
the wrapping product of the old ones. -/
theorem reshape_ok {x : Tensor} {dims : List Int} (h : x.reshape dims = .ok t) :
    t = { x with shape := ⟨x.shape.dtype, dims⟩ } ∧ (∀ d ∈ dims, 0 < d) ∧
      product dims = product x.shape.dims := by
  obtain ⟨shape, checked, done⟩ := Except.bind_eq_ok.1 h
  cases done
  unfold Shape.reshape at checked
  split at checked
  · cases checked
  split at checked
  · cases checked
  rename_i found
  have pos : ∀ d ∈ dims, 0 < d := by
    intro d mem
    obtain ⟨i, at_i⟩ := List.mem_iff_getElem?.1 mem
    have listed : (d, i) ∈ dims.zipIdx := List.mem_zipIdx_iff_getElem?.2 at_i
    simpa using List.find?_eq_none.1 found _ listed
  dsimp only at checked
  split at checked
  · cases checked
  rename_i same
  cases checked
  exact ⟨rfl, pos, not_not.1 same⟩

theorem reshape_eq_ok {x : Tensor} {dims : List Int} (valid : x.shape.ok = true)
    (pos : ∀ d ∈ dims, 0 < d) (same : product dims = product x.shape.dims) :
    x.reshape dims = .ok { x with shape := ⟨x.shape.dtype, dims⟩ } := by
  simp only [reshape, Shape.reshape, valid, Bool.not_true, Bool.false_eq_true, if_false]
  split
  · rename_i d axis found
    have flagged := List.find?_some found
    have := pos d (List.fst_mem_of_mem_zipIdx (List.mem_of_find?_eq_some found))
    simp only [decide_eq_true_eq] at flagged
    omega
  · simp [Shape.size, same, Shape.withDims, bind, Except.bind, pure, Except.pure]

theorem reshape_sound_iff {x : Tensor} {dims : List Int} (sound : x.Sound)
    (h : x.reshape dims = .ok t) : t.Sound ↔ (positionCount dims : Int) ≤ maxInt64 := by
  obtain ⟨rfl, pos, same⟩ := reshape_ok h
  exact sound_iff_fits pos (same.trans sound.product)

/-- The dimensions `[22, 838488366986797801]` have 2^64 + 6 positions, but their wrapping product
is 6. `ofFlat` and `iota` return arrays of six values under them, and so does `reshape` of a sound
array of six values: none of the three has as many values as positions. -/
theorem wrapped_count_accepted :
    let dims : List Int := [22, 838488366986797801]
    positionCount dims = 18446744073709551622 ∧
      (∃ t, ofFlat .float32 ((List.range 6).map fun i => .int i) dims = .ok t ∧
        positionCount t.shape.dims ≠ t.flat.size) ∧
      (∃ t, iota .float32 dims = .ok t ∧ positionCount t.shape.dims ≠ t.flat.size) ∧
      ∃ x t : Tensor, x.Sound ∧ x.reshape dims = .ok t ∧ positionCount t.shape.dims ≠ t.flat.size := by
  intro dims
  have count : positionCount dims = 18446744073709551622 := by decide
  have wrapped : product dims = 6 := by decide
  have pos : ∀ d ∈ dims, 0 < d := by decide
  have six : product [6] = 6 := by decide
  let x : Tensor := ⟨⟨.float32, [6]⟩, (Array.range 6).map fun i => DType.float32.normalize (Float.ofNat i), 0⟩
  have sound : x.Sound := ⟨by decide, by simp [x]; decide, by simp [x, maxInt64]⟩
  refine ⟨count, ⟨_, ofFlat_eq_ok pos (by simpa using wrapped), ?_⟩,
    ⟨_, iota_eq_ok pos (by rw [wrapped]; decide) (by rw [wrapped]; decide), ?_⟩,
    ⟨x, _, sound, reshape_eq_ok (by decide) pos (by rw [wrapped, six]), ?_⟩⟩
  all_goals simp [count, wrapped, x]

end Tensor

end Rearrange
