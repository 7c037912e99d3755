import Rearrange.Error
import Mathlib
/-!
# Computations that succeed exactly under a condition

A computation of the library ends with a result or a failure. `Yields c post x` says that `x`
gives a result exactly when `c` holds, a result that satisfies `post`, and that otherwise it
fails with an ordinary failure: a classified error or a plain message, never an abort and never
the report of a plan found inconsistent (`Failure.Ordinary`).

The lemmas follow the shape of the code: a result, a failure, a bind, a loop. A bind needs both
conditions (`Yields.bind`), a loop the condition of every element (`Yields.forIn`). From a
`Yields` one reads off both that the computation succeeds exactly when `c` holds
(`Yields.ok_iff`) and that every failure it can end with is ordinary (`Yields.ordinary`).
-/
namespace Except

variable {ε α β : Type}

theorem bind_eq_ok {x : Except ε α} {f : α → Except ε β} {b : β} :
    (x >>= f) = .ok b ↔ ∃ a, x = .ok a ∧ f a = .ok b := by
  cases x <;> simp [bind, Except.bind]

theorem bind_of_ok {x : Except ε α} {f : α → Except ε β} {v : α} {y : Except ε β} (first : x = .ok v)
    (rest : f v = y) : (x >>= f) = y := by
  rw [first]
  exact rest

theorem map_eq_ok {x : Except ε α} {f : α → β} {b : β} :
    f <$> x = .ok b ↔ ∃ a, x = .ok a ∧ f a = b := by
  cases x <;> simp [Functor.map, Except.map]

theorem mapError_eq_ok {ε' : Type} {x : Except ε α} {f : ε → ε'} {a : α} :
    x.mapError f = .ok a ↔ x = .ok a := by
  cases x <;> simp [Except.mapError]

theorem ite_throw_ok {c : Prop} [Decidable c] {e : ε} {k : PUnit → Except ε β} {r : β}
    (h : (if c then (throw e >>= k) else k PUnit.unit) = .ok r) : ¬c ∧ k PUnit.unit = .ok r := by
  split at h
  · cases h
  · exact ⟨‹_›, h⟩

end Except

namespace Rearrange

/-- A failure shown to a caller for bad input: neither an abort nor a plan found
inconsistent. -/
def Failure.Ordinary (f : Failure) : Prop := f.isPanic = false ∧ f.kind? ≠ some .planInconsistent

theorem Failure.Ordinary.withContext {f : Failure} (h : f.Ordinary) (note : String) :
    (f.withContext note).Ordinary := by
  cases f with
  | panic m => simp [Failure.Ordinary, Failure.isPanic] at h
  | fault m => simp [Failure.Ordinary, Failure.isPanic] at h
  | tagged e => exact ⟨rfl, h.2⟩
  | plain m => exact ⟨rfl, h.2⟩
  | context n inner => exact ⟨rfl, h.2⟩

/-- `x` gives a result satisfying `post` exactly when `c` holds, and otherwise fails with an
ordinary failure. -/
structure Yields {α : Type} (c : Prop) (post : α → Prop) (x : Except Failure α) : Prop where
  ok : c → ∃ r, x = .ok r ∧ post r
  fail : ¬c → ∃ f, x = .error f ∧ f.Ordinary

namespace Yields

variable {α β : Type} {c c' : Prop} {post : α → Prop} {post' : β → Prop} {x : Except Failure α}

theorem pure {r : α} (h : post r) : Yields True post (.ok r) :=
  ⟨fun _ => ⟨r, rfl, h⟩, fun no => absurd trivial no⟩

theorem throw {f : Failure} (h : f.Ordinary) : Yields False post (.error f) :=
  ⟨fun no => no.elim, fun _ => ⟨f, rfl, h⟩⟩

/-- A step and then the rest: both conditions are needed, the second stated for every result the
step may give once its own condition holds. -/
theorem bind {k : α → Except Failure β} (hx : Yields c post x)
    (hk : c → ∀ r, post r → Yields c' post' (k r)) : Yields (c ∧ c') post' (x >>= k) := by
  constructor
  · rintro ⟨hc, hc'⟩
    obtain ⟨r, rfl, hr⟩ := hx.ok hc
    exact (hk hc r hr).ok hc'
  · intro no
    by_cases hc : c
    · obtain ⟨r, rfl, hr⟩ := hx.ok hc
      exact (hk hc r hr).fail fun hc' => no ⟨hc, hc'⟩
    · obtain ⟨f, rfl, hf⟩ := hx.fail hc
      exact ⟨f, rfl, hf⟩

theorem of_holds (hc : c) (h : ∃ r, x = .ok r ∧ post r) : Yields c post x :=
  ⟨fun _ => h, fun no => absurd hc no⟩

theorem of_not (hc : ¬c) (h : ∃ f, x = .error f ∧ f.Ordinary) : Yields c post x :=
  ⟨fun yes => absurd yes hc, fun _ => h⟩

theorem congr (iff : c ↔ c') (h : Yields c post x) : Yields c' post x :=
  ⟨fun hc' => h.ok (iff.2 hc'), fun no => h.fail fun hc => no (iff.1 hc)⟩

theorem mono {post'' : α → Prop} (h : Yields c post x) (imp : ∀ r, post r → post'' r) :
    Yields c post'' x :=
  ⟨fun hc => (h.ok hc).imp fun _ ⟨eq, hr⟩ => ⟨eq, imp _ hr⟩, h.fail⟩

theorem of_ok {r : α} (eq : x = .ok r) (h : post r) : Yields True post x :=
  eq ▸ pure h

theorem ok_iff (h : Yields c post x) : (∃ r, x = .ok r) ↔ c := by
  constructor
  · rintro ⟨r, eq⟩
    by_contra no
    obtain ⟨f, eq', -⟩ := h.fail no
    rw [eq] at eq'
    cases eq'
  · intro hc
    obtain ⟨r, eq, -⟩ := h.ok hc
    exact ⟨r, eq⟩

theorem ordinary (h : Yields c post x) {f : Failure} (eq : x = .error f) : f.Ordinary := by
  by_cases hc : c
  · obtain ⟨r, eq', -⟩ := h.ok hc
    rw [eq] at eq'
    cases eq'
  · obtain ⟨f', eq', hf⟩ := h.fail hc
    rw [eq] at eq'
    cases eq'
    exact hf

theorem post_of_ok (h : Yields c post x) {r : α} (eq : x = .ok r) : post r := by
  have hc := h.ok_iff.1 ⟨r, eq⟩
  obtain ⟨r', eq', hr⟩ := h.ok hc
  rw [eq] at eq'
  cases eq'
  exact hr

theorem mapError (h : Yields c post x) (note : String) :
    Yields c post (x.mapError (·.withContext note)) := by
  constructor
  · intro hc
    obtain ⟨r, eq, hr⟩ := h.ok hc
    exact ⟨r, by simp [eq, Except.mapError], hr⟩
  · intro no
    obtain ⟨f, eq, hf⟩ := h.fail no
    exact ⟨f.withContext note, by simp [eq, Except.mapError], hf.withContext note⟩

/-- A loop whose body yields for each element under its own condition, carrying an invariant of
the elements done: the loop needs the condition of every element. -/
theorem forIn {γ : Type} (cond : γ → Prop) (inv : List γ → β → Prop)
    (body : γ → β → Except Failure (ForInStep β))
    (step : ∀ pre g b, inv pre b →
      Yields (cond g) (fun r => ∃ b', r = .yield b' ∧ inv (pre ++ [g]) b') (body g b)) :
    ∀ (xs pre : List γ) (b : β), inv pre b →
      Yields (∀ g ∈ xs, cond g) (inv (pre ++ xs)) (ForIn.forIn xs b body)
  | [], pre, b, hb => by
    rw [List.forIn_nil, List.append_nil]
    exact (Yields.pure hb).congr (by simp)
  | g :: xs, pre, b, hb => by
    rw [List.forIn_cons]
    have rest : ∀ r : ForInStep β, (∃ b', r = .yield b' ∧ inv (pre ++ [g]) b') →
        Yields (∀ g ∈ xs, cond g) (inv (pre ++ g :: xs))
          (match r with
            | .done b => Pure.pure b
            | .yield b => ForIn.forIn xs b body) := by
      rintro r ⟨b', rfl, hb'⟩
      have rest := forIn cond inv body step xs (pre ++ [g]) b' hb'
      rw [List.append_assoc, List.singleton_append] at rest
      exact rest
    exact (Yields.bind (step pre g b hb) fun _ => rest).congr (by simp)

end Yields

end Rearrange
