import Rearrange.Plan.Cache
/-!
# What the plan cache answers

A request to the cache (`Request`) is a pattern, the shapes of its inputs and the options; its key
is the pattern, `|` and the text of each shape, then `|` and the options' key. The cache looks the
key up before reading the pattern, so it answers a request with a plan compiled for whichever
earlier request had the same key.

Every plan the cache holds was compiled, under its key, for a request it was sent
(`Cache.Faithful`), and a failed compile is never stored (`Cache.Faithful.compile`). So the cache
answers each request exactly as compiling it does whenever requests with one key compile alike
(`compileAll_answers`). Keys can collide, though: the text of a pattern may itself hold `|` and
the text of a shape, and then the cache answers a request that does not compile with the plan of
another (`compileAll_key_collision`).
-/
namespace Rearrange.Plan

/-- A compile request: a pattern, the shapes of its inputs and the options. -/
structure Request where
  pattern : String
  inputs : List Shape
  opts : CompileOptions

namespace Request

def key (r : Request) : String := Cache.key r.pattern r.inputs r.opts

def compile (r : Request) : Except Failure Plan := Plan.compile r.pattern r.inputs r.opts

end Request

namespace Cache

/-- Sends the requests to the cache in order: the cache after them, and each answer. -/
def compileAll : Cache → List Request → Cache × List (Except Failure (Plan × Nat))
  | c, [] => (c, [])
  | c, r :: rs =>
    let (c', out) := c.compile r.pattern r.inputs r.opts
    let (c'', outs) := compileAll c' rs
    (c'', out :: outs)

/-- Every plan the cache holds was compiled, under its key, for one of the requests `seen`. -/
def Faithful (seen : List Request) (c : Cache) : Prop :=
  ∀ e ∈ c.entries, ∃ r ∈ seen, r.key = e.key ∧ r.compile = .ok e.plan

/-- What one request does: a plan stored under its key is returned, with its serial number, and
becomes the most recently used; otherwise the request is compiled, a failure leaves the cache as it
was, and a plan is stored under the key with the next serial number. -/
theorem compile_cases (c : Cache) (r : Request) :
    (∃ e ∈ c.entries, e.key = r.key ∧ c.compile r.pattern r.inputs r.opts =
        ({ c with entries := e :: c.entries.filter (·.key != r.key) }, .ok (e.plan, e.serial))) ∨
      (∃ f, r.compile = .error f ∧ c.compile r.pattern r.inputs r.opts = (c, .error f)) ∨
      ∃ p, r.compile = .ok p ∧ c.compile r.pattern r.inputs r.opts =
        ({ c with entries := (⟨r.key, p, c.nextSerial⟩ :: c.entries).take c.capacity,
                  nextSerial := c.nextSerial + 1 }, .ok (p, c.nextSerial)) := by
  unfold Cache.compile
  cases found : c.entries.find? (·.key == r.key) with
  | some e =>
    have sameKey : e.key = r.key := by simpa using List.find?_some found
    have found' : c.entries.find? (·.key == key r.pattern r.inputs r.opts) = some e := found
    exact .inl ⟨e, List.mem_of_find?_eq_some found, sameKey, by simp [Request.key, found']⟩
  | none =>
    cases compiled : r.compile with
    | error f =>
      refine .inr (.inl ⟨f, rfl, ?_⟩)
      simp only [Request.key] at found
      simp only [Request.compile] at compiled
      simp [found, compiled]
    | ok p =>
      refine .inr (.inr ⟨p, rfl, ?_⟩)
      simp only [Request.key] at found ⊢
      simp only [Request.compile] at compiled
      simp [found, compiled]

theorem faithful_empty (capacity next : Nat) (seen : List Request) :
    Faithful seen ⟨capacity, [], next⟩ := by
  simp [Faithful]

theorem Faithful.mono {seen more : List Request} {c : Cache} (h : c.Faithful seen)
    (sub : ∀ r ∈ seen, r ∈ more) : c.Faithful more := by
  intro e mem
  obtain ⟨r, seenR, key, compiled⟩ := h e mem
  exact ⟨r, sub r seenR, key, compiled⟩

/-- One request keeps the cache faithful to the requests sent so far: a hit only reorders the
entries, a failed compile stores nothing, and a stored plan is the one the request compiles to. -/
theorem Faithful.compile {seen : List Request} {c : Cache} (h : c.Faithful seen) (r : Request) :
    (c.compile r.pattern r.inputs r.opts).1.Faithful (seen ++ [r]) := by
  have old := h.mono fun r' mem => List.mem_append_left [r] mem
  rcases compile_cases c r with ⟨e, mem, -, hit⟩ | ⟨f, -, failed⟩ | ⟨p, compiled, stored⟩
  · rw [hit]
    intro e' mem'
    rcases List.mem_cons.1 mem' with rfl | mem'
    · exact old e' mem
    · exact old e' (List.mem_filter.1 mem').1
  · rw [failed]
    exact old
  · rw [stored]
    intro e' mem'
    rcases List.mem_cons.1 (List.mem_of_mem_take mem') with rfl | mem'
    · exact ⟨r, List.mem_append_right seen List.mem_cons_self, rfl, compiled⟩
    · exact old e' mem'

theorem Faithful.answer {seen : List Request} {c : Cache} (h : c.Faithful seen) (r : Request)
    (keyed : ∀ r' ∈ seen, r'.key = r.key → r'.compile = r.compile) :
    (c.compile r.pattern r.inputs r.opts).2.map Prod.fst = r.compile := by
  rcases compile_cases c r with ⟨e, mem, sameKey, hit⟩ | ⟨f, failed, answer⟩ | ⟨p, compiled, stored⟩
  · obtain ⟨r', seenR', key', compiled'⟩ := h e mem
    rw [hit, ← keyed r' seenR' (key'.trans sameKey), compiled']
    rfl
  · rw [answer, failed]
    rfl
  · rw [stored, compiled]
    rfl

/-- The cache answers every request of a sequence exactly as compiling it does, when it holds only
plans compiled for earlier requests and all requests with one key compile alike; and it then holds
only plans compiled for requests it was sent. -/
theorem compileAll_answers : ∀ (rs seen : List Request) (c : Cache), c.Faithful seen →
    (∀ r ∈ seen ++ rs, ∀ r' ∈ seen ++ rs, r.key = r'.key → r.compile = r'.compile) →
    (c.compileAll rs).2.map (·.map Prod.fst) = rs.map Request.compile ∧
      (c.compileAll rs).1.Faithful (seen ++ rs)
  | [], seen, c, h, _ => by simpa [compileAll] using h
  | r :: rs, seen, c, h, keyed => by
    have earlier : ∀ r' ∈ seen, r'.key = r.key → r'.compile = r.compile := fun r' mem same =>
      keyed r' (List.mem_append_left _ mem) r (by simp) same
    have later : ∀ r₁ ∈ (seen ++ [r]) ++ rs, ∀ r₂ ∈ (seen ++ [r]) ++ rs,
        r₁.key = r₂.key → r₁.compile = r₂.compile := by
      simpa only [List.append_assoc, List.singleton_append] using keyed
    obtain ⟨answers, faithful⟩ := compileAll_answers rs (seen ++ [r]) _ (h.compile r) later
    refine ⟨?_, by simpa [compileAll] using faithful⟩
    simp only [compileAll, List.map_cons]
    rw [h.answer r earlier, answers]

/-- A fresh cache of one plan sent one request three times answers each time as compiling it
does. -/
theorem compileAll_answers_repeated :
    let r : Request := ⟨"b (h w) -> b w h", [⟨.float32, [2, 6]⟩], ⟨"", [("h", 2)]⟩⟩
    Faithful [] ⟨1, [], 0⟩ ∧
      (∀ r₁ ∈ [] ++ [r, r, r], ∀ r₂ ∈ [] ++ [r, r, r], r₁.key = r₂.key → r₁.compile = r₂.compile) ∧
      ((⟨1, [], 0⟩ : Cache).compileAll [r, r, r]).2.map (·.map Prod.fst) = [r, r, r].map Request.compile := by
  intro r
  have keyed : ∀ r₁ ∈ [] ++ [r, r, r], ∀ r₂ ∈ [] ++ [r, r, r], r₁.key = r₂.key → r₁.compile = r₂.compile := by
    simp
  exact ⟨faithful_empty 1 0 [], keyed,
    (compileAll_answers [r, r, r] [] ⟨1, [], 0⟩ (faithful_empty 1 0 []) keyed).1⟩

/-- Two requests the cache files under one key: the second pattern ends with `|` and the text of
the first request's first shape. The second request does not compile, yet the cache answers it
with the plan of the first. -/
theorem compileAll_key_collision :
    let first : Request := ⟨"a, b -> a b", [⟨.float32, [2]⟩, ⟨.float32, [3]⟩], {}⟩
    let second : Request := ⟨"a, b -> a b|(Float32)[2]", [⟨.float32, [3]⟩], {}⟩
    first.key = second.key ∧ second.compile.toBool = false ∧
      (((⟨4, [], 0⟩ : Cache).compileAll [first, second]).2.map (·.map Prod.fst)) ≠
        [first, second].map Request.compile := by
  intro first second
  have answered : (((⟨4, [], 0⟩ : Cache).compileAll [first, second]).2.map
      fun out => (out.map Prod.fst).toBool) = [true, true] := by
    decide +kernel
  have fails : second.compile.toBool = false := by decide +kernel
  refine ⟨by decide +kernel, fails, fun same => ?_⟩
  have bools := congrArg (List.map Except.toBool) same
  rw [List.map_map, show (Except.toBool ∘ fun out => out.map Prod.fst) =
    fun out : Except Failure (Plan × Nat) => (out.map Prod.fst).toBool from rfl, answered] at bools
  simp [fails] at bools

end Cache

end Rearrange.Plan
