import Rearrange.Proofs.ValueReplay
/-!
# What a compiled plan computes

A pattern means a function of coordinates of its labels (`Expression.meaning`). Each input's axes
hold runs of the labels of its decomposition: a group's members form one run, every other axis is
a run of one label (`Decomposition.axisRuns`). The input is read at the position the coordinates
give along its runs. The inputs' values are combined as a join combines them: one input's value as
it is, several multiplied from `1`, rounded to the element type after each factor
(`joinedValue`). The function is then reduced along each reduced axis with its operation, the
first written outermost (`reduceAxes`). A position of the output gives the labels of the output's
runs their coordinates, a group's coordinate taken apart row-major over its members
(`coordinatesOf` over `PatternSyntax.outputRuns`).

The main statement is `apply_computes_meaning`. A compiled plan runs on sound arrays of the shapes
it was compiled for, as long as each array a step makes fits one block of the backend. It returns
an array of the output's shape whose value at each position is the pattern's meaning at the
coordinates the position gives. The split and the join leave one array denoting the combined
values over the joined labels (`runSteps_joined`). The steps after the join keep the array
following the plan's trace on labels (`runSteps_follows`). That trace ends on the output's runs,
with the reduced axes recorded from the last written to the first (`compile_traced`).

Without the block bound a run can fail: a repeat may ask for more values than a block holds
(`repeat_past_block`).
-/
namespace Rearrange

namespace Pattern

/-- The axes of an input as runs of its labels, each label with its size: a group's members form
one run, every other axis is a run of one label. -/
def Decomposition.axisRuns (d : Decomposition) (w : Nat) (σ : Plan.Label → Int) :
    List (List (Plan.Label × Int)) :=
  Plan.cutRuns w (d.dims.map d.dimShape) ((d.labels w).map fun l => (l, σ l))

end Pattern

namespace Plan

open Pattern

/-- The value of joined inputs: the one input's value as it is, or the values of several
multiplied from `1`, rounded to the element type after each factor. -/
def joinedValue (dt : DType) : List Float → Float
  | [v] => v
  | vs => vs.foldl (fun acc v => dt.normalize (acc * v)) 1

/-- A function reduced along each of the reduced axes, each with its operation, the first written
outermost. -/
def reduceAxes (dt : DType) (σ : Label → Int) :
    List ReducedAxis → ((Label → Nat) → Float) → (Label → Nat) → Float
  | [], M => M
  | r :: rs, M => reduceOver dt [(.axis r.name, σ (.axis r.name))] r.op (reduceAxes dt σ rs M)

end Plan

namespace Pattern

/-- What a pattern means on the arrays `xs`, as a function of coordinates of its labels: each
input read at the position of its runs, the values joined, then reduced along the reduced axes. -/
def Expression.meaning (e : Expression) (dt : DType) (w : Nat) (σ : Plan.Label → Int) (xs : List Tensor) :
    (Plan.Label → Nat) → Float :=
  Plan.reduceAxes dt σ e.reductions fun ρ =>
    Plan.joinedValue dt (List.zipWith (fun x d => x.entry (Plan.position (d.axisRuns w σ) ρ)) xs e.inputs)

/-- The output's axes as runs of its labels: the members of a group form one run, every other
axis is a run of one label. -/
def PatternSyntax.outputRuns (p : PatternSyntax) (sizes : List (String × Int)) (e : Expression) (w : Nat)
    (σ : Plan.Label → Int) : List (List (Plan.Label × Int)) :=
  Plan.cutRuns w (p.output.map OutputTerm.shape)
    ((Plan.outputLabels w (p.outputMembers.map (OutputMember.item sizes e.names)) 0).map fun l => (l, σ l))

end Pattern

namespace Plan

open Pattern

@[simp] theorem joinedValue_singleton (dt : DType) (v : Float) : joinedValue dt [v] = v := rfl

theorem joinedValue_of_two_le {dt : DType} {vs : List Float} (two : 2 ≤ vs.length) :
    joinedValue dt vs = vs.foldl (fun acc v => dt.normalize (acc * v)) 1 := by
  rcases vs with _ | ⟨a, _ | ⟨b, rest⟩⟩
  · simp at two
  · simp at two
  · rfl

theorem reduceLog_reductions (dt : DType) (σ : Label → Int) (M : (Label → Nat) → Float) :
    ∀ rs : List ReducedAxis,
      reduceLog dt (rs.reverse.map fun r => ([(.axis r.name, σ (.axis r.name))], r.op)) M = reduceAxes dt σ rs M
  | [] => rfl
  | r :: rs => by
    have inner := reduceLog_reductions dt σ M rs
    unfold reduceLog at inner ⊢
    rw [List.reverse_cons, List.map_append, List.foldl_append, inner]
    rfl

section Runs

variable {α : Type} (w : Nat)

theorem flatten_cutRuns : ∀ (gs : List (Bool × List Bool)) (L : List α),
    (cutRuns w gs L).flatten = L.take (runsLength w gs)
  | [], L => by simp [cutRuns, runsLength]
  | (group, members) :: gs, L => by
    have length : runsLength w ((group, members) :: gs) = (members.map (spanOf w)).sum + runsLength w gs := by
      simp [runsLength]
    rw [length, List.take_add, ← flatten_cutRuns gs]
    cases group <;> simp only [cutRuns, Bool.false_eq_true, if_false, if_true, List.flatten_append, List.flatten_cons,
      List.flatten_nil, List.append_nil, ← List.flatMap_def, List.flatMap_singleton']

theorem map_runSize_cutRuns : ∀ (gs : List (Bool × List Bool)) (L : List (Label × Int)),
    (cutRuns w gs L).map runSize = mergeRuns w gs (L.map Prod.snd)
  | [], L => rfl
  | (group, members) :: gs, L => by
    cases group <;> simp [cutRuns, mergeRuns, map_runSize_cutRuns gs, runSize, ← List.map_take, ← List.map_drop,
      Function.comp_def]

end Runs

theorem map_fst_flatten_cells (σ : Label → Int) (L : List Label) : (cells σ L).flatten.map Prod.fst = L := by
  simp [cells, ← List.flatMap_def, List.map_flatMap]

theorem cells_joinedLabels (e : Expression) (w : Nat) (σ : Label → Int) :
    cells σ (e.joinedLabels w) =
      e.inputs.zipIdx.flatMap fun q => ((q.1.labels w).map fun l => (l, σ l)).map ([·]) := by
  rw [cells, Expression.joinedLabels_eq, List.map_flatMap]
  conv => lhs; rw [← List.zipIdx_map_fst 0 e.inputs]
  rw [List.flatMap_map]
  simp [Function.comp_def]

theorem map_zipIdx_eq_zipWith {β γ δ : Type} [Inhabited β] (f : β → γ → δ) {xs : List β} {ds : List γ}
    (len : xs.length = ds.length) : (ds.zipIdx.map fun q => f (xs.getD q.2 default) q.1) = List.zipWith f xs ds := by
  apply List.ext_getElem
  · simp [len]
  · intro i inMap inZip
    have lt : i < xs.length := by simpa [len] using inMap
    simp [List.getElem?_eq_getElem lt]

theorem dims_of_held {xs : List Tensor} {inputs : List Shape} (held : List.Forall₂ Tensor.Holds xs inputs) :
    ∀ s ∈ inputs, (∀ y ∈ s.dims, 0 < y) ∧ ∀ y ∈ s.dims, y ≤ Word.maxInt64 := by
  intro s mem
  obtain ⟨x, xMem, rfl⟩ := List.mem_map.1 (Tensor.shapes_of_held held ▸ mem)
  have sound := Tensor.sound_of_held held x xMem
  exact ⟨sound.pos, sound.dim_le⟩

theorem runSteps_join {pattern : String} {i : Nat} {st : Step} (kind : st.kind = .join) {xs zs : List Tensor}
    (ran : runSteps Tensor.backend pattern i [st] xs = .ok zs) : ∃ y, Tensor.join xs = .ok y ∧ zs = [y] := by
  cases joined : Tensor.join xs with
  | error f => simp [runSteps, applyStep, kind, Tensor.backend, joined, bind, Except.bind] at ran
  | ok y =>
    simp [runSteps, applyStep, kind, Tensor.backend, joined, bind, Except.bind, pure, Except.pure] at ran
    exact ⟨y, rfl, ran.symm⟩

section Inputs

variable {e : Expression} (hold : e.InputsHold) {inputs : List Shape} {dtype : DType} {a₁ : Assembly}
  (splits : Assembly.SplitsAll { pattern := e.pattern, dtype } a₁ e.inputs.zipIdx fun i => inputs.getD i Shape.invalid)
  (σ : Label → Int) (named : ∀ x ∈ (allAxes e.inputs).map (·.name), σ (.axis x) = a₁.sizeOf x)
  (ellipsis : ∀ j, σ (.ellipsis j) = a₁.ellipsisDims.getD j 0)
  (fits : ∀ q ∈ e.inputs.zipIdx, q.1.Fits (inputs.getD q.2 Shape.invalid))

include hold splits named ellipsis fits

/-- Split, an input that fits its shape has the runs of its labels as axes: the runs hold its
labels in order, one per axis when it has no group, and their sizes, all positive, multiply to its
dimensions. -/
theorem axisRuns_of_split (dims : ∀ s ∈ inputs, (∀ y ∈ s.dims, 0 < y) ∧ ∀ y ∈ s.dims, y ≤ Word.maxInt64)
    {q : Decomposition × Nat} (mem : q ∈ e.inputs.zipIdx) :
    (q.1.axisRuns a₁.ellipsisDims.length σ).flatten = (q.1.labels a₁.ellipsisDims.length).map (fun l => (l, σ l)) ∧
      (q.1.hasGroups = false → q.1.axisRuns a₁.ellipsisDims.length σ =
        ((q.1.labels a₁.ellipsisDims.length).map fun l => (l, σ l)).map ([·])) ∧
      (inputs.getD q.2 Shape.invalid).dims = (q.1.axisRuns a₁.ellipsisDims.length σ).map runSize ∧
      ∀ r ∈ (q.1.axisRuns a₁.ellipsisDims.length σ).flatten, 0 < r.2 := by
  obtain ⟨holds, -, -, one⟩ := hold.input (List.fst_mem_of_mem_zipIdx mem)
  have width := length_ellipsisDims_of_mem hold splits mem
  have laid := layout_sized hold splits σ named ellipsis mem
  have flat : (q.1.axisRuns a₁.ellipsisDims.length σ).flatten = q.1.layout (inputs.getD q.2 Shape.invalid) := by
    rw [Decomposition.axisRuns, ← laid, flatten_cutRuns, ← length_layout holds (fits q mem) one width,
      List.length_map, List.take_length]
  refine ⟨flat.trans laid, fun none => ?_, ?_, fun r inRuns => ?_⟩
  · rw [Decomposition.axisRuns, ← laid, cutRuns_layout_noGroups holds one width (splits.ranks q mem) none]
  · rw [Decomposition.axisRuns, ← laid, map_runSize_cutRuns,
      mergeRuns_layout holds (fits q mem) one width (dims_getD (fun s mem => (dims s mem).2) q.2)]
  · rw [flat] at inRuns
    exact layout_pos holds (fits q mem) one (dims_getD (fun s mem => (dims s mem).1) q.2) r.2
      (List.mem_map_of_mem inRuns)

/-- Sound arrays of the inputs' shapes denote their entries over the runs of the inputs' labels. -/
theorem inputs_denote (count : inputs.length = e.inputs.length) {xs : List Tensor}
    (held : List.Forall₂ Tensor.Holds xs inputs) :
    List.Forall₂ (fun x q => Denotes x (q.1.axisRuns a₁.ellipsisDims.length σ) fun ρ =>
      (xs.getD q.2 default).entry (position (q.1.axisRuns a₁.ellipsisDims.length σ) ρ)) xs e.inputs.zipIdx := by
  refine List.forall₂_iff_get.2 ⟨by simp [held.length_eq, count], fun i inXs inZip => ?_⟩
  have inInputs : i < inputs.length := by rw [count]; simpa using inZip
  have inDecompositions : i < e.inputs.length := by simpa using inZip
  have mem : (e.inputs[i], i) ∈ e.inputs.zipIdx := by
    simpa using List.getElem_mem inZip
  obtain ⟨sound, shape⟩ := (List.forall₂_iff_get.1 held).2 i inXs inInputs
  obtain ⟨-, -, runDims, pos⟩ := axisRuns_of_split hold splits σ named ellipsis fits (dims_of_held held) mem
  simp only [List.get_eq_getElem, List.getElem_zipIdx, Nat.zero_add] at sound shape ⊢
  rw [List.getD_eq_getElem _ _ inInputs, ← shape] at runDims
  simpa [List.getElem?_eq_getElem inXs] using denotes_entry sound runDims pos

/-- The split steps and the join, run from sound arrays of the inputs' shapes, leave one array. It
denotes the inputs' values, each read at the position of its runs, joined, over the joined labels
one per axis. -/
theorem runSteps_joined (pattern : String) (count : inputs.length = e.inputs.length) (nonempty : e.inputs ≠ [])
    {a₂ : Assembly}
    (joined : (if inputs.length > 1 then a₁.emit { kind := .join } else .ok a₁) = .ok a₂)
    {xs zs : List Tensor} (held : List.Forall₂ Tensor.Holds xs inputs) (valid : ∀ s ∈ inputs, s.ok = true)
    (ran : runSteps Tensor.backend pattern 0 a₂.steps xs = .ok zs) (zsSound : ∀ z ∈ zs, z.Sound) :
    ∃ x, zs = [x] ∧ Denotes x (cells σ (e.joinedLabels a₁.ellipsisDims.length)) fun ρ =>
      joinedValue x.shape.dtype
        (List.zipWith (fun x d => x.entry (position (d.axisRuns a₁.ellipsisDims.length σ) ρ)) xs e.inputs) := by
  set w := a₁.ellipsisDims.length
  let lay : Decomposition × Nat → List (Label × Int) := fun q => (q.1.labels w).map fun l => (l, σ l)
  let value : Decomposition × Nat → (Label → Nat) → Float := fun q ρ =>
    (xs.getD q.2 default).entry (position (q.1.axisRuns w σ) ρ)
  have runs := fun q (mem : q ∈ e.inputs.zipIdx) =>
    axisRuns_of_split hold splits σ named ellipsis fits (dims_of_held held) mem
  have splitSteps : a₁.steps = e.inputs.zipIdx.flatMap fun q =>
      if q.1.hasGroups then [Assembly.splitStep q.2 (inputs.getD q.2 Shape.invalid) ((lay q).map Prod.snd)] else [] := by
    rw [splits.steps]
    exact List.flatMap_congr fun q mem => by rw [layout_sized hold splits σ named ellipsis mem]
  obtain ⟨zs₁, ran₁, denZs⟩ := runSteps_splits (fun i => inputs.getD i Shape.invalid) lay (fun q => q.1.axisRuns w σ)
    value pattern e.inputs 0 [] xs (fun q mem => (runs q (by simpa using mem)).1)
    (fun q mem => (runs q (by simpa using mem)).2.1)
    (by simpa only [List.length_nil] using inputs_denote hold splits σ named ellipsis fits count held)
    (fun x mem => valid x.shape (by rw [← Tensor.shapes_of_held held]; exact List.mem_map_of_mem mem))
  simp only [List.length_nil, List.nil_append, ← splitSteps] at ran₁ denZs
  let parts := e.inputs.zipIdx.map fun q => ((lay q).map ([·]), value q)
  have partsDen : List.Forall₂ (fun z p => Denotes z p.1 p.2) zs₁ parts := List.forall₂_map_right_iff.2 denZs
  have labels : parts.flatMap (·.1) = cells σ (e.joinedLabels w) := by
    rw [List.flatMap_map, cells_joinedLabels]
  have values : ∀ ρ, parts.map (·.2 ρ) =
      List.zipWith (fun x d => x.entry (position (d.axisRuns w σ) ρ)) xs e.inputs := fun ρ => by
    rw [List.map_map]
    exact map_zipIdx_eq_zipWith (fun (x : Tensor) (d : Decomposition) => x.entry (position (d.axisRuns w σ) ρ))
      (by rw [held.length_eq, count])
  suffices joinedParts : ∃ x, zs = [x] ∧
      Denotes x (parts.flatMap (·.1)) fun ρ => joinedValue x.shape.dtype (parts.map (·.2 ρ)) by
    obtain ⟨x, rfl, joinedDen⟩ := joinedParts
    rw [labels] at joinedDen
    exact ⟨x, rfl, by simpa only [values] using joinedDen⟩
  by_cases several : inputs.length > 1
  · rw [if_pos several] at joined
    obtain rfl := emit_ok a₁ joined
    rw [runSteps_append, ran₁] at ran
    obtain ⟨y, done, rfl⟩ := runSteps_join rfl ran
    have two : ∀ ρ, 2 ≤ (parts.map (·.2 ρ)).length := fun ρ => by
      simp only [parts, List.length_map, List.length_zipIdx]
      omega
    have folded : (fun ρ => joinedValue y.shape.dtype (parts.map (·.2 ρ))) =
        fun ρ => (parts.map (·.2 ρ)).foldl (fun acc v => y.shape.dtype.normalize (acc * v)) 1 :=
      funext fun ρ => joinedValue_of_two_le (two ρ)
    refine ⟨y, rfl, ?_⟩
    rw [folded]
    exact denotes_join partsDen done (zsSound y List.mem_cons_self)
  · rw [if_neg several] at joined
    cases joined
    rw [ran₁] at ran
    obtain rfl := Except.ok.inj ran
    obtain ⟨p, single⟩ : ∃ p, parts = [p] := by
      have lengthOne : parts.length = 1 := by
        simp only [parts, List.length_map, List.length_zipIdx]
        have := List.length_pos_of_ne_nil nonempty
        omega
      exact List.length_eq_one_iff.1 lengthOne
    rw [single] at partsDen ⊢
    obtain ⟨z, rfl⟩ : ∃ z, zs₁ = [z] := by
      cases partsDen with
      | cons _ rest =>
        cases rest
        exact ⟨_, rfl⟩
    refine ⟨z, rfl, ?_⟩
    simpa using (List.forall₂_cons.1 partsDen).1

end Inputs

/-- An array denoting `M` over the joined labels, one per axis, follows the trace that starts
there. -/
theorem follows_joined {e : Expression} (hold : e.InputsHold) {w : Nat} {σ : Label → Int} {x : Tensor}
    {M : (Label → Nat) → Float} (den : Denotes x (cells σ (e.joinedLabels w)) M) :
    Follows x.shape.dtype M x { arrays := [cells σ (e.joinedLabels w)] } := by
  have labels : (cells σ (e.joinedLabels w)).flatten.map Prod.fst = e.joinedLabels w := map_fst_flatten_cells σ _
  refine ⟨den, ?_, fun k mem => ?_, rfl⟩
  · show ((cells σ (e.joinedLabels w)).flatten.map Prod.fst).Nodup
    rw [labels]
    exact Label.flatMap_ofName_nodup w hold.names
  · -- the joined labels are the inputs' names and the axes of the ellipsis: none is fresh
    change Label.fresh k ∈ (cells σ (e.joinedLabels w)).flatten.map Prod.fst at mem
    rw [labels] at mem
    obtain ⟨name, -, lMem⟩ := List.mem_flatMap.1 mem
    rcases Label.mem_ofName.1 lMem with ⟨-, i, -, never⟩ | ⟨-, never⟩ <;> cases never

/-- A compiled plan computes what its pattern means. Run on sound arrays of the shapes it was
compiled for, it returns an array of the output's shape. Its value at each position is the
pattern's meaning at the coordinates the position gives the output's labels: each input read at
the position of its own labels, the values joined, then reduced along the reduced axes, each label
with the size the plan records for it. Two conditions are needed: each array a step makes fits one
block of the backend, and the names, the new axes and the axes of the ellipsis are fewer than a
signed word counts. -/
theorem apply_computes_meaning {text : String} {xs : List Tensor} {opts : CompileOptions} {plan : Plan}
    {e : Expression} (sound : ∀ x ∈ xs, x.Sound) (parsed : Expression.parse text xs.length opts.axisSizes = .ok e)
    (compiled : compile text (xs.map (·.shape)) opts = .ok plan)
    (wide : ((allAxes e.inputs).length + e.newAxes.length + plan.ellipsisDims.length : Int) ≤ Word.maxInt64)
    (small : ∀ s ∈ plan.steps, (Tensor.positionCount s.output.dims : Int) ≤ Tensor.blockLimit) :
    ∃ y, plan.apply Tensor.backend xs = .ok y ∧ y.shape = plan.output ∧
      ∃ toks, Token.scanBody text = .ok toks ∧ (∃ p : PatternSyntax, List.Forall₂ Token.Fits toks p.marks) ∧
        ∀ p : PatternSyntax, List.Forall₂ Token.Fits toks p.marks → ∀ J, IsPosition y.shape.dims J →
          y.get J = .ok (e.meaning plan.output.dtype plan.ellipsisDims.length (labelSize plan e.newAxes) xs
            (coordinatesOf (p.outputRuns opts.axisSizes e plan.ellipsisDims.length (labelSize plan e.newAxes)) J)) := by
  have parsedShapes : Expression.parse text (xs.map (·.shape)).length opts.axisSizes = .ok e := by
    rwa [List.length_map]
  obtain ⟨dtype, a₁, a₂, steps, loop, joined, planSteps, planInputs, planEll, named, ellipsis, oneArray, toks, scan,
    someTree, traced⟩ := compile_traced parsedShapes compiled wide
  have checked := compile_checked compiled
  have hold := Expression.inputsHold_of_parse parsed
  obtain ⟨count, nonempty⟩ := Expression.inputs_of_parse parsedShapes
  have splits := splitsAll_of_loop hold loop
  set σ := labelSize plan e.newAxes
  have held : List.Forall₂ Tensor.Holds xs plan.inputs := by
    rw [planInputs]
    exact List.forall₂_map_right_iff.2 (List.forall₂_same.2 fun x mem => ⟨sound x mem, rfl⟩)
  have dims := dims_of_held (planInputs ▸ held)
  have fits := (splitAll_yields hold (fun s mem => (dims s mem).1) (fun s mem => (dims s mem).2) _).ok_iff.1
    ⟨a₁, loop⟩
  have replays := (replays_append plan.inputs a₂.steps steps).1 (planSteps ▸ checked.replays)
  have before : ∀ s ∈ a₂.steps, s ∈ plan.steps := fun s mem => planSteps ▸ List.mem_append_left _ mem
  have after : ∀ s ∈ steps, s ∈ plan.steps := fun s mem => planSteps ▸ List.mem_append_right _ mem
  obtain ⟨zs, ran₁, heldZ⟩ := runSteps_recorded plan.pattern a₂.steps 0 xs plan.inputs held checked.inputs_ne_nil
    (fun s mem => checked.inputs_ok s mem) replays.1 (fun s mem => checked.compiled s (before s mem))
    (fun s mem => small s (before s mem))
  obtain ⟨x, rfl, den⟩ := runSteps_joined hold splits σ named ellipsis fits plan.pattern (by simpa using count.symm)
    nonempty joined (planInputs ▸ held) (fun s mem => checked.inputs_ok s (planInputs ▸ mem)) ran₁
    (Tensor.sound_of_held heldZ)
  obtain ⟨current, heldX, recorded⟩ : ∃ c, x.Holds c ∧ recordedAfter plan.inputs a₂.steps = [c] := by
    obtain ⟨c, rest, heldX, none, same⟩ := List.forall₂_cons_left_iff.1 heldZ
    exact ⟨c, heldX, by rw [same, List.forall₂_nil_left_iff.1 none]⟩
  have currentValid : current.ok = true :=
    recordedAfter_valid a₂.steps plan.inputs checked.inputs_ne_nil (fun s mem => checked.inputs_ok s mem) replays.1
      current (by simp [recorded])
  -- the steps after the join follow the trace on labels from the joined labels
  rw [planEll] at traced ⊢
  obtain ⟨y, ran₂, shapes, followsY⟩ := runSteps_follows (fun _ => []) plan.pattern steps a₂.steps.length x current
    _ (fun s mem => ⟨oneArray s mem, checked.compiled s (after s mem), small s (after s mem)⟩)
    (recorded ▸ replays.2) currentValid heldX (follows_joined hold den)
  have ran : runSteps Tensor.backend plan.pattern 0 plan.steps xs = .ok [y] := by
    rw [planSteps, runSteps_append, ran₁, Nat.zero_add]
    exact ran₂
  have output : y.shape = plan.output := by
    have ends := checked.ends
    rw [planSteps, recordedAfter_append, recorded, shapes] at ends
    exact List.singleton_inj.1 ends
  refine ⟨y, apply_of_runSteps (Tensor.shapes_of_held held) ran output, output, toks, scan, someTree,
    fun p fits J isPos => ?_⟩
  rw [traced p fits (fun _ => []) _ rfl rfl] at followsY
  obtain ⟨denY, nodupY, -, typedY⟩ := followsY
  simp only [List.headD_cons, List.nil_append, reduceLog_reductions] at denY nodupY
  change Denotes y (p.outputRuns opts.axisSizes e a₁.ellipsisDims.length σ) _ at denY
  change ((p.outputRuns opts.axisSizes e a₁.ellipsisDims.length σ).flatten.map Prod.fst).Nodup at nodupY
  have typed : x.shape.dtype = plan.output.dtype := by rw [← output, typedY]
  rw [denY.get_eq nodupY isPos, typed]
  rfl

/-- Two inputs, one reduced along its second axis, joined and merged. -/
theorem apply_computes_meaning_products :
    let xs : List Tensor := [⟨⟨.float32, [2, 3]⟩, #[0, 1, 2, 3, 4, 5], 0⟩, ⟨⟨.float32, [2]⟩, #[1, 2], 0⟩]
    ∃ e plan, (∀ x ∈ xs, x.Sound) ∧ Expression.parse "a sum(b), c -> (a c)" xs.length [] = .ok e ∧
      compile "a sum(b), c -> (a c)" (xs.map (·.shape)) {} = .ok plan ∧
      ((allAxes e.inputs).length + e.newAxes.length + plan.ellipsisDims.length : Int) ≤ Word.maxInt64 ∧
      (∀ s ∈ plan.steps, (Tensor.positionCount s.output.dims : Int) ≤ Tensor.blockLimit) ∧
      ∃ y, plan.apply Tensor.backend xs = .ok y ∧ y.shape = plan.output ∧
        ∃ toks, Token.scanBody "a sum(b), c -> (a c)" = .ok toks ∧
          (∃ p : PatternSyntax, List.Forall₂ Token.Fits toks p.marks) ∧
          ∀ p : PatternSyntax, List.Forall₂ Token.Fits toks p.marks → ∀ J, IsPosition y.shape.dims J →
            y.get J = .ok (e.meaning plan.output.dtype plan.ellipsisDims.length (labelSize plan e.newAxes) xs
              (coordinatesOf (p.outputRuns [] e plan.ellipsisDims.length (labelSize plan e.newAxes)) J)) := by
  intro xs
  have sound : ∀ x ∈ xs, x.Sound := by
    simp only [xs, List.mem_cons, List.mem_nil_iff, or_false, forall_eq_or_imp, forall_eq]
    exact ⟨⟨by decide, by decide, by simp [Word.maxInt64]⟩, ⟨by decide, by decide, by simp [Word.maxInt64]⟩⟩
  have counts : ((Expression.parse "a sum(b), c -> (a c)" xs.length []).toOption.map fun e =>
      (allAxes e.inputs).length + e.newAxes.length) = some 3 := by
    decide +kernel
  have compiles : ((compile "a sum(b), c -> (a c)" (xs.map (·.shape)) {}).toOption.map fun plan =>
      (plan.ellipsisDims.length, plan.steps.all fun s =>
        decide ((Tensor.positionCount s.output.dims : Int) ≤ Tensor.blockLimit))) = some (0, true) := by
    decide +kernel
  cases parsed : Expression.parse "a sum(b), c -> (a c)" xs.length [] with
  | error f =>
    rw [parsed] at counts
    cases counts
  | ok e =>
  cases compiled : compile "a sum(b), c -> (a c)" (xs.map (·.shape)) {} with
  | error f =>
    rw [compiled] at compiles
    cases compiles
  | ok plan =>
  rw [parsed] at counts
  rw [compiled] at compiles
  simp only [Except.toOption, Option.map_some, Option.some.injEq, Prod.mk.injEq, List.all_eq_true,
    decide_eq_true_eq] at counts compiles
  obtain ⟨width, small⟩ := compiles
  have wide : ((allAxes e.inputs).length + e.newAxes.length + plan.ellipsisDims.length : Int) ≤ Word.maxInt64 := by
    unfold Word.maxInt64
    omega
  have main := apply_computes_meaning sound parsed compiled wide small
  exact ⟨e, plan, sound, rfl, rfl, wide, small, main⟩

/-- Without the block bound the run can fail: `a -> a 100000000000000` compiles for one value,
but its repeat asks for `10^14` values, more than one block holds. -/
theorem repeat_past_block :
    let x : Tensor := ⟨⟨.float32, [1]⟩, #[0], 0⟩
    x.Sound ∧ ∃ plan, compile "a -> a 100000000000000" [x.shape] {} = .ok plan ∧
      (∃ s ∈ plan.steps, Tensor.blockLimit < (Tensor.positionCount s.output.dims : Int)) ∧
      ∃ f, plan.apply Tensor.backend [x] = .error f := by
  intro x
  have runs : ((compile "a -> a 100000000000000" [x.shape] {}).toOption.map fun plan =>
      (plan.steps.any fun s => decide (Tensor.blockLimit < (Tensor.positionCount s.output.dims : Int)),
        (plan.apply Tensor.backend [x]).toBool)) = some (true, false) := by
    decide +kernel
  refine ⟨⟨by decide, by decide, by simp [x, Word.maxInt64]⟩, ?_⟩
  cases compiled : compile "a -> a 100000000000000" [x.shape] {} with
  | error f =>
    rw [compiled] at runs
    cases runs
  | ok plan =>
  rw [compiled] at runs
  simp only [Except.toOption, Option.map_some, Option.some.injEq, Prod.mk.injEq, List.any_eq_true,
    decide_eq_true_eq] at runs
  obtain ⟨large, failed⟩ := runs
  refine ⟨plan, rfl, large, ?_⟩
  cases applied : plan.apply Tensor.backend [x] with
  | error f => exact ⟨f, rfl⟩
  | ok y =>
    rw [applied] at failed
    cases failed

end Plan

end Rearrange
