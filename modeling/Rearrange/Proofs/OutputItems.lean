import Rearrange.Proofs.Decompositions
import Rearrange.Proofs.OutputAccepted
/-!
# The output side as items

Each member of the output side stands for an item of the output (`OutputMember.item`): an axis
kept from the inputs, the ellipsis among them under the name `..`; an integer; or a new named
axis with its size.

Reading the output side numbers the members with one counter and collects, in order, the table
positions of the kept items (the permutation) and the new axes with their output positions
(`readOutput_items`). `PatternSyntax.outputHolds` puts it together for a read tree
(`Expression.OutputHolds`): the slots list the members' positions in order, and the kept items
are the table's names, each once.
-/
namespace Rearrange.Pattern

/-- What a member of the output side stands for. -/
inductive OutputItem where
  | kept (name : String) (size : Int)
  | int (size : Int)
  | named (size : Int) (name : String)
  deriving DecidableEq, Repr

namespace OutputItem

/-- Whether the item is the ellipsis of the inputs. -/
def isEllipsis : OutputItem → Bool
  | kept x _ => decide (x = ellipsisName)
  | _ => false

/-- The name of a kept item. -/
def kept? : OutputItem → Option String
  | kept x _ => some x
  | _ => none

/-- The size written for a kept item, if one is. -/
def outputSize? : OutputItem → Option (String × Int)
  | kept x k => if 0 < k then some (x, k) else none
  | _ => none

/-- The new axis an item stands for at output position `idx`. -/
def newAxis? (idx : Index) : OutputItem → Option NewAxis
  | kept _ _ => none
  | int k => some { index := idx, size := k }
  | named k x => some { index := idx, size := k, name := x }

/-- An item as reading leaves it: a kept item is in the table, a new axis has a positive size
and, if named, a name outside the table. -/
def Valid (names : NameTable) : OutputItem → Prop
  | kept x _ => (names.lookup x).isSome
  | int k => 0 < k
  | named k x => 0 < k ∧ names.lookup x = none

end OutputItem

/-- What an output member stands for against the name table; a size that is not written or given
is 0. -/
def OutputMember.item (sizes : List (String × Int)) (names : NameTable) : OutputMember → OutputItem
  | axis x s _ =>
    let k := (readSize sizes x s).getD 0
    if (names.lookup x).isSome then .kept x k else .named k x
  | int v _ => .int v
  | ellipsis _ => .kept ellipsisName 0

/-- Whether an output member is the ellipsis. -/
def OutputMember.isEllipsis : OutputMember → Bool
  | ellipsis _ => true
  | _ => false

theorem Positions.step_snd (p : Positions) (b : Bool) :
    (p.step b).2 = ⟨p.next + 1, p.pastEllipsis || b⟩ := by
  cases b <;> simp [Positions.step, Positions.take, Positions.takeRange]

section Members

variable (sizes : List (String × Int)) (names : NameTable)

/-- Reading a member takes the counter's next position and adds the member's item: its table
position to the permutation and its written size if it is kept, the new axis if it is new. -/
theorem readMember_step {st : OutputBuild} {m : OutputMember} {res : Index × OutputBuild}
    (ok : readMember sizes names st m = some res) :
    res.1 = (st.positions.step m.isEllipsis).1 ∧ res.2.positions = (st.positions.step m.isEllipsis).2 ∧
      res.2.slots = st.slots ∧
      res.2.permutation = st.permutation ++ ((m.item sizes names).kept?.bind names.lookup).toList ∧
      res.2.newAxes = st.newAxes ++ ((m.item sizes names).newAxis? res.1).toList ∧
      res.2.outputSizes = st.outputSizes ++ (m.item sizes names).outputSize?.toList ∧
      (m.item sizes names).Valid names := by
  cases m with
  | ellipsis q =>
    simp only [readMember] at ok
    split at ok
    · cases ok
    · next leftIdx found =>
      split at ok
      · cases ok
      · cases ok
        simp [OutputMember.item, OutputMember.isEllipsis, Positions.step, OutputItem.kept?,
          OutputItem.newAxis?, OutputItem.outputSize?, OutputItem.Valid, found]
  | int v q =>
    simp only [readMember] at ok
    split at ok
    · cases ok
    · next positive =>
      cases ok
      simp [OutputMember.item, OutputMember.isEllipsis, Positions.step, OutputItem.kept?,
        OutputItem.newAxis?, OutputItem.outputSize?, OutputItem.Valid]
      omega
  | axis x s q =>
    simp only [readMember] at ok
    obtain ⟨k, sized, ok⟩ := Option.bind_eq_some_iff.1 ok
    by_cases reduced : names.isReduced x
    · simp [reduced] at ok
    · by_cases twice : x ∈ st.used
      · simp [reduced, twice] at ok
      · simp only [reduced, twice, Bool.false_eq_true, if_false, List.contains_iff_mem] at ok
        split at ok
        · next leftIdx found =>
          cases ok
          by_cases positive : 0 < k
          · simp [OutputMember.item, OutputMember.isEllipsis, Positions.step, OutputItem.kept?,
              OutputItem.newAxis?, OutputItem.outputSize?, OutputItem.Valid, found, sized, positive]
          · simp [OutputMember.item, OutputMember.isEllipsis, Positions.step, OutputItem.kept?,
              OutputItem.newAxis?, OutputItem.outputSize?, OutputItem.Valid, found, sized, positive]
        · next missing =>
          split at ok
          · cases ok
          · next sizedNew =>
            cases ok
            have nonneg : 0 ≤ k := by
              obtain ⟨given, givenPos⟩ := readSize_eq sized
              cases hg : givenSize sizes x s with
              | none => rw [hg] at given; simp at given; omega
              | some g => rw [hg] at given; have := givenPos g hg; simp at given; omega
            simp [OutputMember.item, OutputMember.isEllipsis, Positions.step, OutputItem.kept?,
              OutputItem.newAxis?, OutputItem.outputSize?, OutputItem.Valid, missing, sized]
            omega

/-- The table positions of the kept members, in order. -/
def keptPositions (ms : List OutputMember) : List Index :=
  ms.filterMap fun m => (m.item sizes names).kept?.bind names.lookup

/-- The new axes of the members, with the positions handed out from `p`. -/
def newAxesFrom (p : Positions) (ms : List OutputMember) : List NewAxis :=
  (ms.zip (p.indices (ms.map OutputMember.isEllipsis))).filterMap fun q => (q.1.item sizes names).newAxis? q.2

/-- The sizes written for the kept members, in order. -/
def sizesWritten (ms : List OutputMember) : List (String × Int) :=
  ms.filterMap fun m => (m.item sizes names).outputSize?

theorem newAxesFrom_cons (p : Positions) (m : OutputMember) (ms : List OutputMember) :
    newAxesFrom sizes names p (m :: ms) =
      ((m.item sizes names).newAxis? (p.step m.isEllipsis).1).toList ++
        newAxesFrom sizes names (p.step m.isEllipsis).2 ms := by
  simp only [newAxesFrom, List.map_cons, Positions.indices_cons, List.zip_cons_cons,
    List.filterMap_cons]
  cases (m.item sizes names).newAxis? (p.step m.isEllipsis).1 <;> rfl

theorem newAxesFrom_append (p : Positions) (ms ms' : List OutputMember) :
    newAxesFrom sizes names p (ms ++ ms') = newAxesFrom sizes names p ms ++
      newAxesFrom sizes names ⟨p.next + ms.length, p.pastEllipsis || ms.any OutputMember.isEllipsis⟩ ms' := by
  simp only [newAxesFrom, List.map_append, Positions.indices_append]
  rw [List.zip_append (by simp), List.filterMap_append]
  simp [List.any_map]

theorem filterMap_cons_toList {α β : Type} (f : α → Option β) (a : α) (l : List α) :
    (a :: l).filterMap f = (f a).toList ++ l.filterMap f := by
  cases h : f a <;> simp [h]

/-- Reading the members of a group adds their positions to the group and their items in order. -/
theorem readGroupMembers_items (q : Nat) : ∀ (ms : List OutputMember) (members : List Index)
    (st : OutputBuild) (res : Slot × OutputBuild),
    readGroupMembers sizes names q members st ms = some res →
    res.1 = .group (members ++ st.positions.indices (ms.map OutputMember.isEllipsis)) q ∧
      res.2.positions = ⟨st.positions.next + ms.length, st.positions.pastEllipsis || ms.any OutputMember.isEllipsis⟩ ∧
      res.2.slots = st.slots ∧
      res.2.permutation = st.permutation ++ keptPositions sizes names ms ∧
      res.2.newAxes = st.newAxes ++ newAxesFrom sizes names st.positions ms ∧
      res.2.outputSizes = st.outputSizes ++ sizesWritten sizes names ms ∧
      ∀ m ∈ ms, (m.item sizes names).Valid names
  | [], members, st, res, ok => by
    cases ok
    simp [Positions.indices, keptPositions, newAxesFrom, sizesWritten]
  | m :: ms, members, st, res, ok => by
    rw [readGroupMembers_cons] at ok
    obtain ⟨mid, member, ok⟩ := Option.bind_eq_some_iff.1 ok
    obtain ⟨index, counter, slots, permutation, newAxes, written, valid⟩ :=
      readMember_step sizes names member
    obtain ⟨slot, counter', slots', permutation', newAxes', written', valid'⟩ :=
      readGroupMembers_items q ms _ _ res ok
    refine ⟨?_, ?_, by rw [slots', slots], ?_, ?_, ?_, List.forall_mem_cons.2 ⟨valid, valid'⟩⟩
    · rw [slot, counter, index]
      simp [Positions.indices_cons]
    · rw [counter', counter, Positions.step_snd]
      simp only [List.length_cons, List.any_cons, Positions.mk.injEq]
      constructor
      · omega
      · cases m.isEllipsis <;> simp
    · rw [permutation', permutation]
      simp only [keptPositions, filterMap_cons_toList, List.append_assoc]
    · rw [newAxes', newAxes, counter, index, newAxesFrom_cons, List.append_assoc]
    · rw [written', written]
      simp only [sizesWritten, filterMap_cons_toList, List.append_assoc]

/-- Reading the output side numbers its members with the counter and collects their items in
order: the table positions of the kept ones, their written sizes, and the new axes with their
positions. -/
theorem readOutput_items : ∀ (ts : List OutputTerm) (st out : OutputBuild),
    readOutput sizes names st ts = some out →
    out.slots.flatMap Slot.indices = st.slots.flatMap Slot.indices ++
        st.positions.indices ((ts.flatMap OutputTerm.members).map OutputMember.isEllipsis) ∧
      out.permutation = st.permutation ++ keptPositions sizes names (ts.flatMap OutputTerm.members) ∧
      out.newAxes = st.newAxes ++ newAxesFrom sizes names st.positions (ts.flatMap OutputTerm.members) ∧
      out.outputSizes = st.outputSizes ++ sizesWritten sizes names (ts.flatMap OutputTerm.members) ∧
      ∀ m ∈ ts.flatMap OutputTerm.members, (m.item sizes names).Valid names
  | [], st, out, ok => by
    simp only [readOutput] at ok
    split at ok
    · cases ok
      simp [Positions.indices, keptPositions, newAxesFrom, sizesWritten]
    · cases ok
  | .single m :: ts, st, out, ok => by
    rw [readOutput_single] at ok
    obtain ⟨mid, member, ok⟩ := Option.bind_eq_some_iff.1 ok
    obtain ⟨index, counter, slots, permutation, newAxes, written, valid⟩ :=
      readMember_step sizes names member
    obtain ⟨slots', permutation', newAxes', written', valid'⟩ := readOutput_items ts _ out ok
    simp only [OutputTerm.members, List.flatMap_cons, List.singleton_append]
      at slots' permutation' newAxes' written' ⊢
    refine ⟨?_, ?_, ?_, ?_, List.forall_mem_cons.2 ⟨valid, valid'⟩⟩
    · rw [slots']
      simp only [counter, slots, index]
      simp [Positions.indices_cons, Slot.indices]
    · rw [permutation', permutation]
      simp only [keptPositions, filterMap_cons_toList, List.append_assoc]
    · rw [newAxes', newAxes, counter, index, newAxesFrom_cons, List.append_assoc]
    · rw [written', written]
      simp only [sizesWritten, filterMap_cons_toList, List.append_assoc]
  | .group ms q :: ts, st, out, ok => by
    rw [readOutput_group] at ok
    obtain ⟨mid, grouped, ok⟩ := Option.bind_eq_some_iff.1 ok
    obtain ⟨slot, counter, slots, permutation, newAxes, written, valid⟩ :=
      readGroupMembers_items sizes names q ms [] st mid grouped
    obtain ⟨slots', permutation', newAxes', written', valid'⟩ := readOutput_items ts _ out ok
    simp only [OutputTerm.members, List.flatMap_cons]
      at slots' permutation' newAxes' written' ⊢
    refine ⟨?_, ?_, ?_, ?_, fun m mem => ?_⟩
    · rw [slots']
      simp only [counter, slots, slot]
      rw [List.map_append, Positions.indices_append]
      simp [Slot.indices, List.any_map]
    · rw [permutation', permutation]
      simp only [keptPositions, List.filterMap_append, List.append_assoc]
    · rw [newAxes', newAxes, counter, newAxesFrom_append, List.append_assoc]
    · rw [written', written]
      simp only [sizesWritten, List.filterMap_append, List.append_assoc]
    · rcases List.mem_append.1 mem with mem | mem
      · exact valid m mem
      · exact valid' m mem

theorem kept_sublist_used : ∀ ms : List OutputMember,
    (ms.filterMap fun m => (m.item sizes names).kept?).Sublist (ms.flatMap OutputMember.used)
  | [] => by simp
  | m :: ms => by
    rw [filterMap_cons_toList, List.flatMap_cons]
    refine List.Sublist.append ?_ (kept_sublist_used ms)
    cases m with
    | axis x s q =>
      simp only [OutputMember.item, OutputMember.used]
      split <;> simp [OutputItem.kept?]
    | int v q => simp [OutputMember.item, OutputItem.kept?]
    | ellipsis q => simp [OutputMember.item, OutputItem.kept?, OutputMember.used]

end Members

/-- What reading the output side leaves in an expression, in terms of the items its members
stand for: the slots cover the items' positions in order, the permutation lists the table
positions of the kept items, the new axes are the other items at their positions, and the kept
items are the table's names, each once. -/
structure Expression.OutputHolds (e : Expression) (items : List OutputItem) : Prop where
  indices : e.output.flatMap Slot.indices = Positions.indices {} (items.map OutputItem.isEllipsis)
  permutation : e.permutation = items.filterMap fun i => i.kept?.bind e.names.lookup
  newAxes : e.newAxes = (items.zip (Positions.indices {} (items.map OutputItem.isEllipsis))).filterMap
    fun q => q.1.newAxis? q.2
  outputSizes : e.outputSizes = items.filterMap OutputItem.outputSize?
  valid : ∀ i ∈ items, i.Valid e.names
  kept : (items.filterMap OutputItem.kept?).Perm e.names.names

theorem Expression.InputsHold.names_nodup {e : Expression} (h : e.InputsHold) : e.names.names.Nodup := by
  have names : e.names.names = ((allAxes e.inputs).filter (!·.isReduced)).map (·.name) := by
    rw [NameTable.names, h.entries, List.map_fst_zip]
    simp
  rw [names]
  exact (List.filter_sublist.map _).nodup h.names

namespace PatternSyntax

variable (p : PatternSyntax) {sizes : List (String × Int)}

/-- An output member stands for the ellipsis of the inputs exactly when it is the ellipsis: no
named member is called `..`. -/
theorem items_isEllipsis (written : ∀ x s q, OutputMember.axis x s q ∈ p.outputMembers → x ≠ ellipsisName)
    (names : NameTable) :
    (p.outputMembers.map (OutputMember.item sizes names)).map OutputItem.isEllipsis =
      p.outputMembers.map OutputMember.isEllipsis := by
  rw [List.map_map]
  refine List.map_congr_left fun m mem => ?_
  cases m with
  | axis x s q =>
    simp only [Function.comp, OutputMember.item, OutputMember.isEllipsis]
    split <;> simp [OutputItem.isEllipsis, written x s q mem]
  | int v q => rfl
  | ellipsis q => simp [OutputMember.item, OutputItem.isEllipsis, OutputMember.isEllipsis]

/-- A read tree's output side, as the items its members stand for. -/
theorem outputHolds {text : String} {n : Int} {e : Expression} (h : p.read text n sizes = some e)
    (written : ∀ x s q, OutputMember.axis x s q ∈ p.outputMembers → x ≠ ellipsisName)
    (distinct : e.names.names.Nodup) :
    e.OutputHolds (p.outputMembers.map (OutputMember.item sizes e.names)) := by
  obtain ⟨ds, t, out, -, -, -, outOk, rfl⟩ := p.read_eq_some h
  obtain ⟨slots, permutation, newAxes, outputSizes, valid⟩ :=
    readOutput_items sizes t p.output {} out outOk
  rw [show p.output.flatMap OutputTerm.members = p.outputMembers from rfl]
    at slots permutation newAxes outputSizes valid
  have ell : (p.outputMembers.map (OutputMember.item sizes t)).map OutputItem.isEllipsis =
      p.outputMembers.map OutputMember.isEllipsis := p.items_isEllipsis written t
  refine ⟨?_, ?_, ?_, ?_, ?_, ?_⟩
  · rw [ell]
    simpa using slots
  · simpa [keptPositions, List.filterMap_map] using permutation
  · rw [ell, List.zip_map_left, List.filterMap_map]
    simpa [newAxesFrom] using newAxes
  · simpa [sizesWritten, List.filterMap_map] using outputSizes
  · simpa using valid
  · rw [List.filterMap_map]
    have isSome : (readOutput sizes t {} p.output).isSome := by simp [outOk]
    obtain ⟨⟨-, covered⟩, used⟩ := (readOutput_isSome sizes t p.output (by simp)).1 isSome
    simp only [List.nil_append] at covered used
    refine (List.perm_ext_iff_of_nodup ((kept_sublist_used sizes t _).nodup used) distinct).2 fun x => ?_
    simp only [List.mem_filterMap]
    constructor
    · rintro ⟨m, mem, kept⟩
      have keptValid := valid m mem
      cases hm : m.item sizes t with
      | kept y k =>
        rw [hm] at kept keptValid
        simp only [OutputItem.kept?, Option.some.injEq] at kept
        subst kept
        exact lookup_isSome_iff_mem.1 keptValid
      | int k => simp [hm, OutputItem.kept?] at kept
      | named k y => simp [hm, OutputItem.kept?] at kept
    · intro mem
      obtain ⟨m, mMem, usedMem⟩ := List.mem_flatMap.1 (covered x mem)
      refine ⟨m, mMem, ?_⟩
      cases m with
      | axis y s q =>
        simp only [OutputMember.used, List.mem_singleton] at usedMem
        subst usedMem
        have found : (t.lookup x).isSome := lookup_isSome_iff_mem.2 mem
        simp [OutputMember.item, found, OutputItem.kept?]
      | int v q => simp [OutputMember.used] at usedMem
      | ellipsis q =>
        simp only [OutputMember.used, List.mem_singleton] at usedMem
        simp [OutputMember.item, OutputItem.kept?, usedMem]

end PatternSyntax

end Rearrange.Pattern
