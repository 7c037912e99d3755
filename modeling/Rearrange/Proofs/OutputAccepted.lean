import Rearrange.Proofs.InputsAccepted
/-!
# When the output side of a tree is read

Against a name table, `readOutput` succeeds exactly when every member fits (`MemberFits`: a
positive integer, the ellipsis of the inputs, or a name whose size reads, that is not reduced and
that has a size if it is not an axis of the inputs), the names the members use are distinct, and
every kept name of the table is among them (`readOutput_isSome`).

Whether a member is read depends on what came before it only through the names used so far;
`bind_isSome_of_step` says once how one member or one group is followed by the rest, so that the
induction over the slots and the one over the members of a group share it.
-/
namespace Rearrange.Pattern

/-- A member of the output side that the table lets through, whatever came before it: a
positive integer, the ellipsis of the inputs, or a name with a size that reads, not reduced, and
with a size if it is not an axis of the inputs. -/
def MemberFits (sizes : List (String × Int)) (names : NameTable) : OutputMember → Prop
  | .axis x s _ => ∃ k, readSize sizes x s = some k ∧ names.isReduced x = false ∧
      (names.lookup x = none → k ≠ 0)
  | .int v _ => 0 < v
  | .ellipsis _ => (names.lookup ellipsisName).isSome

section Members

variable (sizes : List (String × Int)) (names : NameTable)

theorem readMember_isSome (st : OutputBuild) (m : OutputMember) :
    (readMember sizes names st m).isSome ↔ MemberFits sizes names m ∧ ∀ x ∈ m.used, x ∉ st.used := by
  cases m with
  | ellipsis p =>
    unfold readMember
    cases found : names.lookup ellipsisName with
    | none => simp [MemberFits, found]
    | some leftIdx =>
      by_cases twice : ellipsisName ∈ st.used
      · simp [MemberFits, OutputMember.used, twice]
      · simp [MemberFits, OutputMember.used, twice, found]
  | int v p =>
    unfold readMember
    by_cases nonpos : v ≤ 0
    · simp [MemberFits, nonpos]
    · simp [MemberFits, OutputMember.used, nonpos]
      omega
  | axis x s p =>
    unfold readMember
    cases sized : readSize sizes x s with
    | none => simp [MemberFits, sized]
    | some k =>
      by_cases reduced : names.isReduced x
      · simp [MemberFits, sized, reduced]
      · by_cases twice : x ∈ st.used
        · simp [MemberFits, OutputMember.used, sized, reduced, twice]
        · cases found : names.lookup x with
          | some leftIdx => simp [MemberFits, OutputMember.used, sized, reduced, twice, found]
          | none =>
            by_cases unsized : k = 0
            · simp [MemberFits, sized, reduced, unsized, found]
            · simp [MemberFits, OutputMember.used, sized, reduced, twice, unsized, found]

theorem readMember_used {st : OutputBuild} {m : OutputMember} {res : Index × OutputBuild}
    (ok : readMember sizes names st m = some res) : res.2.used = st.used ++ m.used := by
  cases m with
  | ellipsis p =>
    simp only [readMember] at ok
    split at ok
    · cases ok
    · split at ok
      · cases ok
      · cases ok
        rfl
  | int v p =>
    simp only [readMember] at ok
    split at ok
    · cases ok
    · cases ok
      simp [OutputMember.used]
  | axis x s p =>
    simp only [readMember] at ok
    obtain ⟨k, -, ok⟩ := Option.bind_eq_some_iff.1 ok
    by_cases reduced : names.isReduced x
    · simp [reduced] at ok
    · by_cases twice : x ∈ st.used
      · simp [reduced, twice] at ok
      · simp only [reduced, twice, Bool.false_eq_true, if_false, List.contains_iff_mem] at ok
        split at ok
        · cases ok
          rfl
        · split at ok
          · cases ok
          · cases ok
            rfl

theorem OutputMember.used_nodup (m : OutputMember) : m.used.Nodup := by
  cases m <;> simp [OutputMember.used]

theorem nodup_append_used {used : List String} (distinct : used.Nodup) (m : OutputMember) :
    (used ++ m.used).Nodup ↔ ∀ x ∈ m.used, x ∉ used := by
  rw [List.nodup_append]
  constructor
  · rintro ⟨-, -, apart⟩ x mem seen
    exact apart x seen x mem rfl
  · intro fresh
    exact ⟨distinct, m.used_nodup, fun x seen y mem same => fresh y mem (same ▸ seen)⟩

theorem readGroupMembers_cons (pos : Nat) (members : List Index) (st : OutputBuild)
    (m : OutputMember) (ms : List OutputMember) :
    readGroupMembers sizes names pos members st (m :: ms) =
      (readMember sizes names st m).bind fun res =>
        readGroupMembers sizes names pos (members ++ [res.1]) res.2 ms :=
  rfl

/-- A step of the output side, then the rest: the step is read exactly when it fits and keeps
the names used distinct, and the rest is read after it. -/
theorem bind_isSome_of_step {α β : Type} {x : Option α} {k : α → Option β} {P : Prop} (Q : Prop)
    {used step : List String} (rest : List String) (first : x.isSome ↔ P ∧ (used ++ step).Nodup)
    (next : ∀ res, x = some res → ((k res).isSome ↔ Q ∧ (used ++ step ++ rest).Nodup)) :
    (x.bind k).isSome ↔ (P ∧ Q) ∧ (used ++ (step ++ rest)).Nodup := by
  rw [← List.append_assoc]
  cases h : x with
  | none =>
    rw [h] at first
    simp only [Option.isSome_none, Bool.false_eq_true, false_iff] at first
    simp only [Option.bind_none, Option.isSome_none, Bool.false_eq_true, false_iff]
    rintro ⟨⟨p, -⟩, nodup⟩
    exact first ⟨p, (List.nodup_append.1 nodup).1⟩
  | some res =>
    rw [h] at first
    simp only [Option.isSome_some, true_iff] at first
    rw [Option.bind_some, next res h]
    exact ⟨fun ⟨q, nodup⟩ => ⟨⟨first.1, q⟩, nodup⟩, fun ⟨⟨_, q⟩, nodup⟩ => ⟨q, nodup⟩⟩

theorem readMember_isSome_nodup {st : OutputBuild} (distinct : st.used.Nodup) (m : OutputMember) :
    (readMember sizes names st m).isSome ↔
      MemberFits sizes names m ∧ (st.used ++ m.used).Nodup := by
  rw [readMember_isSome, nodup_append_used distinct]

theorem readMember_nodup {st : OutputBuild} (distinct : st.used.Nodup) {m : OutputMember}
    {res : Index × OutputBuild} (ok : readMember sizes names st m = some res) : res.2.used.Nodup := by
  rw [readMember_used sizes names ok]
  exact ((readMember_isSome_nodup sizes names distinct m).1 (by simp [ok])).2

theorem readGroupMembers_isSome (pos : Nat) : ∀ (ms : List OutputMember) {members : List Index}
    {st : OutputBuild}, st.used.Nodup →
    ((readGroupMembers sizes names pos members st ms).isSome ↔
      (∀ m ∈ ms, MemberFits sizes names m) ∧ (st.used ++ ms.flatMap OutputMember.used).Nodup)
  | [], members, st, distinct => by simp [readGroupMembers, distinct]
  | m :: ms, members, st, distinct => by
    rw [readGroupMembers_cons, List.flatMap_cons, List.forall_mem_cons]
    apply bind_isSome_of_step _ _ (readMember_isSome_nodup sizes names distinct m)
    intro res ok
    rw [readGroupMembers_isSome pos ms (readMember_nodup sizes names distinct ok),
      readMember_used sizes names ok]

theorem readGroupMembers_used (pos : Nat) : ∀ (ms : List OutputMember) {members : List Index}
    {st : OutputBuild} {res : Slot × OutputBuild},
    readGroupMembers sizes names pos members st ms = some res →
    res.2.used = st.used ++ ms.flatMap OutputMember.used
  | [], members, st, res, ok => by
    cases ok
    simp
  | m :: ms, members, st, res, ok => by
    rw [readGroupMembers_cons] at ok
    obtain ⟨mid, member, ok⟩ := Option.bind_eq_some_iff.1 ok
    rw [readGroupMembers_used pos ms ok, readMember_used sizes names member]
    simp

theorem NameTable.hasEllipsis_iff (t : NameTable) : t.hasEllipsis = true ↔ ellipsisName ∈ t.names :=
  lookup_isSome_iff_mem

/-- The end of the output side is reached exactly when every kept name of the inputs was used;
the ellipsis, when the inputs have one, is among them. -/
theorem coversAll_iff (st : OutputBuild) :
    st.coversAll names = true ↔ ∀ x ∈ names.names, x ∈ st.used := by
  unfold OutputBuild.coversAll
  rw [Bool.and_eq_true, List.all_eq_true]
  simp only [List.contains_iff_mem]
  constructor
  · exact fun ⟨_, all⟩ => all
  · intro all
    refine ⟨?_, all⟩
    cases h : names.hasEllipsis with
    | false => rfl
    | true => simpa using all _ ((NameTable.hasEllipsis_iff names).1 h)

theorem readOutput_single (st : OutputBuild) (m : OutputMember) (ts : List OutputTerm) :
    readOutput sizes names st (.single m :: ts) =
      (readMember sizes names st m).bind fun res =>
        readOutput sizes names { res.2 with slots := res.2.slots ++ [.single res.1 m.pos] } ts :=
  rfl

theorem readOutput_group (st : OutputBuild) (ms : List OutputMember) (p : Nat) (ts : List OutputTerm) :
    readOutput sizes names st (.group ms p :: ts) =
      (readGroupMembers sizes names p [] st ms).bind fun res =>
        readOutput sizes names { res.2 with slots := res.2.slots ++ [res.1] } ts :=
  rfl

/-- The output side is read exactly when each member fits, the names it uses are distinct,
and it uses every kept name of the inputs. -/
theorem readOutput_isSome : ∀ (ts : List OutputTerm) {st : OutputBuild}, st.used.Nodup →
    ((readOutput sizes names st ts).isSome ↔
      ((∀ m ∈ ts.flatMap OutputTerm.members, MemberFits sizes names m) ∧
        ∀ x ∈ names.names, x ∈ st.used ++ (ts.flatMap OutputTerm.members).flatMap OutputMember.used) ∧
      (st.used ++ (ts.flatMap OutputTerm.members).flatMap OutputMember.used).Nodup)
  | [], st, distinct => by
    simp only [readOutput]
    rw [apply_ite Option.isSome, Option.isSome_some, Option.isSome_none]
    simp [coversAll_iff, distinct]
  | .single m :: ts, st, distinct => by
    rw [readOutput_single]
    refine (bind_isSome_of_step
      ((∀ m' ∈ ts.flatMap OutputTerm.members, MemberFits sizes names m') ∧
        ∀ x ∈ names.names, x ∈ st.used ++ m.used ++
          (ts.flatMap OutputTerm.members).flatMap OutputMember.used)
      ((ts.flatMap OutputTerm.members).flatMap OutputMember.used)
      (readMember_isSome_nodup sizes names distinct m) fun res ok => ?_).trans ?_
    · have nodup : ({ res.2 with slots := res.2.slots ++ [.single res.1 m.pos] } : OutputBuild).used.Nodup :=
        readMember_nodup sizes names distinct ok
      rw [readOutput_isSome ts nodup]
      dsimp only
      rw [readMember_used sizes names ok]
    · simp only [List.flatMap_cons, OutputTerm.members, List.singleton_append, List.forall_mem_cons,
        List.append_assoc, and_assoc]
  | .group ms p :: ts, st, distinct => by
    rw [readOutput_group]
    have groupIff : (readGroupMembers sizes names p [] st ms).isSome ↔ _ :=
      readGroupMembers_isSome sizes names p ms distinct
    refine (bind_isSome_of_step
      ((∀ m' ∈ ts.flatMap OutputTerm.members, MemberFits sizes names m') ∧
        ∀ x ∈ names.names, x ∈ st.used ++ ms.flatMap OutputMember.used ++
          (ts.flatMap OutputTerm.members).flatMap OutputMember.used)
      ((ts.flatMap OutputTerm.members).flatMap OutputMember.used) groupIff fun res ok => ?_).trans ?_
    · have grown := readGroupMembers_used sizes names p ms ok
      have nodup : ({ res.2 with slots := res.2.slots ++ [res.1] } : OutputBuild).used.Nodup := by
        show res.2.used.Nodup
        rw [grown]
        exact (groupIff.1 (by simp [ok])).2
      rw [readOutput_isSome ts nodup]
      dsimp only
      rw [grown]
    · simp only [List.flatMap_cons, OutputTerm.members, List.flatMap_append, List.forall_mem_append,
        List.append_assoc, and_assoc]

end Members

end Rearrange.Pattern
