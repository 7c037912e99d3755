import Rearrange.Proofs.InputsInGrammar
/-!
# The output side is read as its tree

The output side as `Rearrange.Proofs.ReadInputs` takes the input side: on tokens that fit the
marks of a tree's output, to the end of the pattern, each reading function returns what the
tree reads as (`readMember`, `readGroupMembers`, `readOutput`) or fails where that fails. The
final check that every kept axis and the ellipsis were used is `OutputBuild.coversAll`.

In the other direction, an output side that is read is the marks of some slots, provided the
tokens hold no end marker: the reader stops at one.
-/
namespace Rearrange.Pattern

theorem OutputMember.marks_ne_nil (m : OutputMember) : m.marks ≠ [] := by
  cases m <;> simp [OutputMember.marks]

theorem OutputMember.start_of_fits {t : Token} {q : List Token} (ms : List OutputMember)
    (fits : List.Forall₂ Token.Fits (t :: q) (ms.flatMap OutputMember.marks)) :
    t.kind = .ident ∨ t.kind = .int ∨ t.kind = .ellipsis := by
  cases ms with
  | nil => cases fits
  | cons m ms =>
    rw [List.flatMap_cons] at fits
    cases m <;> simp only [OutputMember.marks, List.cons_append] at fits <;>
      cases fits with
      | cons head _ => rw [head.kind_eq]; simp [Lexeme.kind]

theorem OutputMember.pos_of_fits {t : Token} {q : List Token} {m : OutputMember}
    (fits : List.Forall₂ Token.Fits (t :: q) m.marks) : t.pos = m.pos := by
  cases m <;> simp only [OutputMember.marks] at fits <;>
    cases fits with
    | cons head _ => exact head.pos_eq

theorem OutputTerm.start_of_fits {t : Token} {q : List Token} {ts : List OutputTerm}
    (fits : List.Forall₂ Token.Fits (t :: q) (ts.flatMap OutputTerm.marks)) : t.kind ≠ .colon := by
  cases ts with
  | nil => cases fits
  | cons term ts =>
    rw [List.flatMap_cons] at fits
    cases term with
    | single m =>
      simp only [OutputTerm.marks] at fits
      obtain ⟨l₁, l₂, split, memberFits, -⟩ := forall₂_append_right.1 fits
      cases l₁ with
      | nil => exact (m.marks_ne_nil (List.forall₂_nil_left_iff.1 memberFits)).elim
      | cons u l₁' =>
        simp only [List.cons_append, List.cons.injEq] at split
        obtain ⟨rfl, -⟩ := split
        rcases OutputMember.start_of_fits [m] (by simpa using memberFits) with k | k | k <;>
          simp [k]
    | group ms p =>
      cases fits with
      | cons head _ => rw [head.kind_eq]; simp [Lexeme.kind]

namespace Reader

variable (r : Reader) (names : NameTable)

theorem outputMember_fits (st : OutputBuild) {m : OutputMember} {t : Token} {pre rest : List Token}
    (fits : List.Forall₂ Token.Fits (t :: pre) m.marks) (follows : NextIsNot .colon rest) :
    (r.outputMember names st t (pre ++ rest)).toOption.map (fun res => (res.1, res.2.1, res.2.2.1)) =
      (readMember r.sizes names st m).map fun res => (res.1, res.2, rest) := by
  cases m with
  | ellipsis p =>
    obtain ⟨head, tail⟩ := List.forall₂_cons.1 fits
    obtain rfl := List.forall₂_nil_right_iff.1 tail
    have isEllipsis := head.kind_eq
    simp only [Lexeme.kind] at isEllipsis
    unfold Reader.outputMember
    simp only [isEllipsis, readMember]
    cases names.lookup ellipsisName with
    | none => simp
    | some leftIdx =>
      by_cases twice : ellipsisName ∈ st.used <;> simp [twice, Suffix.all]
  | int v p =>
    obtain ⟨head, tail⟩ := List.forall₂_cons.1 fits
    obtain rfl := List.forall₂_nil_right_iff.1 tail
    obtain ⟨isInt, value⟩ := head.int
    unfold Reader.outputMember
    simp only [isInt, readMember, value]
    by_cases nonpos : v ≤ 0 <;> simp [nonpos, Suffix.all]
  | axis x s p =>
    cases fits with
    | cons head sized =>
      obtain ⟨isIdent, text⟩ := head.ident
      have name := r.axisName_fits text sized follows
      unfold Reader.outputMember
      simp only [isIdent, readMember]
      cases h : r.axisName t (pre ++ rest) with
      | error e =>
        rw [h] at name
        have unread : readSize r.sizes x s = none := by simpa using name.symm
        simp [unread]
      | ok res =>
        rw [h] at name
        obtain ⟨n, k, u⟩ := res
        obtain ⟨size, sized, same⟩ := Option.map_eq_some_iff.1 name.symm
        simp only [Prod.mk.injEq] at same
        obtain ⟨rfl, rfl, restIs⟩ := same
        simp only [Except.toOption_bind, Except.toOption_ok_eq, Option.bind_some, sized]
        by_cases reduced : names.isReduced x
        · simp [reduced]
        · by_cases twice : x ∈ st.used
          · simp [reduced, twice]
          · cases names.lookup x with
            | some leftIdx => simp [reduced, twice, restIs]
            | none => by_cases unsized : size = 0 <;> simp [reduced, twice, restIs, unsized]

theorem outputGroup_member (opening t : Token) (members : List Index) (st : OutputBuild)
    (rest : List Token) (member : t.kind = .ident ∨ t.kind = .int ∨ t.kind = .ellipsis) :
    (r.outputGroup names opening members st (t :: rest)).toOption.map
        (fun res => (res.1, res.2.1, res.2.2.1)) =
      ((r.outputMember names st t rest).toOption.map fun res => (res.1, res.2.1, res.2.2.1)).bind
        fun res => (r.outputGroup names opening (members ++ [res.1]) res.2.1 res.2.2).toOption.map
          (fun res => (res.1, res.2.1, res.2.2.1)) := by
  rw [Reader.outputGroup.eq_def]
  rcases member with h | h | h <;> simp only [h] <;> cases r.outputMember names st t rest <;> simp <;> rfl

theorem outputGroup_close (opening c : Token) (members : List Index) (st : OutputBuild)
    (rest : List Token) (close : c.kind = .rparen) :
    (r.outputGroup names opening members st (c :: rest)).toOption.map
        (fun res => (res.1, res.2.1, res.2.2.1)) = some (.group members opening.pos, st, rest) := by
  rw [Reader.outputGroup.eq_def]
  simp [close]

theorem checkAllUsed_toOption (st : OutputBuild) :
    (r.checkAllUsed names st).toOption = if st.coversAll names then some st else none := by
  unfold Reader.checkAllUsed OutputBuild.coversAll
  -- the ellipsis is checked first, then the kept names
  by_cases missing : (names.hasEllipsis && !st.used.contains ellipsisName) = true
  · have uncovered : (!names.hasEllipsis || st.used.contains ellipsisName) = false := by
      revert missing
      cases names.hasEllipsis <;> cases st.used.contains ellipsisName <;> decide
    rw [if_pos missing, uncovered, Bool.false_and]
    rfl
  · have covered : (!names.hasEllipsis || st.used.contains ellipsisName) = true := by
      revert missing
      cases names.hasEllipsis <;> cases st.used.contains ellipsisName <;> decide
    rw [if_neg missing, covered, Bool.true_and]
    cases found : names.names.find? (!st.used.contains ·) with
    | some x =>
      have unused := List.find?_some found
      have notAll : names.names.all st.used.contains = false := by
        simpa using ⟨x, List.mem_of_find?_eq_some found, by simpa using unused⟩
      rw [notAll]
      rfl
    | none =>
      have all : names.names.all st.used.contains = true := by
        simpa using List.find?_eq_none.1 found
      rw [all]
      rfl

theorem outputGroup_fits (opening : Token) :
    ∀ (ms : List OutputMember) {members : List Index} {st : OutputBuild} {pre rest : List Token}
      {c : Token},
    List.Forall₂ Token.Fits pre (ms.flatMap OutputMember.marks) → c.kind = .rparen →
    (r.outputGroup names opening members st (pre ++ c :: rest)).toOption.map
        (fun res => (res.1, res.2.1, res.2.2.1)) =
      (readGroupMembers r.sizes names opening.pos members st ms).map
        fun res => (res.1, res.2, rest)
  | [], members, st, pre, rest, c, fits, close => by
    rw [List.flatMap_nil, List.forall₂_nil_right_iff] at fits
    subst fits
    rw [List.nil_append, r.outputGroup_close names opening c members st rest close]
    simp [readGroupMembers]
  | m :: ms, members, st, pre, rest, c, fits, close => by
    rw [List.flatMap_cons] at fits
    obtain ⟨pre₁, pre₂, rfl, memberFits, restFits⟩ := forall₂_append_right.1 fits
    have follows : NextIsNot .colon (pre₂ ++ c :: rest) := by
      intro u hu
      cases pre₂ with
      | nil =>
        simp only [List.nil_append, List.head?_cons, Option.mem_def, Option.some.injEq] at hu
        rw [← hu, close]
        decide
      | cons t' q =>
        simp only [List.cons_append, List.head?_cons, Option.mem_def, Option.some.injEq] at hu
        subst hu
        rcases OutputMember.start_of_fits _ restFits with k | k | k <;> rw [k] <;> decide
    cases pre₁ with
    | nil => exact (m.marks_ne_nil (List.forall₂_nil_left_iff.1 memberFits)).elim
    | cons t pre₁' =>
      have member := OutputMember.start_of_fits [m] (by simpa using memberFits)
      rw [show t :: pre₁' ++ pre₂ ++ c :: rest = t :: (pre₁' ++ (pre₂ ++ c :: rest)) by simp,
        r.outputGroup_member names opening t members st _ member,
        r.outputMember_fits names st memberFits follows]
      cases read : readMember r.sizes names st m with
      | none => simp [readGroupMembers, read]
      | some res =>
        simp only [Option.map_some, Option.bind_some]
        rw [outputGroup_fits opening ms restFits close]
        simp [readGroupMembers, read]

theorem output_member (st : OutputBuild) (t : Token) (rest : List Token)
    (member : t.kind = .ident ∨ t.kind = .int ∨ t.kind = .ellipsis) :
    (r.output names st (t :: rest)).toOption =
      ((r.outputMember names st t rest).toOption.map fun res => (res.1, res.2.1, res.2.2.1)).bind
        fun res => (r.output names { res.2.1 with slots := res.2.1.slots ++ [.single res.1 t.pos] }
          res.2.2).toOption := by
  rw [Reader.output.eq_def]
  rcases member with h | h | h <;> simp only [h] <;> cases r.outputMember names st t rest <;> simp

theorem output_group (st : OutputBuild) (t : Token) (rest : List Token) (isOpen : t.kind = .lparen) :
    (r.output names st (t :: rest)).toOption =
      ((r.outputGroup names t [] st rest).toOption.map fun res => (res.1, res.2.1, res.2.2.1)).bind
        fun res => (r.output names { res.2.1 with slots := res.2.1.slots ++ [res.1] }
          res.2.2).toOption := by
  rw [Reader.output.eq_def]
  simp only [isOpen]
  cases r.outputGroup names t [] st rest <;> simp

theorem output_nil (st : OutputBuild) :
    (r.output names st []).toOption = if st.coversAll names then some st else none := by
  rw [Reader.output.eq_def]
  exact r.checkAllUsed_toOption names st

/-- On tokens that fit the output side of a tree, to the end of the pattern, reading the output
side gives what the tree's output reads as. -/
theorem output_fits : ∀ (ts : List OutputTerm) {st : OutputBuild} {pre : List Token},
    List.Forall₂ Token.Fits pre (ts.flatMap OutputTerm.marks) →
    (r.output names st pre).toOption = readOutput r.sizes names st ts
  | [], st, pre, fits => by
    rw [List.flatMap_nil, List.forall₂_nil_right_iff] at fits
    subst fits
    rw [r.output_nil names st, readOutput]
  | term :: ts, st, pre, fits => by
    rw [List.flatMap_cons] at fits
    obtain ⟨pre₁, pre₂, rfl, termFits, restFits⟩ := forall₂_append_right.1 fits
    have follows : NextIsNot .colon pre₂ := by
      intro u hu
      cases pre₂ with
      | nil => cases hu
      | cons t' q =>
        simp only [List.head?_cons, Option.mem_def, Option.some.injEq] at hu
        subst hu
        exact OutputTerm.start_of_fits restFits
    cases term with
    | single m =>
      simp only [OutputTerm.marks] at termFits
      cases pre₁ with
      | nil => exact (m.marks_ne_nil (List.forall₂_nil_left_iff.1 termFits)).elim
      | cons t pre₁' =>
        have member := OutputMember.start_of_fits [m] (by simpa using termFits)
        rw [List.cons_append, r.output_member names st t _ member,
          r.outputMember_fits names st termFits follows, OutputMember.pos_of_fits termFits]
        cases read : readMember r.sizes names st m with
        | none => simp [readOutput, read]
        | some res =>
          simp only [Option.map_some, Option.bind_some]
          rw [output_fits ts restFits]
          simp [readOutput, read]
    | group ms p =>
      simp only [OutputTerm.marks] at termFits
      obtain ⟨t, q, head, members, rfl⟩ := List.forall₂_cons_right_iff.1 termFits
      obtain ⟨q₁, q₂, rfl, membersFit, closed⟩ := forall₂_append_right.1 members
      obtain ⟨c, tail, closer, noMore, rfl⟩ := List.forall₂_cons_right_iff.1 closed
      obtain rfl := List.forall₂_nil_right_iff.1 noMore
      have isOpen := head.kind_eq
      have offset := head.pos_eq
      have isClose := closer.kind_eq
      simp only [Lexeme.kind] at isOpen isClose
      rw [show t :: (q₁ ++ [c]) ++ pre₂ = t :: (q₁ ++ c :: pre₂) by simp,
        r.output_group names st t _ isOpen,
        r.outputGroup_fits names t ms membersFit isClose, offset]
      cases group : readGroupMembers r.sizes names p [] st ms with
      | none => simp [readOutput, group]
      | some res =>
        simp only [Option.map_some, Option.bind_some]
        rw [output_fits ts restFits]
        simp [readOutput, group]

theorem outputMember_sound (st : OutputBuild) {t : Token} {rest : List Token}
    {res : Index × OutputBuild × Suffix rest} (ok : r.outputMember names st t rest = .ok res) :
    ∃ (m : OutputMember) (pre : List Token), rest = pre ++ res.2.2.1 ∧
      List.Forall₂ Token.Fits (t :: pre) m.marks := by
  unfold Reader.outputMember at ok
  split at ok
  · next isEllipsis =>
    split at ok
    · cases ok
    · split at ok
      · cases ok
      · cases ok
        exact ⟨.ellipsis t.pos, [], rfl, .cons (Token.fits_at (by simp [Token.lexeme, isEllipsis])) .nil⟩
  · next isInt =>
    split at ok
    · cases ok
    · cases ok
      exact ⟨.int t.value t.pos, [], rfl, .cons (Token.fits_at (by simp [Token.lexeme, isInt])) .nil⟩
  · next isIdent =>
    obtain ⟨⟨name, size, u⟩, nameOk, ok⟩ := Except.bind_eq_ok.1 ok
    obtain ⟨s, pre, split, fits, named⟩ := r.axisName_sound nameOk
    simp only at named split
    have tokenFits : t.Fits ⟨.ident name, some t.pos⟩ :=
      Token.fits_at (by simp [Token.lexeme, isIdent, named])
    dsimp only at ok
    split at ok
    · cases ok
    · split at ok
      · cases ok
      · split at ok
        · cases ok
          exact ⟨.axis name s t.pos, pre, split, .cons tokenFits fits⟩
        · split at ok
          · cases ok
          · cases ok
            exact ⟨.axis name s t.pos, pre, split, .cons tokenFits fits⟩
  · cases ok
theorem outputGroup_sound (opening : Token) (members : List Index) (st : OutputBuild)
    (toks : List Token) (res : Slot × OutputBuild × Suffix toks)
    (ok : r.outputGroup names opening members st toks = .ok res) :
    ∃ (ms : List OutputMember) (pre : List Token) (c : Token), toks = pre ++ c :: res.2.2.1 ∧
      List.Forall₂ Token.Fits pre (ms.flatMap OutputMember.marks) ∧ c.kind = .rparen := by
  fun_induction r.outputGroup names opening members st toks
  case case2 members st t rest close =>
    cases ok
    exact ⟨[], [], t, rfl, .nil, close⟩
  case case3 members st t rest kind ih | case4 members st t rest kind ih
      | case5 members st t rest kind ih =>
    obtain ⟨⟨idx, st', u⟩, memberOk, ok⟩ := Except.bind_eq_ok.1 ok
    obtain ⟨⟨slot, st'', u'⟩, recOk, ok⟩ := Except.bind_eq_ok.1 ok
    cases ok
    obtain ⟨m, pre₁, restIs, memberFits⟩ := r.outputMember_sound names st memberOk
    obtain ⟨ms, pre, c, split, fits, close⟩ := ih idx st' u _ recOk
    refine ⟨m :: ms, t :: pre₁ ++ pre, c, by simp [restIs, split], ?_, close⟩
    rw [List.flatMap_cons]
    exact List.rel_append memberFits fits
  all_goals cases ok

/-- An output side that is read, from tokens with no end marker among them, is the marks of a
list of slots. -/
theorem output_sound (st : OutputBuild) (toks : List Token) (res : OutputBuild)
    (noEnd : ∀ t ∈ toks, t.kind ≠ .eof) (ok : r.output names st toks = .ok res) :
    ∃ ts : List OutputTerm, List.Forall₂ Token.Fits toks (ts.flatMap OutputTerm.marks) := by
  fun_induction r.output names st toks
  case case1 => exact ⟨[], .nil⟩
  case case2 st t rest isOpen ih =>
    obtain ⟨⟨slot, st', u⟩, groupOk, ok⟩ := Except.bind_eq_ok.1 ok
    obtain ⟨ms, pre₁, c, restIs, membersFit, close⟩ := r.outputGroup_sound names t [] st rest _ groupOk
    obtain ⟨ts, fits⟩ := ih slot st' u (fun t' mem => noEnd t' (by simp [restIs, mem])) ok
    refine ⟨.group ms t.pos :: ts, ?_⟩
    rw [List.flatMap_cons, restIs, show t :: (pre₁ ++ c :: u.1) = t :: (pre₁ ++ [c]) ++ u.1 by simp]
    refine List.rel_append (.cons (Token.fits_at (by simp [Token.lexeme, isOpen])) ?_) fits
    exact List.rel_append membersFit (.cons (Token.fits_none (by simp [Token.lexeme, close])) .nil)
  case case4 st t rest kind ih | case5 st t rest kind ih | case6 st t rest kind ih =>
    obtain ⟨⟨idx, st', u⟩, memberOk, ok⟩ := Except.bind_eq_ok.1 ok
    obtain ⟨m, pre₁, restIs, memberFits⟩ := r.outputMember_sound names st memberOk
    obtain ⟨ts, fits⟩ := ih idx st' u (fun t' mem => noEnd t' (by simp [restIs, mem])) ok
    refine ⟨.single m :: ts, ?_⟩
    rw [List.flatMap_cons, restIs, ← List.cons_append]
    exact List.rel_append memberFits fits
  case case9 st t rest atEnd => exact absurd atEnd (noEnd t (by simp))
  all_goals cases ok

end Reader

end Rearrange.Pattern
