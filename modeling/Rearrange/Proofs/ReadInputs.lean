import Rearrange.Proofs.Reading
/-!
# The input side is read as its tree

On tokens that fit the marks of a tree of the grammar, each reading function of the input side
returns what the tree reads as (`PatternSyntax.read`), or fails where the tree's reading fails,
and leaves exactly the tokens after the tree unread. The functions are taken bottom up: the
size after a name, an axis or a reduction, the members of a group, the items of one input, and
all inputs up to the `->`.

Each statement compares the two results as options, so that success and failure are matched at
once; the unread tokens are compared as lists. A name without a size is followed by the tokens
of what comes next, which never start with `:`.
-/
namespace Except

variable {ε α β : Type}

@[simp] theorem toOption_ok_eq (a : α) : (Except.ok a : Except ε α).toOption = some a := rfl

@[simp] theorem toOption_error_eq (e : ε) : (Except.error e : Except ε α).toOption = none := rfl

@[simp] theorem toOption_pure (a : α) : (pure a : Except ε α).toOption = some a := rfl

@[simp] theorem toOption_throw (e : ε) : (throw e : Except ε α).toOption = none := rfl

@[simp] theorem toOption_bind (x : Except ε α) (f : α → Except ε β) :
    (x >>= f).toOption = x.toOption.bind fun a => (f a).toOption := by
  cases x <;> rfl

@[simp] theorem toOption_map (x : Except ε α) (f : α → β) :
    (f <$> x).toOption = x.toOption.map f := by
  cases x <;> rfl

end Except

namespace Rearrange.Pattern

/-- The kind of token a lexeme is read from. -/
def Lexeme.kind : Lexeme → TokenKind
  | ident _ => .ident
  | int _ => .int
  | ellipsis => .ellipsis
  | keyword _ => .keyword
  | comma => .comma
  | arrow => .arrow
  | colon => .colon
  | lparen => .lparen
  | rparen => .rparen
  | eof => .eof

@[simp] theorem Token.kind_lexeme (t : Token) : t.lexeme.kind = t.kind := by
  unfold Token.lexeme
  split <;> simp [Lexeme.kind, *]

namespace Token.Fits

variable {t : Token}

theorem kind_eq {mk : Mark} (h : t.Fits mk) : t.kind = mk.lexeme.kind := by
  rw [← Token.kind_lexeme, h.1]

theorem pos_eq {l : Lexeme} {q : Nat} (h : t.Fits ⟨l, some q⟩) : t.pos = q := h.2 q rfl

theorem ident {x : String} {q : Option Nat} (h : t.Fits ⟨.ident x, q⟩) :
    t.kind = .ident ∧ t.text = x := by
  have lex := h.1
  unfold Token.lexeme at lex
  split at lex <;> simp_all

theorem int {v : Int} {q : Option Nat} (h : t.Fits ⟨.int v, q⟩) : t.kind = .int ∧ t.value = v := by
  have lex := h.1
  unfold Token.lexeme at lex
  split at lex <;> simp_all

theorem keyword {op : Reduction} {q : Option Nat} (h : t.Fits ⟨.keyword op, q⟩) :
    t.kind = .keyword ∧ t.op = op := by
  have lex := h.1
  unfold Token.lexeme at lex
  split at lex <;> simp_all

end Token.Fits

theorem forall₂_append_right {α β : Type} {R : α → β → Prop} {l : List α} {xs ys : List β} :
    List.Forall₂ R l (xs ++ ys) ↔
      ∃ l₁ l₂, l = l₁ ++ l₂ ∧ List.Forall₂ R l₁ xs ∧ List.Forall₂ R l₂ ys := by
  constructor
  · intro h
    exact ⟨l.take xs.length, l.drop xs.length, (List.take_append_drop _ _).symm,
      List.forall₂_take_append l xs ys h, List.forall₂_drop_append l xs ys h⟩
  · rintro ⟨l₁, l₂, rfl, h₁, h₂⟩
    exact List.rel_append h₁ h₂

/-- The first token of a list, if any, is not of kind `k`. -/
def NextIsNot (k : TokenKind) (toks : List Token) : Prop := ∀ t ∈ toks.head?, t.kind ≠ k

theorem InputAxis.marks_ne_nil (a : InputAxis) : a.marks ≠ [] := by
  unfold InputAxis.marks
  split <;> simp

theorem memberStart_of_fits {t : Token} {q : List Token} (ms : List InputAxis)
    (fits : List.Forall₂ Token.Fits (t :: q) (ms.flatMap InputAxis.marks)) :
    t.kind = .ident ∨ t.kind = .keyword := by
  cases ms with
  | nil => cases fits
  | cons a ms =>
    rw [List.flatMap_cons] at fits
    unfold InputAxis.marks at fits
    split at fits
    · cases fits with
      | cons head _ => left; rw [head.kind_eq]; rfl
    · cases fits with
      | cons head _ => right; rw [head.kind_eq]; rfl

namespace Reader

variable (r : Reader)

theorem writtenSize_fits (name : String) {s : Option Int} {pre rest : List Token}
    (fits : List.Forall₂ Token.Fits pre (sizeMarks s)) (follows : NextIsNot .colon rest) :
    (r.writtenSize name (pre ++ rest)).toOption.map (fun res => (res.1, res.2.1)) =
      if s.any (· ≤ 0) then none else some (s.getD 0, rest) := by
  cases s with
  | none =>
    rw [sizeMarks, List.forall₂_nil_right_iff] at fits
    subst fits
    cases rest with
    | nil => simp [Reader.writtenSize, Suffix.all]
    | cons c more => simp [Reader.writtenSize, follows c rfl, Suffix.all]
  | some k =>
    rw [sizeMarks] at fits
    obtain ⟨c, more, colon, intFits, rfl⟩ := List.forall₂_cons_right_iff.1 fits
    obtain ⟨i, tail, int, noMore, rfl⟩ := List.forall₂_cons_right_iff.1 intFits
    obtain rfl := List.forall₂_nil_right_iff.1 noMore
    have isColon := colon.kind_eq
    obtain ⟨isInt, value⟩ := int.int
    simp only [Lexeme.kind] at isColon
    simp only [List.cons_append, List.nil_append, Reader.writtenSize, isColon, if_true,
      Except.toOption_bind, Reader.expect, isInt]
    by_cases positive : k ≤ 0 <;> simp [positive, value]

theorem settleSize_toOption (ident : Token) (name : String) (written : Int) :
    (r.settleSize ident name written).toOption =
      match r.sizes.lookup name with
      | some g => if g ≤ 0 ∨ (written ≠ 0 ∧ written ≠ g) then none else some g
      | none => some written := by
  unfold Reader.settleSize
  cases r.sizes.lookup name with
  | none => rfl
  | some g =>
    by_cases nonpos : g ≤ 0
    · simp [nonpos]
    · by_cases differs : written ≠ 0 ∧ written ≠ g <;> simp [nonpos, differs]

theorem axisName_fits {ident : Token} {x : String} (text : ident.text = x) {s : Option Int}
    {pre rest : List Token} (fits : List.Forall₂ Token.Fits pre (sizeMarks s))
    (follows : NextIsNot .colon rest) :
    (r.axisName ident (pre ++ rest)).toOption.map (fun res => (res.1, res.2.1, res.2.2.1)) =
      (readSize r.sizes x s).map (x, ·, rest) := by
  have written := r.writtenSize_fits ident.text fits follows
  subst text
  unfold Reader.axisName
  cases h : r.writtenSize ident.text (pre ++ rest) with
  | error e =>
    rw [h] at written
    simp only [Except.toOption_error_eq, Option.map_none] at written
    have positive : s.any (· ≤ 0) = true := by
      by_contra hpos
      simp [hpos] at written
    simp [readSize, positive]
  | ok res =>
    rw [h] at written
    have positive : s.any (· ≤ 0) = false := by
      by_contra hpos
      simp [hpos] at written
    simp only [positive, Bool.false_eq_true, if_false, Except.toOption_ok_eq, Option.map_some,
      Option.some.injEq, Prod.mk.injEq] at written
    obtain ⟨sizeIs, restIs⟩ := written
    simp only [Except.toOption_bind, Except.toOption_ok_eq, Option.bind_some,
      Except.toOption_pure, settleSize_toOption, readSize, positive, Bool.false_eq_true, if_false]
    cases r.sizes.lookup ident.text with
    | none => simp [sizeIs, restIs]
    | some g =>
      cases s with
      | none =>
        simp only [Option.getD_none] at sizeIs
        by_cases nonpos : g ≤ 0 <;> simp [sizeIs, restIs, nonpos]
      | some k =>
        simp only [Option.any_some, decide_eq_false_iff_not] at positive
        simp only [Option.getD_some] at sizeIs
        by_cases nonpos : g ≤ 0
        · simp [nonpos]
        · by_cases same : k = g
          · simp [sizeIs, restIs, nonpos, same]
          · have nonzero : k ≠ 0 := by omega
            simp [sizeIs, nonpos, same, nonzero]

theorem inputAxis_fits {a : InputAxis} {t : Token} {pre rest : List Token}
    (fits : List.Forall₂ Token.Fits (t :: pre) a.marks) (follows : NextIsNot .colon rest) :
    (r.inputAxis t (pre ++ rest)).toOption.map (fun res => (res.1, res.2.1)) =
      (a.read r.sizes).map (·, rest) := by
  unfold InputAxis.marks at fits
  by_cases kept : a.reduce = .none
  · rw [if_pos kept] at fits
    cases fits with
    | cons first sized =>
      obtain ⟨isIdent, text⟩ := first.ident
      have offset := first.pos_eq
      have notKeyword : t.kind ≠ .keyword := by rw [isIdent]; decide
      have name := r.axisName_fits text sized follows
      unfold Reader.inputAxis
      rw [if_neg notKeyword]
      cases h : r.axisName t (pre ++ rest) with
      | error e =>
        rw [h] at name
        have unread : readSize r.sizes a.name a.size = none := by simpa using name.symm
        simp [InputAxis.read, unread]
      | ok res =>
        rw [h] at name
        obtain ⟨n, k, u⟩ := res
        obtain ⟨size, sized, same⟩ := Option.map_eq_some_iff.1 name.symm
        simp only [Prod.mk.injEq] at same
        obtain ⟨rfl, rfl, restIs⟩ := same
        simp [InputAxis.read, sized, restIs, offset, kept]
  · rw [if_neg kept] at fits
    obtain ⟨first, afterKeyword⟩ := List.forall₂_cons.1 fits
    obtain ⟨l, more, opening, afterOpen, rfl⟩ := List.forall₂_cons_right_iff.1 afterKeyword
    obtain ⟨i, q, named, closing, rfl⟩ := List.forall₂_cons_right_iff.1 afterOpen
    obtain ⟨q₁, q₂, rfl, sized, closed⟩ := forall₂_append_right.1 closing
    obtain ⟨c, tail, closer, noMore, rfl⟩ := List.forall₂_cons_right_iff.1 closed
    obtain rfl := List.forall₂_nil_right_iff.1 noMore
    obtain ⟨isKeyword, op⟩ := first.keyword
    have offset := first.pos_eq
    have isOpen := opening.kind_eq
    have isClose := closer.kind_eq
    obtain ⟨isIdent, text⟩ := named.ident
    simp only [Lexeme.kind] at isOpen isClose
    have closeFollows : NextIsNot .colon (c :: rest) := by
      intro u hu
      simp only [List.head?_cons, Option.mem_def, Option.some.injEq] at hu
      rw [← hu, isClose]
      decide
    have name := r.axisName_fits text sized closeFollows
    unfold Reader.inputAxis
    simp only [isKeyword, if_true, List.cons_append, List.append_assoc,
      Except.toOption_bind, Reader.expect, isOpen, isIdent, Except.toOption_ok_eq,
      Option.bind_some]
    cases h : r.axisName i (q₁ ++ c :: rest) with
    | error e =>
      rw [h] at name
      have unread : readSize r.sizes a.name a.size = none := by simpa using name.symm
      simp [InputAxis.read, unread, h]
    | ok res =>
      rw [h] at name
      obtain ⟨n, k, u⟩ := res
      obtain ⟨size, sized, same⟩ := Option.map_eq_some_iff.1 name.symm
      simp only [Prod.mk.injEq] at same
      obtain ⟨rfl, rfl, restIs⟩ := same
      obtain ⟨u, bound⟩ := u
      simp only at restIs
      subst restIs
      simp [InputAxis.read, sized, offset, op, isClose, h]

theorem addMember_eq (t : Token) (axes : List Axis) (derived : Option Nat) (siblings : Int)
    (sizeErr : Option Error) (axis : Axis) :
    ∃ err : Option Error,
      err.isSome = (groupStep axes derived siblings sizeErr.isSome axis).2.2.2 ∧
      r.addMember t axes derived siblings sizeErr axis =
        ((groupStep axes derived siblings sizeErr.isSome axis).1,
          (groupStep axes derived siblings sizeErr.isSome axis).2.1,
          (groupStep axes derived siblings sizeErr.isSome axis).2.2.1, err) := by
  unfold Reader.addMember groupStep
  by_cases unsized : axis.size = 0
  · simp only [unsized, if_true]
    cases derived with
    | none => exact ⟨sizeErr, rfl, rfl⟩
    | some i => exact ⟨_, by cases sizeErr <;> rfl, rfl⟩
  · simp only [unsized, if_false]
    cases Word.checkedMul siblings axis.size with
    | some q => exact ⟨sizeErr, rfl, rfl⟩
    | none => exact ⟨_, by cases sizeErr <;> rfl, rfl⟩

theorem groupMembers_member (opening t : Token) (first : Nat) (pos : Positions)
    (d : Decomposition) (derived : Option Nat) (siblings : Int) (sizeErr : Option Error)
    (rest : List Token) (member : t.kind = .ident ∨ t.kind = .keyword) :
    (r.groupMembers opening first pos d derived siblings sizeErr (t :: rest)).toOption.map
        (fun res => (res.1, res.2.1, res.2.2.1)) =
      ((r.inputAxis t rest).toOption.map fun res => (res.1, res.2.1)).bind fun res =>
        let g := r.addMember t d.axes derived siblings sizeErr { res.1 with index := pos.take.1 }
        (r.groupMembers opening first pos.take.2 { d with axes := d.axes ++ [g.1] } g.2.1 g.2.2.1
          g.2.2.2 res.2).toOption.map (fun res => (res.1, res.2.1, res.2.2.1)) := by
  rw [Reader.groupMembers.eq_def]
  rcases member with h | h <;> simp only [h] <;> cases r.inputAxis t rest <;> simp <;> rfl

theorem groupMembers_close (opening c : Token) (first : Nat) (pos : Positions)
    (d : Decomposition) (derived : Option Nat) (siblings : Int) (sizeErr : Option Error)
    (rest : List Token) (close : c.kind = .rparen) :
    (r.groupMembers opening first pos d derived siblings sizeErr (c :: rest)).toOption.map
        (fun res => (res.1, res.2.1, res.2.2.1)) =
      if sizeErr.isSome then none else some (pos, closeGroup first d derived siblings, rest) := by
  rw [Reader.groupMembers.eq_def]
  cases sizeErr with
  | some e => simp [close]
  | none =>
    simp only [close, Except.toOption_ok_eq, Option.map_some, Option.isSome_none]
    rfl

theorem groupMembers_fits (opening : Token) (first : Nat) :
    ∀ (ms : List InputAxis) {pos : Positions} {d : Decomposition} {derived : Option Nat}
      {siblings : Int} {sizeErr : Option Error} {pre rest : List Token} {c : Token},
    List.Forall₂ Token.Fits pre (ms.flatMap InputAxis.marks) → c.kind = .rparen →
    (r.groupMembers opening first pos d derived siblings sizeErr (pre ++ c :: rest)).toOption.map
        (fun res => (res.1, res.2.1, res.2.2.1)) =
      (readGroup r.sizes first pos d derived siblings sizeErr.isSome ms).map
        fun res => (res.1, res.2, rest)
  | [], pos, d, derived, siblings, sizeErr, pre, rest, c, fits, close => by
    rw [List.flatMap_nil, List.forall₂_nil_right_iff] at fits
    subst fits
    rw [List.nil_append, r.groupMembers_close opening c first pos d derived siblings sizeErr rest close]
    cases sizeErr <;> simp [readGroup]
  | a :: ms, pos, d, derived, siblings, sizeErr, pre, rest, c, fits, close => by
    rw [List.flatMap_cons] at fits
    obtain ⟨pre₁, pre₂, rfl, axisFits, restFits⟩ := forall₂_append_right.1 fits
    have follows : NextIsNot .colon (pre₂ ++ c :: rest) := by
      intro u hu
      cases pre₂ with
      | nil =>
        simp only [List.nil_append, List.head?_cons, Option.mem_def, Option.some.injEq] at hu
        rw [← hu, close]
        decide
      | cons t' q =>
        simp only [List.cons_append, List.head?_cons, Option.mem_def, Option.some.injEq] at hu
        subst hu
        rcases memberStart_of_fits _ restFits with k | k <;> rw [k] <;> decide
    cases pre₁ with
    | nil => exact (a.marks_ne_nil (List.forall₂_nil_left_iff.1 axisFits)).elim
    | cons t pre₁' =>
      have member : t.kind = .ident ∨ t.kind = .keyword :=
        memberStart_of_fits [a] (by simpa using axisFits)
      rw [show t :: pre₁' ++ pre₂ ++ c :: rest = t :: (pre₁' ++ (pre₂ ++ c :: rest)) by simp,
        r.groupMembers_member opening t first pos d derived siblings sizeErr _ member,
        r.inputAxis_fits axisFits follows]
      cases read : a.read r.sizes with
      | none => simp [readGroup, read]
      | some axis =>
        obtain ⟨err, errIs, addIs⟩ :=
          r.addMember_eq t d.axes derived siblings sizeErr { axis with index := pos.take.1 }
        simp only [Option.map_some, Option.bind_some, addIs]
        rw [groupMembers_fits opening first ms restFits close, errIs]
        simp [readGroup, read]

theorem inputAxes_member (pos : Positions) (d : Decomposition) (t : Token) (rest : List Token)
    (member : t.kind = .ident ∨ t.kind = .keyword) :
    (r.inputAxes pos d (t :: rest)).toOption.map (fun res => (res.1, res.2.1, res.2.2.1)) =
      ((r.inputAxis t rest).toOption.map fun res => (res.1, res.2.1)).bind fun res =>
        (r.inputAxes pos.take.2
          { d with axes := d.axes ++ [{ res.1 with index := pos.take.1 }],
                   dims := d.dims ++ [{ first := d.axes.length, count := 1 }] }
          res.2).toOption.map (fun res => (res.1, res.2.1, res.2.2.1)) := by
  rw [Reader.inputAxes.eq_def]
  rcases member with h | h <;> simp only [h] <;> cases r.inputAxis t rest <;> simp <;> rfl

theorem inputAxes_ellipsis (pos : Positions) (d : Decomposition) (t : Token) (rest : List Token)
    (isEllipsis : t.kind = .ellipsis) :
    (r.inputAxes pos d (t :: rest)).toOption.map (fun res => (res.1, res.2.1, res.2.2.1)) =
      (r.inputAxes pos.takeRange.2
        { d with axes := d.axes ++ [{ kind := .ellipsis, name := ellipsisName,
                                      index := pos.takeRange.1, pos := t.pos }],
                 dims := d.dims ++ [{ first := d.axes.length, count := 1, ellipsis := true }] }
        rest).toOption.map (fun res => (res.1, res.2.1, res.2.2.1)) := by
  rw [Reader.inputAxes.eq_def]
  simp only [isEllipsis]
  cases r.inputAxes pos.takeRange.2 _ rest <;> simp

theorem inputAxes_group (pos : Positions) (d : Decomposition) (t : Token) (rest : List Token)
    (isOpen : t.kind = .lparen) :
    (r.inputAxes pos d (t :: rest)).toOption.map (fun res => (res.1, res.2.1, res.2.2.1)) =
      ((r.groupMembers t d.axes.length pos d none 1 none rest).toOption.map
          fun res => (res.1, res.2.1, res.2.2.1)).bind fun res =>
        (r.inputAxes res.1 res.2.1 res.2.2).toOption.map (fun res => (res.1, res.2.1, res.2.2.1)) := by
  rw [Reader.inputAxes.eq_def]
  simp only [isOpen]
  cases r.groupMembers t d.axes.length pos d none 1 none rest with
  | error e => simp
  | ok res =>
    simp
    rfl

theorem inputAxes_stop (pos : Positions) (d : Decomposition) (toks : List Token)
    (stops : ∀ t ∈ toks.head?, t.kind = .comma ∨ t.kind = .arrow) :
    (r.inputAxes pos d toks).toOption.map (fun res => (res.1, res.2.1, res.2.2.1)) =
      some (pos, d, toks) := by
  rw [Reader.inputAxes.eq_def]
  cases toks with
  | nil => rfl
  | cons t rest =>
    rcases stops t rfl with h | h <;> simp [h, Suffix.all]

end Reader

theorem termStart_of_fits {t : Token} {q : List Token} {ts : List InputTerm}
    (fits : List.Forall₂ Token.Fits (t :: q) (ts.flatMap InputTerm.marks)) :
    t.kind ≠ .colon ∧ t.kind ≠ .comma ∧ t.kind ≠ .arrow := by
  cases ts with
  | nil => cases fits
  | cons term ts =>
    rw [List.flatMap_cons] at fits
    cases term with
    | axis a =>
      obtain ⟨pre₁, pre₂, split, axisFits, _⟩ := forall₂_append_right.1 fits
      simp only [InputTerm.marks] at axisFits
      cases pre₁ with
      | nil => exact (a.marks_ne_nil (List.forall₂_nil_left_iff.1 axisFits)).elim
      | cons u pre₁' =>
        simp only [List.cons_append, List.cons.injEq] at split
        obtain ⟨rfl, -⟩ := split
        rcases memberStart_of_fits [a] (by simpa using axisFits) with k | k <;>
          simp [k]
    | ellipsis p =>
      cases fits with
      | cons head _ => rw [head.kind_eq]; simp [Lexeme.kind]
    | group ms =>
      cases fits with
      | cons head _ => rw [head.kind_eq]; simp [Lexeme.kind]

namespace Reader

variable (r : Reader)

theorem inputAxes_fits : ∀ (ts : List InputTerm) {pos : Positions} {d : Decomposition}
    {pre rest : List Token},
    List.Forall₂ Token.Fits pre (ts.flatMap InputTerm.marks) →
    (∀ t ∈ rest.head?, t.kind = .comma ∨ t.kind = .arrow) →
    (r.inputAxes pos d (pre ++ rest)).toOption.map (fun res => (res.1, res.2.1, res.2.2.1)) =
      (readTerms r.sizes pos d ts).map fun res => (res.1, res.2, rest)
  | [], pos, d, pre, rest, fits, stops => by
    rw [List.flatMap_nil, List.forall₂_nil_right_iff] at fits
    subst fits
    simp [r.inputAxes_stop pos d rest stops, readTerms]
  | term :: ts, pos, d, pre, rest, fits, stops => by
    rw [List.flatMap_cons] at fits
    obtain ⟨pre₁, pre₂, rfl, termFits, restFits⟩ := forall₂_append_right.1 fits
    have follows : NextIsNot .colon (pre₂ ++ rest) := by
      intro u hu
      cases pre₂ with
      | nil =>
        rcases stops u (by simpa using hu) with k | k <;> rw [k] <;> decide
      | cons t' q =>
        simp only [List.cons_append, List.head?_cons, Option.mem_def, Option.some.injEq] at hu
        subst hu
        exact (termStart_of_fits restFits).1
    cases term with
    | axis a =>
      simp only [InputTerm.marks] at termFits
      cases pre₁ with
      | nil => exact (a.marks_ne_nil (List.forall₂_nil_left_iff.1 termFits)).elim
      | cons t pre₁' =>
        have member : t.kind = .ident ∨ t.kind = .keyword :=
          memberStart_of_fits [a] (by simpa using termFits)
        rw [show t :: pre₁' ++ pre₂ ++ rest = t :: (pre₁' ++ (pre₂ ++ rest)) by simp,
          r.inputAxes_member pos d t _ member,
          r.inputAxis_fits termFits follows]
        cases read : a.read r.sizes with
        | none => simp [readTerms, read]
        | some axis =>
          simp only [Option.map_some, Option.bind_some]
          rw [inputAxes_fits ts restFits stops]
          simp [readTerms, read]
    | ellipsis p =>
      simp only [InputTerm.marks] at termFits
      obtain ⟨t, tail, head, noMore, rfl⟩ := List.forall₂_cons_right_iff.1 termFits
      obtain rfl := List.forall₂_nil_right_iff.1 noMore
      have isEllipsis := head.kind_eq
      have offset := head.pos_eq
      simp only [Lexeme.kind] at isEllipsis
      rw [show [t] ++ pre₂ ++ rest = t :: (pre₂ ++ rest) by simp,
        r.inputAxes_ellipsis pos d t _ isEllipsis,
        inputAxes_fits ts restFits stops]
      simp [readTerms, offset]
    | group ms =>
      simp only [InputTerm.marks] at termFits
      obtain ⟨t, q, head, members, rfl⟩ := List.forall₂_cons_right_iff.1 termFits
      obtain ⟨q₁, q₂, rfl, membersFit, closed⟩ := forall₂_append_right.1 members
      obtain ⟨c, tail, closer, noMore, rfl⟩ := List.forall₂_cons_right_iff.1 closed
      obtain rfl := List.forall₂_nil_right_iff.1 noMore
      have isOpen := head.kind_eq
      have isClose := closer.kind_eq
      simp only [Lexeme.kind] at isOpen isClose
      rw [show t :: (q₁ ++ [c]) ++ pre₂ ++ rest = t :: (q₁ ++ c :: (pre₂ ++ rest)) by simp,
        r.inputAxes_group pos d t _ isOpen,
        r.groupMembers_fits t d.axes.length ms membersFit isClose, Option.isSome_none]
      cases group : readGroup r.sizes d.axes.length pos d none 1 false ms with
      | none => simp [readTerms, group]
      | some res =>
        simp only [Option.map_some, Option.bind_some]
        rw [inputAxes_fits ts restFits stops]
        simp [readTerms, group]

theorem inputs_step (pos : Positions) (done : List Decomposition) (toks : List Token) :
    (r.inputs pos done toks).toOption =
      ((r.inputAxes pos { input := done.length } toks).toOption.map
          fun res => (res.1, res.2.1, res.2.2.1)).bind fun res =>
        match res.2.2 with
        | [] => none
        | t :: rest =>
          if t.kind = .comma then (r.inputs res.1 (done ++ [res.2.1]) rest).toOption
          else if t.kind = .arrow then some (done ++ [res.2.1], rest)
          else none := by
  rw [Reader.inputs]
  cases r.inputAxes pos { input := done.length } toks with
  | error e => rfl
  | ok res =>
    obtain ⟨p, d, u, bound⟩ := res
    cases u with
    | nil => rfl
    | cons t rest =>
      show (if t.kind = TokenKind.comma then r.inputs p (done ++ [d]) rest
        else if t.kind = .arrow then Except.ok (done ++ [d], rest) else Except.error _).toOption = _
      by_cases comma : t.kind = .comma
      · simp [comma]
      · by_cases arrow : t.kind = .arrow <;> simp [comma, arrow]

/-- On tokens that fit the inputs of a tree, up to and including the `->`, reading the inputs
gives what the tree's inputs read as, and leaves the tokens after the `->`. -/
theorem inputs_fits : ∀ (tss : List (List InputTerm)) {pos : Positions}
    {done : List Decomposition} {pre rest : List Token}, tss ≠ [] →
    List.Forall₂ Token.Fits pre (inputsMarks tss) →
    (r.inputs pos done (pre ++ rest)).toOption = (readInputs r.sizes pos done tss).map (·, rest)
  | [], _, _, _, _, nonempty, _ => absurd rfl nonempty
  | [ts], pos, done, pre, rest, _, fits => by
    rw [inputsMarks] at fits
    obtain ⟨pre₁, pre₂, rfl, termsFit, arrowFits⟩ := forall₂_append_right.1 fits
    obtain ⟨a, tail, arrow, noMore, rfl⟩ := List.forall₂_cons_right_iff.1 arrowFits
    obtain rfl := List.forall₂_nil_right_iff.1 noMore
    have isArrow := arrow.kind_eq
    simp only [Lexeme.kind] at isArrow
    have stops : ∀ t ∈ (a :: rest).head?, t.kind = .comma ∨ t.kind = .arrow := by
      intro t ht
      simp only [List.head?_cons, Option.mem_def, Option.some.injEq] at ht
      exact .inr (ht ▸ isArrow)
    rw [r.inputs_step, List.append_assoc, List.singleton_append, r.inputAxes_fits ts termsFit stops]
    cases terms : readTerms r.sizes pos { input := done.length } ts with
    | none => simp [readInputs, terms]
    | some res => simp [readInputs, terms, isArrow]
  | ts :: us :: more, pos, done, pre, rest, _, fits => by
    rw [inputsMarks] at fits
    obtain ⟨pre₁, pre₂, rfl, termsFit, restFits⟩ := forall₂_append_right.1 fits
    obtain ⟨c, pre₃, comma, moreFits, rfl⟩ := List.forall₂_cons_right_iff.1 restFits
    have isComma := comma.kind_eq
    simp only [Lexeme.kind] at isComma
    have stops : ∀ t ∈ (c :: (pre₃ ++ rest)).head?, t.kind = .comma ∨ t.kind = .arrow := by
      intro t ht
      simp only [List.head?_cons, Option.mem_def, Option.some.injEq] at ht
      exact .inl (ht ▸ isComma)
    rw [r.inputs_step, List.append_assoc, List.cons_append, r.inputAxes_fits ts termsFit stops]
    cases terms : readTerms r.sizes pos { input := done.length } ts with
    | none => simp [readInputs, terms]
    | some res =>
      simp only [Option.map_some, Option.bind_some, isComma, if_true]
      rw [inputs_fits (us :: more) (List.cons_ne_nil _ _) moreFits]
      simp [readInputs, terms]

end Reader

end Rearrange.Pattern
