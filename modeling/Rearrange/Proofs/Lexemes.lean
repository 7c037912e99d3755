import Rearrange.Proofs.InputsInGrammar
import Rearrange.Shape.Rules
/-!
# What the words of a pattern can be

A name starts with a letter or an underscore, so the scanner's names never spell the ellipsis's
`..`; its keywords carry one of the five reductions, each of which needs an order or arithmetic
(`Token.WellWritten`). Every token takes at least one byte, so there are no more tokens than the
pattern has bytes (`scanBody_length`).

For a tree whose marks the tokens fit, the axes of the inputs and the named members of the output
are therefore never called `..`, every reduction is one the shape rules know, and the tree holds
fewer axes and members than the pattern has bytes.
-/
namespace Rearrange.Pattern

/-- What the scanner guarantees of its words: a name is not the ellipsis's `..`, and a keyword
carries a reduction that needs an order or arithmetic. -/
def Token.WellWritten (t : Token) : Prop :=
  (t.kind = .ident → t.text ≠ ellipsisName) ∧
    (t.kind = .keyword → (Shape.isNumberReduction t.op || Shape.isOrderReduction t.op) = true)

theorem char_ofNat_byte (b : UInt8) : (Char.ofNat b.toNat).toNat = b.toNat := by
  have lt : b.toNat < 256 := b.toNat_lt
  unfold Char.ofNat
  rw [dif_pos (by unfold Nat.isValidChar; omega)]
  simp [Char.ofNatAux, Char.toNat]

theorem name_ne_ellipsis {b : UInt8} (rest : List UInt8) (start : Token.isNameStart b = true) :
    String.ofList ((b :: rest).map fun d => Char.ofNat d.toNat) ≠ ellipsisName := by
  intro h
  have chars := congrArg String.toList h
  rw [String.toList_ofList, show ellipsisName.toList = ['.', '.'] from rfl, List.map_cons] at chars
  have first := congrArg Char.toNat (List.cons.inj chars).1
  rw [char_ofNat_byte] at first
  have dot : b = 46 := UInt8.toNat_inj.1 (first.trans rfl)
  subst dot
  simp [Token.isNameStart] at start

theorem ofKeyword?_reduces {w : String} {op : Reduction} (h : Reduction.ofKeyword? w = some op) :
    (Shape.isNumberReduction op || Shape.isOrderReduction op) = true := by
  unfold Reduction.ofKeyword? at h
  split at h <;> cases h <;> rfl

theorem wellWritten_of_kind {t : Token} (notIdent : t.kind ≠ .ident)
    (notKeyword : t.kind ≠ .keyword) : t.WellWritten :=
  ⟨fun h => absurd h notIdent, fun h => absurd h notKeyword⟩

/-- The scanner writes its words well. -/
theorem scanFrom_wellWritten (pattern : String) (bytes : List UInt8) (pos : Nat) (toks : List Token)
    (ok : Token.scanFrom pattern bytes pos = .ok toks) : ∀ t ∈ toks, t.WellWritten := by
  fun_induction Token.scanFrom pattern bytes pos generalizing toks
  case case1 => cases ok; simp
  case case2 ih => exact ih toks ok
  case case3 k punct ih =>
    obtain ⟨rest, restOk, rfl⟩ := Except.map_eq_ok.1 ok
    have kinds : k ≠ .ident ∧ k ≠ .keyword := by
      unfold Token.punctuation? at punct
      split at punct
      · cases punct; decide
      · split at punct
        · cases punct; decide
        · split at punct
          · cases punct; decide
          · split at punct
            · cases punct; decide
            · cases punct
    exact List.forall_mem_cons.2 ⟨wellWritten_of_kind kinds.1 kinds.2, ih rest restOk⟩
  case case4 b pos notBlank notPunct dash rest' ih =>
    obtain ⟨rest, restOk, rfl⟩ := Except.map_eq_ok.1 ok
    exact List.forall_mem_cons.2 ⟨wellWritten_of_kind (by simp) (by simp), ih rest restOk⟩
  case case6 b pos notBlank notPunct notDash dot rest' ih =>
    obtain ⟨rest, restOk, rfl⟩ := Except.map_eq_ok.1 ok
    exact List.forall_mem_cons.2 ⟨wellWritten_of_kind (by simp) (by simp), ih rest restOk⟩
  case case7 b pos notBlank notPunct notDash dot rest' notThree ih =>
    obtain ⟨rest, restOk, rfl⟩ := Except.map_eq_ok.1 ok
    exact List.forall_mem_cons.2 ⟨wellWritten_of_kind (by simp) (by simp), ih rest restOk⟩
  case case10 b rest pos notBlank notPunct notDash notDot digit ds rest' value fits ih =>
    obtain ⟨more, moreOk, rfl⟩ := Except.map_eq_ok.1 ok
    exact List.forall_mem_cons.2 ⟨wellWritten_of_kind (by simp) (by simp), ih more moreOk⟩
  case case11 b rest pos notBlank notPunct notDash notDot notDigit start ds rest' word tok ih =>
    obtain ⟨more, moreOk, rfl⟩ := Except.map_eq_ok.1 ok
    have head : tok.WellWritten := by
      simp only [tok]
      split
      · next op keyword => exact ⟨fun h => (by cases h), fun _ => ofKeyword?_reduces keyword⟩
      · exact ⟨fun _ => name_ne_ellipsis _ start, fun h => by cases h⟩
    exact List.forall_mem_cons.2 ⟨head, ih more moreOk⟩
  all_goals cases ok

/-- Every token takes at least one byte. -/
theorem scanFrom_length (pattern : String) (bytes : List UInt8) (pos : Nat) (toks : List Token)
    (ok : Token.scanFrom pattern bytes pos = .ok toks) : toks.length ≤ bytes.length := by
  fun_induction Token.scanFrom pattern bytes pos generalizing toks
  case case1 => cases ok; simp
  case case2 ih =>
    have := ih toks ok
    simp
    omega
  case case3 k punct ih =>
    obtain ⟨rest, restOk, rfl⟩ := Except.map_eq_ok.1 ok
    have := ih rest restOk
    simp
    omega
  case case4 b pos notBlank notPunct dash rest' ih =>
    obtain ⟨rest, restOk, rfl⟩ := Except.map_eq_ok.1 ok
    have := ih rest restOk
    simp
    omega
  case case6 b pos notBlank notPunct notDash dot rest' ih =>
    obtain ⟨rest, restOk, rfl⟩ := Except.map_eq_ok.1 ok
    have := ih rest restOk
    simp
    omega
  case case7 b pos notBlank notPunct notDash dot rest' notThree ih =>
    obtain ⟨rest, restOk, rfl⟩ := Except.map_eq_ok.1 ok
    have := ih rest restOk
    simp
    omega
  case case10 b rest pos notBlank notPunct notDash notDot digit ds rest' value fits ih =>
    obtain ⟨more, moreOk, rfl⟩ := Except.map_eq_ok.1 ok
    have := ih more moreOk
    have shorter : rest'.length ≤ rest.length := Token.length_dropWhile_le _ rest
    simp only [List.length_cons]
    omega
  case case11 b rest pos notBlank notPunct notDash notDot notDigit start ds rest' word tok ih =>
    obtain ⟨more, moreOk, rfl⟩ := Except.map_eq_ok.1 ok
    have := ih more moreOk
    have shorter : rest'.length ≤ rest.length := Token.length_dropWhile_le _ rest
    simp only [List.length_cons]
    omega
  all_goals cases ok

theorem byteArray_toList_loop_length (bs : ByteArray) (i : Nat) (r : List UInt8) :
    (ByteArray.toList.loop bs i r).length = r.length + (bs.size - i) := by
  fun_induction ByteArray.toList.loop bs i r with
  | case1 i r lt ih =>
    rw [ih]
    simp
    omega
  | case2 i r ge =>
    simp
    omega

theorem scanBody_length {text : String} {toks : List Token} (ok : Token.scanBody text = .ok toks) :
    toks.length ≤ text.utf8ByteSize := by
  have bound := scanFrom_length text _ 0 toks ok
  unfold ByteArray.toList at bound
  rw [byteArray_toList_loop_length] at bound
  simpa using bound

theorem exists_fits_of_mem {toks : List Token} {marks : List Mark}
    (fits : List.Forall₂ Token.Fits toks marks) {mk : Mark} (mem : mk ∈ marks) :
    ∃ t ∈ toks, t.Fits mk := by
  induction fits with
  | nil => cases mem
  | cons head _ ih =>
    rcases List.mem_cons.1 mem with rfl | mem
    · exact ⟨_, List.mem_cons_self, head⟩
    · obtain ⟨t, tMem, tFits⟩ := ih mem
      exact ⟨t, List.mem_cons_of_mem _ tMem, tFits⟩

theorem Token.ident_of_fits {t : Token} {x : String} {q : Option Nat}
    (fits : t.Fits ⟨.ident x, q⟩) : t.kind = .ident ∧ t.text = x := by
  have lexeme := fits.1
  unfold Token.lexeme at lexeme
  split at lexeme <;> simp_all

theorem Token.keyword_of_fits {t : Token} {op : Reduction} {q : Option Nat}
    (fits : t.Fits ⟨.keyword op, q⟩) : t.kind = .keyword ∧ t.op = op := by
  have lexeme := fits.1
  unfold Token.lexeme at lexeme
  split at lexeme <;> simp_all

theorem InputAxis.ident_mem_marks (a : InputAxis) : ∃ q, (⟨.ident a.name, q⟩ : Mark) ∈ a.marks := by
  unfold InputAxis.marks
  split
  · exact ⟨_, List.mem_cons_self⟩
  · exact ⟨none, by simp⟩

theorem InputAxis.keyword_mem_marks (a : InputAxis) (reduced : a.reduce ≠ .none) :
    ∃ q, (⟨.keyword a.reduce, q⟩ : Mark) ∈ a.marks := by
  unfold InputAxis.marks
  rw [if_neg reduced]
  exact ⟨_, List.mem_cons_self⟩

theorem InputTerm.marks_of_axis {t : InputTerm} {a : InputAxis} (mem : a ∈ t.axes) :
    a.marks ⊆ t.marks := by
  cases t with
  | axis b =>
    simp only [InputTerm.axes, List.mem_singleton] at mem
    subst mem
    exact List.Subset.refl _
  | ellipsis q => cases mem
  | group ms =>
    intro mk mkMem
    simp only [InputTerm.marks, List.mem_cons, List.mem_append, List.mem_flatMap]
    exact .inr (.inl ⟨a, mem, mkMem⟩)

theorem inputsMarks_of_term : ∀ {tss : List (List InputTerm)} {t : InputTerm},
    t ∈ tss.flatten → t.marks ⊆ inputsMarks tss
  | [], _, mem => by cases mem
  | [ts], t, mem => by
    intro mk mkMem
    simp only [List.flatten_cons, List.flatten_nil, List.append_nil] at mem
    simp only [inputsMarks, List.mem_append, List.mem_flatMap]
    exact .inl ⟨t, mem, mkMem⟩
  | ts :: us :: more, t, mem => by
    intro mk mkMem
    simp only [inputsMarks, List.mem_append, List.mem_cons, List.mem_flatMap]
    rcases List.mem_append.1 (List.flatten_cons ▸ mem) with here | later
    · exact .inl ⟨t, here, mkMem⟩
    · exact .inr (.inr (inputsMarks_of_term later mkMem))

section Tree

variable {toks : List Token} {p : PatternSyntax}

/-- The axes of the inputs are not called `..`, and their reductions need an order or
arithmetic. -/
theorem inputAxes_wellWritten (written : ∀ t ∈ toks, t.WellWritten)
    (fits : List.Forall₂ Token.Fits toks p.marks) :
    ∀ a ∈ p.inputAxes, a.name ≠ ellipsisName ∧
      (a.reduce ≠ .none → (Shape.isNumberReduction a.reduce || Shape.isOrderReduction a.reduce) = true) := by
  intro a mem
  obtain ⟨t, termMem, axisMem⟩ := List.mem_flatMap.1 mem
  have sub : a.marks ⊆ p.marks := fun mk mkMem =>
    List.mem_append_left _ (inputsMarks_of_term termMem (InputTerm.marks_of_axis axisMem mkMem))
  refine ⟨?_, fun reduced => ?_⟩
  · obtain ⟨q, identMem⟩ := a.ident_mem_marks
    obtain ⟨u, uMem, uFits⟩ := exists_fits_of_mem fits (sub identMem)
    obtain ⟨kind, text⟩ := Token.ident_of_fits uFits
    rw [← text]
    exact (written u uMem).1 kind
  · obtain ⟨q, keywordMem⟩ := a.keyword_mem_marks reduced
    obtain ⟨u, uMem, uFits⟩ := exists_fits_of_mem fits (sub keywordMem)
    obtain ⟨kind, op⟩ := Token.keyword_of_fits uFits
    rw [← op]
    exact (written u uMem).2 kind

/-- The named members of the output are not called `..`. -/
theorem outputAxes_wellWritten (written : ∀ t ∈ toks, t.WellWritten)
    (fits : List.Forall₂ Token.Fits toks p.marks) :
    ∀ x s q, OutputMember.axis x s q ∈ p.outputMembers → x ≠ ellipsisName := by
  intro x s q mem
  obtain ⟨term, termMem, memberMem⟩ := List.mem_flatMap.1 mem
  have sub : (OutputMember.axis x s q).marks ⊆ p.marks := by
    intro mk mkMem
    apply List.mem_append_right
    apply List.mem_flatMap.2 ⟨term, termMem, ?_⟩
    cases term with
    | single m =>
      simp only [OutputTerm.members, List.mem_singleton] at memberMem
      exact memberMem ▸ mkMem
    | group ms r =>
      simp only [OutputTerm.marks, List.mem_cons, List.mem_append, List.mem_flatMap]
      exact .inr (.inl ⟨_, memberMem, mkMem⟩)
  have identMem : (⟨.ident x, some q⟩ : Mark) ∈ (OutputMember.axis x s q).marks := by
    simp [OutputMember.marks]
  obtain ⟨u, uMem, uFits⟩ := exists_fits_of_mem fits (sub identMem)
  obtain ⟨kind, text⟩ := Token.ident_of_fits uFits
  rw [← text]
  exact (written u uMem).1 kind

end Tree

end Rearrange.Pattern
