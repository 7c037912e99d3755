import Rearrange.Proofs.Acceptance
import Rearrange.Proofs.ReadOutput
/-!
# The language of patterns

`Expression.parse` accepts exactly the patterns whose tokens are the marks of a tree of the
grammar that is accepted (`parse_ok_iff_accepted`). The two halves come from the reading of
trees: on tokens that fit a tree, the parser answers what the tree reads as
(`parse_toOption_of_fits`), and tokens that the parser reads fit some tree (`fits_of_parse`).
Since a tree is read exactly when it is accepted, the parser succeeds exactly on accepted trees.
-/
namespace Rearrange.Pattern

/-- On the tokens of a tree, the parser answers what the tree reads as. -/
theorem parse_toOption_of_fits {text : String} {n : Int} {sizes : List (String × Int)}
    {toks : List Token} {p : PatternSyntax} (scan : Token.scanBody text = .ok toks)
    (fits : List.Forall₂ Token.Fits toks p.marks) :
    (Expression.parse text n sizes).toOption = p.read text n sizes := by
  rw [PatternSyntax.marks] at fits
  obtain ⟨pre, post, rfl, inputsFit, outputFits⟩ := forall₂_append_right.1 fits
  let r : Reader := { pattern := text, endPos := text.utf8ByteSize, sizes }
  have inputs : (r.inputs {} [] (pre ++ post)).toOption = _ := r.inputs_fits p.inputs p.inputs_ne inputsFit
  unfold Expression.parse PatternSyntax.read
  simp only [scan, Except.toOption_bind, Except.toOption_ok_eq, Option.bind_some]
  rw [show ({ pattern := text, endPos := text.utf8ByteSize, sizes } : Reader) = r from rfl, inputs]
  cases read : readInputs sizes {} [] p.inputs with
  | none => simp
  | some ds =>
    simp only [Option.map_some, Option.bind_some]
    by_cases arity : (ds.length : Int) = n
    · simp only [arity, ne_eq, not_true_eq_false, if_false, Except.toOption_bind]
      cases built : NameTable.build text ds with
      | error e => simp [built]
      | ok names =>
        simp only [Except.toOption_ok_eq, Option.bind_some]
        rw [r.output_fits names p.output outputFits]
        simp [arity, built, r]
    · simp [arity]

/-- A pattern that the parser reads scans to the marks of some tree. -/
theorem fits_of_parse {text : String} {n : Int} {sizes : List (String × Int)} {e : Expression}
    (ok : Expression.parse text n sizes = .ok e) :
    ∃ toks, Token.scanBody text = .ok toks ∧ ∃ p : PatternSyntax, List.Forall₂ Token.Fits toks p.marks := by
  unfold Expression.parse at ok
  obtain ⟨toks, scan, ok⟩ := Except.bind_eq_ok.1 ok
  obtain ⟨⟨ds, rest⟩, inputsOk, ok⟩ := Except.bind_eq_ok.1 ok
  have scanned := scanBody_scanned scan
  obtain ⟨tss, pre, nonempty, split, inputsFit⟩ := Reader.inputs_sound _ {} [] toks _ scanned inputsOk
  by_cases arity : (ds.length : Int) = n
  · simp only [arity, ne_eq, not_true_eq_false, if_false] at ok
    obtain ⟨names, -, ok⟩ := Except.bind_eq_ok.1 ok
    obtain ⟨out, outputOk, -⟩ := Except.bind_eq_ok.1 ok
    have noEnd : ∀ t ∈ rest, t.kind ≠ .eof := fun t mem => (scanned t (by simp [split, mem])).1
    obtain ⟨ts, outputFits⟩ := Reader.output_sound _ names {} rest out noEnd outputOk
    refine ⟨toks, scan, ⟨tss, ts, nonempty⟩, ?_⟩
    rw [split, PatternSyntax.marks]
    exact List.rel_append inputsFit outputFits
  · simp only [arity, ne_eq, not_false_eq_true, if_true] at ok
    cases ok

/-- The parser accepts exactly its language: a pattern is read for `n` inputs with the axis sizes
`sizes` exactly when it scans, its tokens are the marks of a tree of the grammar, and the tree
is accepted. -/
theorem parse_ok_iff_accepted (text : String) (n : Int) (sizes : List (String × Int)) :
    (∃ e, Expression.parse text n sizes = .ok e) ↔
      ∃ toks, Token.scanBody text = .ok toks ∧
        ∃ p : PatternSyntax, List.Forall₂ Token.Fits toks p.marks ∧ p.Accepted n sizes := by
  constructor
  · rintro ⟨e, ok⟩
    obtain ⟨toks, scan, p, fits⟩ := fits_of_parse ok
    have read : (Expression.parse text n sizes).toOption = p.read text n sizes :=
      parse_toOption_of_fits scan fits
    rw [ok] at read
    exact ⟨toks, scan, p, fits, (p.read_isSome_iff text n sizes).1 (by simp [← read])⟩
  · rintro ⟨toks, scan, p, fits, acc⟩
    have read : (Expression.parse text n sizes).toOption = p.read text n sizes :=
      parse_toOption_of_fits scan fits
    have isSome := (p.read_isSome_iff text n sizes).2 acc
    rw [← read] at isSome
    cases parsed : Expression.parse text n sizes with
    | ok e => exact ⟨e, rfl⟩
    | error err => simp [parsed] at isSome

end Rearrange.Pattern
