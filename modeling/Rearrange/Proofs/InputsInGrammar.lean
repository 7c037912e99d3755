import Rearrange.Proofs.ReadInputs
import Rearrange.Proofs.Yields
/-!
# What the input side accepts is in the grammar

The other direction from `Rearrange.Proofs.ReadInputs`: when a reading function of the input
side succeeds, the tokens it consumed are the marks of some tree of the grammar. Each proof
follows the function's own recursion (`fun_induction`); the failing branches close at once.

Tokens made by the scanner never include the end marker, and a keyword always names a
reduction (`Token.Scanned`); the trees rely on the second fact, since a reduction is printed
with its keyword and a kept axis with its name.
-/
namespace Rearrange.Pattern

/-- A token as the scanner makes it: never the end marker, and a keyword names a reduction. -/
def Token.Scanned (t : Token) : Prop := t.kind ≠ .eof ∧ (t.kind = .keyword → t.op ≠ .none)

theorem Token.fits_at {t : Token} {l : Lexeme} (h : t.lexeme = l) : t.Fits ⟨l, some t.pos⟩ :=
  ⟨h, by simp⟩

theorem Token.fits_none {t : Token} {l : Lexeme} (h : t.lexeme = l) : t.Fits ⟨l, none⟩ :=
  ⟨h, by simp⟩

theorem Token.scanned_of_kind {t : Token} (notEof : t.kind ≠ .eof) (notKeyword : t.kind ≠ .keyword) :
    t.Scanned :=
  ⟨notEof, fun h => absurd h notKeyword⟩

theorem scanned_cons {t : Token} {toks : List Token} (head : t.Scanned)
    (tail : ∀ u ∈ toks, u.Scanned) : ∀ u ∈ t :: toks, u.Scanned := by
  intro u mem
  rcases List.mem_cons.1 mem with rfl | mem
  · exact head
  · exact tail u mem

theorem punctuation?_kind {b : UInt8} {k : TokenKind} (h : Token.punctuation? b = some k) :
    k ≠ .eof ∧ k ≠ .keyword := by
  unfold Token.punctuation? at h
  split at h
  · cases h; decide
  · split at h
    · cases h; decide
    · split at h
      · cases h; decide
      · split at h
        · cases h; decide
        · cases h

theorem ofKeyword?_ne_none {w : String} {op : Reduction} (h : Reduction.ofKeyword? w = some op) :
    op ≠ .none := by
  unfold Reduction.ofKeyword? at h
  split at h <;> cases h <;> decide

/-- The scanner makes only scanned tokens. -/
theorem scanFrom_scanned (pattern : String) (bytes : List UInt8) (pos : Nat) (toks : List Token)
    (ok : Token.scanFrom pattern bytes pos = .ok toks) : ∀ t ∈ toks, t.Scanned := by
  fun_induction Token.scanFrom pattern bytes pos generalizing toks
  case case1 => cases ok; simp
  case case2 ih => exact ih toks ok
  case case3 k punct ih =>
    obtain ⟨rest, restOk, rfl⟩ := Except.map_eq_ok.1 ok
    have kinds := punctuation?_kind punct
    exact scanned_cons (Token.scanned_of_kind kinds.1 kinds.2) (ih rest restOk)
  case case4 b pos notBlank notPunct dash rest' ih =>
    obtain ⟨rest, restOk, rfl⟩ := Except.map_eq_ok.1 ok
    exact scanned_cons (Token.scanned_of_kind (by simp) (by simp)) (ih rest restOk)
  case case6 b pos notBlank notPunct notDash dot rest' ih =>
    obtain ⟨rest, restOk, rfl⟩ := Except.map_eq_ok.1 ok
    exact scanned_cons (Token.scanned_of_kind (by simp) (by simp)) (ih rest restOk)
  case case7 b pos notBlank notPunct notDash dot rest' notThree ih =>
    obtain ⟨rest, restOk, rfl⟩ := Except.map_eq_ok.1 ok
    exact scanned_cons (Token.scanned_of_kind (by simp) (by simp)) (ih rest restOk)
  case case10 b rest pos notBlank notPunct notDash notDot digit ds rest' value fits ih =>
    obtain ⟨more, moreOk, rfl⟩ := Except.map_eq_ok.1 ok
    exact scanned_cons (Token.scanned_of_kind (by simp) (by simp)) (ih more moreOk)
  case case11 b rest pos notBlank notPunct notDash notDot notDigit start ds rest' word tok ih =>
    obtain ⟨more, moreOk, rfl⟩ := Except.map_eq_ok.1 ok
    have head : tok.Scanned := by
      simp only [tok]
      split
      · next op keyword => exact ⟨by simp, fun _ => ofKeyword?_ne_none keyword⟩
      · exact Token.scanned_of_kind (by simp) (by simp)
    exact scanned_cons head (ih more moreOk)
  all_goals cases ok

theorem scanBody_scanned {text : String} {toks : List Token} (ok : Token.scanBody text = .ok toks) :
    ∀ t ∈ toks, t.Scanned :=
  scanFrom_scanned text _ 0 toks ok

namespace Reader

variable (r : Reader)

theorem expect_ok {kind : TokenKind} {context : String} {toks : List Token}
    {res : Token × { u : List Token // u.length < toks.length }}
    (ok : r.expect kind context toks = .ok res) : toks = res.1 :: res.2.1 ∧ res.1.kind = kind := by
  unfold Reader.expect at ok
  split at ok
  · split at ok
    · cases ok
      exact ⟨rfl, by assumption⟩
    · cases ok
  · cases ok

theorem writtenSize_sound (name : String) {toks : List Token} {res : Int × Suffix toks}
    (ok : r.writtenSize name toks = .ok res) :
    ∃ s pre, toks = pre ++ res.2.1 ∧ List.Forall₂ Token.Fits pre (sizeMarks s) := by
  unfold Reader.writtenSize at ok
  split at ok
  · rename_i c rest
    split at ok
    · rename_i isColon
      obtain ⟨⟨sizeTok, u⟩, expected, ok⟩ := Except.bind_eq_ok.1 ok
      obtain ⟨restIs, isInt⟩ := r.expect_ok expected
      simp only at restIs isInt
      by_cases nonpos : sizeTok.value ≤ 0
      · simp [nonpos] at ok
        cases ok
      · simp only [nonpos, if_false] at ok
        cases ok
        refine ⟨some sizeTok.value, [c, sizeTok], by simp [restIs], ?_⟩
        exact .cons (Token.fits_none (by simp [Token.lexeme, isColon]))
          (.cons (Token.fits_none (by simp [Token.lexeme, isInt])) .nil)
    · cases ok
      exact ⟨none, [], rfl, .nil⟩
  · cases ok
    exact ⟨none, [], rfl, .nil⟩

theorem axisName_sound {ident : Token} {toks : List Token} {res : String × Int × Suffix toks}
    (ok : r.axisName ident toks = .ok res) :
    ∃ s pre, toks = pre ++ res.2.2.1 ∧ List.Forall₂ Token.Fits pre (sizeMarks s) ∧
      res.1 = ident.text := by
  unfold Reader.axisName at ok
  obtain ⟨⟨written, u⟩, writtenOk, ok⟩ := Except.bind_eq_ok.1 ok
  obtain ⟨size, _, ok⟩ := Except.bind_eq_ok.1 ok
  cases ok
  obtain ⟨s, pre, split, fits⟩ := r.writtenSize_sound ident.text writtenOk
  exact ⟨s, pre, split, fits, rfl⟩

theorem member_of_kind {t : Token} (kind : t.kind = .ident ∨ t.kind = .keyword)
    (scanned : t.Scanned) : t.kind = .ident ∨ (t.kind = .keyword ∧ t.op ≠ .none) := by
  rcases kind with kind | kind
  · exact .inl kind
  · exact .inr ⟨kind, scanned.2 kind⟩

theorem inputAxis_sound {t : Token} {rest : List Token} {res : Axis × Suffix rest}
    (member : t.kind = .ident ∨ (t.kind = .keyword ∧ t.op ≠ .none))
    (ok : r.inputAxis t rest = .ok res) :
    ∃ (a : InputAxis) (pre : List Token), rest = pre ++ res.2.1 ∧
      List.Forall₂ Token.Fits (t :: pre) a.marks := by
  unfold Reader.inputAxis at ok
  rcases member with isIdent | ⟨isKeyword, named⟩
  · have notKeyword : t.kind ≠ .keyword := by rw [isIdent]; decide
    rw [if_neg notKeyword] at ok
    obtain ⟨⟨name, size, u⟩, nameOk, ok⟩ := Except.bind_eq_ok.1 ok
    cases ok
    obtain ⟨s, pre, split, fits, -⟩ := r.axisName_sound nameOk
    refine ⟨{ name := t.text, size := s, pos := t.pos }, pre, split, ?_⟩
    simp only [InputAxis.marks, if_true]
    exact .cons (Token.fits_at (by simp [Token.lexeme, isIdent])) fits
  · rw [if_pos isKeyword] at ok
    obtain ⟨⟨l, u₁⟩, openOk, ok⟩ := Except.bind_eq_ok.1 ok
    obtain ⟨⟨i, u₂⟩, identOk, ok⟩ := Except.bind_eq_ok.1 ok
    obtain ⟨⟨name, size, u₃⟩, nameOk, ok⟩ := Except.bind_eq_ok.1 ok
    obtain ⟨⟨c, u₄⟩, closeOk, ok⟩ := Except.bind_eq_ok.1 ok
    cases ok
    obtain ⟨restIs, isOpen⟩ := r.expect_ok openOk
    obtain ⟨u₁Is, isIdent⟩ := r.expect_ok identOk
    obtain ⟨s, pre, split, fits, -⟩ := r.axisName_sound nameOk
    obtain ⟨u₃Is, isClose⟩ := r.expect_ok closeOk
    simp only at restIs isOpen u₁Is isIdent u₃Is isClose split
    refine ⟨{ name := i.text, size := s, reduce := t.op, pos := t.pos }, l :: i :: (pre ++ [c]),
      by simp [restIs, u₁Is, split, u₃Is], ?_⟩
    simp only [InputAxis.marks, named, if_false]
    exact .cons (Token.fits_at (by simp [Token.lexeme, isKeyword]))
      (.cons (Token.fits_none (by simp [Token.lexeme, isOpen]))
        (.cons (Token.fits_none (by simp [Token.lexeme, isIdent]))
          (List.rel_append fits (.cons (Token.fits_none (by simp [Token.lexeme, isClose])) .nil))))

/-- The members of a group that is read are the marks of a list of axes, and a `)` follows. -/
theorem groupMembers_sound (opening : Token) (first : Nat) (pos : Positions) (d : Decomposition)
    (derived : Option Nat) (siblings : Int) (sizeErr : Option Error) (toks : List Token)
    (res : Positions × Decomposition × Suffix toks) (scanned : ∀ t ∈ toks, t.Scanned)
    (ok : r.groupMembers opening first pos d derived siblings sizeErr toks = .ok res) :
    ∃ (ms : List InputAxis) (pre : List Token) (c : Token), toks = pre ++ c :: res.2.2.1 ∧
      List.Forall₂ Token.Fits pre (ms.flatMap InputAxis.marks) ∧ c.kind = .rparen := by
  fun_induction r.groupMembers opening first pos d derived siblings sizeErr toks
  case case3 pos d derived siblings t rest close axes dim =>
    cases ok
    exact ⟨[], [], t, rfl, .nil, close⟩
  case case4 pos d derived siblings sizeErr t rest kind ih
      | case5 pos d derived siblings sizeErr t rest kind ih =>
    obtain ⟨⟨axis, u⟩, axisOk, ok⟩ := Except.bind_eq_ok.1 ok
    simp only at ok
    obtain ⟨⟨pos'', d', u'⟩, recOk, ok⟩ := Except.bind_eq_ok.1 ok
    cases ok
    have member := member_of_kind (by simp [kind]) (scanned t (by simp))
    obtain ⟨a, pre₁, restIs, axisFits⟩ := r.inputAxis_sound member axisOk
    obtain ⟨ms, pre, c, split, fits, close⟩ := ih u _ _ _ _ _ _
      (fun t' mem => scanned t' (by simp [restIs, mem])) recOk
    refine ⟨a :: ms, t :: pre₁ ++ pre, c, by simp [restIs, split], ?_, close⟩
    rw [List.flatMap_cons]
    exact List.rel_append axisFits fits
  all_goals cases ok

/-- The items of an input that are read are the marks of a list of items. -/
theorem inputAxes_sound (pos : Positions) (d : Decomposition) (toks : List Token)
    (res : Positions × Decomposition × Suffix toks) (scanned : ∀ t ∈ toks, t.Scanned)
    (ok : r.inputAxes pos d toks = .ok res) :
    ∃ (ts : List InputTerm) (pre : List Token), toks = pre ++ res.2.2.1 ∧
      List.Forall₂ Token.Fits pre (ts.flatMap InputTerm.marks) := by
  fun_induction r.inputAxes pos d toks
  case case1 =>
    cases ok
    exact ⟨[], [], rfl, .nil⟩
  case case2 | case3 | case4 =>
    cases ok
    exact ⟨[], [], rfl, .nil⟩
  case case5 t rest kind ih | case6 t rest kind ih =>
    obtain ⟨⟨axis, u⟩, axisOk, ok⟩ := Except.bind_eq_ok.1 ok
    simp only at ok
    obtain ⟨⟨pos'', d'', u'⟩, recOk, ok⟩ := Except.bind_eq_ok.1 ok
    cases ok
    have member := member_of_kind (by simp [kind]) (scanned t (by simp))
    obtain ⟨a, pre₁, restIs, axisFits⟩ := r.inputAxis_sound member axisOk
    obtain ⟨ts, pre, split, fits⟩ :=
      ih axis u _ _ _ (fun t' mem => scanned t' (by simp [restIs, mem])) recOk
    refine ⟨.axis a :: ts, t :: pre₁ ++ pre, by simp [restIs, split], ?_⟩
    rw [List.flatMap_cons]
    exact List.rel_append axisFits fits
  case case7 t rest kind idx pos' take axis d' ih =>
    obtain ⟨⟨pos'', d'', u'⟩, recOk, ok⟩ := Except.bind_eq_ok.1 ok
    cases ok
    obtain ⟨ts, pre, split, fits⟩ := ih _ (fun t' mem => scanned t' (by simp [mem])) recOk
    refine ⟨.ellipsis t.pos :: ts, [t] ++ pre, by simp [split], ?_⟩
    rw [List.flatMap_cons]
    exact List.rel_append (.cons (Token.fits_at (by simp [Token.lexeme, kind])) .nil) fits
  case case8 t rest kind ih =>
    obtain ⟨⟨pos', d', u⟩, groupOk, ok⟩ := Except.bind_eq_ok.1 ok
    obtain ⟨⟨pos'', d'', u'⟩, recOk, ok⟩ := Except.bind_eq_ok.1 ok
    cases ok
    obtain ⟨ms, pre₁, c, restIs, membersFit, close⟩ := r.groupMembers_sound t _ _ _ none 1 none
      rest _ (fun t' mem => scanned t' (by simp [mem])) groupOk
    obtain ⟨ts, pre, split, fits⟩ :=
      ih pos' d' u _ (fun t' mem => scanned t' (by simp [restIs, mem])) recOk
    refine ⟨.group ms :: ts, t :: (pre₁ ++ [c]) ++ pre, by simp [restIs, split], ?_⟩
    rw [List.flatMap_cons]
    refine List.rel_append (.cons (Token.fits_none (by simp [Token.lexeme, kind])) ?_) fits
    exact List.rel_append membersFit (.cons (Token.fits_none (by simp [Token.lexeme, close])) .nil)
  all_goals cases ok
/-- The inputs that are read, up to and including the `->`, are the marks of the inputs of a
tree. -/
theorem inputs_sound (pos : Positions) (done : List Decomposition) (toks : List Token)
    (res : List Decomposition × List Token) (scanned : ∀ t ∈ toks, t.Scanned)
    (ok : r.inputs pos done toks = .ok res) :
    ∃ (tss : List (List InputTerm)) (pre : List Token), tss ≠ [] ∧ toks = pre ++ res.2 ∧
      List.Forall₂ Token.Fits pre (inputsMarks tss) := by
  fun_induction r.inputs pos done toks generalizing res
  case case1 pos done toks ih =>
    obtain ⟨⟨pos', d, u⟩, axesOk, ok⟩ := Except.bind_eq_ok.1 ok
    obtain ⟨ts, pre₁, split, termsFit⟩ := r.inputAxes_sound _ _ toks _ scanned axesOk
    simp only at ok split
    split at ok
    · cases ok
    · next t rest uIs =>
      split_ifs at ok with comma arrow
      · obtain ⟨tss, pre, nonempty, restIs, fits⟩ := ih pos' d u t rest uIs res
          (fun t' mem => scanned t' (by simp [split, uIs, mem])) ok
        obtain ⟨us, more, rfl⟩ := List.exists_cons_of_ne_nil nonempty
        refine ⟨ts :: us :: more, pre₁ ++ t :: pre, by simp, by simp [split, uIs, restIs], ?_⟩
        rw [inputsMarks]
        exact List.rel_append termsFit (.cons (Token.fits_none (by simp [Token.lexeme, comma])) fits)
      · cases ok
        refine ⟨[ts], pre₁ ++ [t], by simp, by simp [split, uIs], ?_⟩
        rw [inputsMarks]
        exact List.rel_append termsFit (.cons (Token.fits_none (by simp [Token.lexeme, arrow])) .nil)
end Reader

end Rearrange.Pattern
