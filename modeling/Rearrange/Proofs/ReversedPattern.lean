import Rearrange.Proofs.Lexing
/-!
# Patterns read the other way round

The pattern `R -> L` reads back the pattern `L -> R`. A blank cuts a scan in two
(`Token.scanFrom_append_blank`), and what a scan reads does not depend on where it starts
(`Token.scanFrom_relocate`), so the tokens of `L -> R` are those of `L`, the arrow and those of `R`
(`Token.scanBody_arrow`).

The grammar reads each side in one way only: an input side and an output side with the same
lexemes mirror each other item by item (`mirrors_of_lexemes`), an axis alone for an axis alone with
its written size, the ellipsis for the ellipsis and a group of axes for a group of axes
(`InputTerm.Mirrors`). So the trees of `L -> R` and of `R -> L`, each with one input, have each
side of one written as the other side of the other (`PatternSyntax.mirrors_of_reversed`).
-/
namespace Rearrange.Pattern

section Lists

theorem byteArray_toList_loop (bs : ByteArray) (i : Nat) (r : List UInt8) :
    ByteArray.toList.loop bs i r = r.reverse ++ bs.data.toList.drop i := by
  fun_induction ByteArray.toList.loop bs i r with
  | case1 i r lt ih =>
    have within : i < bs.data.toList.length := by rw [Array.length_toList]; exact lt
    rw [ih, List.reverse_cons, List.append_assoc, List.singleton_append, List.drop_eq_getElem_cons within]
    simp [ByteArray.get!, lt]
  | case2 i r ge =>
    have past : bs.data.toList.length ≤ i := by rw [Array.length_toList]; exact Nat.le_of_not_lt ge
    simp [List.drop_eq_nil_of_le past]

theorem byteArray_toList (bs : ByteArray) : bs.toList = bs.data.toList := by
  simp [ByteArray.toList, byteArray_toList_loop]

theorem toUTF8_append (s t : String) : (s ++ t).toUTF8.toList = s.toUTF8.toList ++ t.toUTF8.toList := by
  rw [show (s ++ t).toUTF8 = s.toUTF8 ++ t.toUTF8 from ByteArray.ext rfl]
  simp [byteArray_toList]

theorem takeWhile_append_cons {α : Type} {p : α → Bool} {b : α} (stop : p b = false) :
    ∀ (xs ys : List α), (xs ++ b :: ys).takeWhile p = xs.takeWhile p
  | [], ys => by simp [stop]
  | x :: xs, ys => by
    by_cases h : p x <;> simp [h, takeWhile_append_cons stop xs ys]

theorem prefix_of_append_cons {α : Type} {l xs ys : List α} {b : α} (h : l <+: xs ++ b :: ys) (hb : b ∉ l) :
    l <+: xs := by
  induction xs generalizing l with
  | nil =>
    rcases List.prefix_cons_iff.1 h with rfl | ⟨t, rfl, -⟩
    · exact List.nil_prefix
    · simp at hb
  | cons x xs ih =>
    rcases List.prefix_cons_iff.1 h with rfl | ⟨t, rfl, rest⟩
    · exact List.nil_prefix
    · exact List.cons_prefix_cons.2 ⟨rfl, ih rest fun mem => hb (List.mem_cons_of_mem x mem)⟩

theorem append_cons_cancel {α : Type} {a : α} : ∀ {X Y X' Y' : List α}, X ++ a :: Y = X' ++ a :: Y' →
    a ∉ X → a ∉ Y → X = X' ∧ Y = Y'
  | [], Y, [], Y', h, _, _ => by simpa using h
  | [], Y, x' :: X', Y', h, _, hY => by
    obtain ⟨rfl, rfl⟩ := List.cons.inj h
    simp at hY
  | x :: X, Y, [], Y', h, hX, _ => by
    obtain ⟨rfl, -⟩ := List.cons.inj h
    simp at hX
  | x :: X, Y, x' :: X', Y', h, hX, hY => by
    obtain ⟨rfl, rest⟩ := List.cons.inj h
    obtain ⟨rfl, rfl⟩ := append_cons_cancel rest (fun mem => hX (List.mem_cons_of_mem x mem)) hY
    exact ⟨rfl, rfl⟩

end Lists

namespace Token

theorem blank_classes {b : UInt8} (blank : isBlank b = true) :
    Text.isDigitByte b = false ∧ Text.isIdentifierByte b = false ∧ b ≠ 46 := by
  simp [isBlank, UInt8.ext_iff] at blank
  simp [Text.isDigitByte, isIdentifierByte_eq, isNameStart, UInt8.le_iff_toNat_le, UInt8.ext_iff]
  omega

namespace Heads

variable {bs : List UInt8} {t : Token}

/-- No token holds a blank. -/
theorem not_blank (h : t.Heads bs) : ∀ c ∈ t.bytes, isBlank c = false := by
  have form := h.form
  unfold Form at form
  split at form
  case h_1 => exact form.elim
  case h_7 =>
    rw [form]
    split <;> simp [isBlank]
  case h_8 =>
    rw [form.2.1]
    exact fun c mem => (digit_classes (List.mem_takeWhile_imp mem)).1
  case h_9 | h_10 =>
    rw [form.2.1]
    intro c mem
    have ident := List.mem_takeWhile_imp mem
    rw [isIdentifierByte_eq, Bool.or_eq_true] at ident
    rcases ident with start | digit
    · exact (nameStart_classes start).1
    · exact (digit_classes digit).1
  all_goals rw [form]; simp [isBlank]

/-- A token read before a blank is read the same from the bytes up to the blank. -/
theorem of_append_blank {xs ys : List UInt8} {b : UInt8} (h : t.Heads (xs ++ b :: ys))
    (blank : isBlank b = true) : t.Heads xs := by
  have isPrefix : t.bytes <+: xs := prefix_of_append_cons h.isPrefix fun mem => by
    simp [h.not_blank b mem] at blank
  obtain ⟨digit, ident, dot⟩ := blank_classes blank
  refine ⟨isPrefix, ?_, h.value_eq, h.op_eq⟩
  have form := h.form
  unfold Form at form ⊢
  split at form
  case h_7 =>
    have three : (xs ++ b :: ys).take 3 = [46, 46, 46] ↔ xs.take 3 = [46, 46, 46] := by
      rcases xs with _ | ⟨x, _ | ⟨y, _ | ⟨z, r⟩⟩⟩ <;> simp [dot]
    simpa only [three] using form
  case h_8 => rwa [takeWhile_append_cons digit] at form
  case h_9 | h_10 => rwa [takeWhile_append_cons ident] at form
  all_goals exact form

end Heads

@[simp] theorem lexeme_withPos (t : Token) (p : Nat) : ({ t with pos := p } : Token).lexeme = t.lexeme := by
  cases t
  rfl

variable (pattern : String)

/-- Bytes that scan, scanned from any offset and for any pattern, give tokens of the same
lexemes. -/
theorem scanFrom_relocate (pattern' : String) : ∀ {bs : List UInt8} {pos : Nat} {toks : List Token},
    scanFrom pattern bs pos = .ok toks → ∀ pos' : Nat,
    ∃ toks', scanFrom pattern' bs pos' = .ok toks' ∧ toks'.map lexeme = toks.map lexeme
  | [], pos, toks, h, pos' => by
    rw [scanFrom.eq_def] at h ⊢
    cases h
    exact ⟨[], rfl, rfl⟩
  | b :: rest, pos, toks, h, pos' => by
    rcases heads_or_startsNone b rest with blank | ⟨t, heads⟩ | none
    · rw [scanFrom_blank pattern _ blank] at h
      rw [scanFrom_blank pattern' _ blank]
      exact scanFrom_relocate pattern' h (pos' + 1)
    · rw [scanFrom_heads pattern _ heads] at h
      rw [scanFrom_heads pattern' _ heads]
      obtain ⟨more, moreOk, rfl⟩ := Except.map_eq_ok.1 h
      have grows := List.length_pos_of_ne_nil heads.bytes_ne_nil
      obtain ⟨more', moreOk', same⟩ := scanFrom_relocate pattern' moreOk (pos' + t.bytes.length)
      rw [moreOk']
      exact ⟨_, rfl, by simp [same]⟩
    · obtain ⟨e, err, -⟩ := scanFrom_startsNone pattern pos none
      rw [err] at h
      cases h
termination_by bs => bs.length

/-- A scan that reads past a blank reads the bytes before it and the bytes after it apart. -/
theorem scanFrom_append_blank {ys : List UInt8} {b : UInt8} (blank : isBlank b = true) :
    ∀ {xs : List UInt8} {pos : Nat} {toks : List Token}, scanFrom pattern (xs ++ b :: ys) pos = .ok toks →
    ∃ front back, scanFrom pattern xs pos = .ok front ∧
      scanFrom pattern ys (pos + xs.length + 1) = .ok back ∧ toks = front ++ back
  | [], pos, toks, h => by
    rw [List.nil_append, scanFrom_blank pattern _ blank] at h
    refine ⟨[], toks, ?_, by simpa using h, rfl⟩
    rw [scanFrom.eq_def]
  | x :: xs, pos, toks, h => by
    rcases heads_or_startsNone x (xs ++ b :: ys) with blank' | ⟨t, heads⟩ | none
    · rw [List.cons_append, scanFrom_blank pattern _ blank'] at h
      obtain ⟨front, back, frontOk, backOk, rfl⟩ := scanFrom_append_blank blank h
      refine ⟨front, back, ?_, ?_, rfl⟩
      · rw [scanFrom_blank pattern _ blank', frontOk]
      · rw [← backOk]
        simp only [List.length_cons]
        congr 1
        omega
    · have before : t.Heads (x :: xs) := Heads.of_append_blank (show t.Heads ((x :: xs) ++ b :: ys) from heads) blank
      rw [List.cons_append, scanFrom_heads pattern _ heads] at h
      obtain ⟨more, moreOk, rfl⟩ := Except.map_eq_ok.1 h
      have within : t.bytes.length ≤ (x :: xs).length := before.isPrefix.length_le
      have split : (x :: (xs ++ b :: ys)).drop t.bytes.length = (x :: xs).drop t.bytes.length ++ b :: ys := by
        rw [← List.cons_append, List.drop_append_of_le_length within]
      rw [split] at moreOk
      have grows := List.length_pos_of_ne_nil heads.bytes_ne_nil
      obtain ⟨front, back, frontOk, backOk, rfl⟩ := scanFrom_append_blank blank moreOk
      refine ⟨{ t with pos } :: front, back, ?_, ?_, rfl⟩
      · rw [scanFrom_heads pattern _ before, frontOk]
        rfl
      · rw [← backOk, List.length_drop]
        congr 1
        omega
    · obtain ⟨e, err, -⟩ := scanFrom_startsNone pattern pos none
      rw [List.cons_append, err] at h
      cases h
termination_by xs => xs.length

/-- The tokens of `L -> R` are those of `L`, the arrow and those of `R`. -/
theorem scanBody_arrow {lhs rhs : String} {toks : List Token}
    (h : scanBody (lhs ++ " -> " ++ rhs) = .ok toks) :
    ∃ front back, scanBody lhs = .ok front ∧ scanBody rhs = .ok back ∧
      toks.map lexeme = front.map lexeme ++ .arrow :: back.map lexeme := by
  have bytes : (lhs ++ " -> " ++ rhs).toUTF8.toList =
      lhs.toUTF8.toList ++ 32 :: 45 :: 62 :: 32 :: rhs.toUTF8.toList := by
    rw [toUTF8_append, toUTF8_append, show " -> ".toUTF8.toList = [32, 45, 62, 32] by
      simp [byteArray_toList]; rfl]
    simp
  rw [scanBody, bytes] at h
  obtain ⟨front, rest, frontOk, restOk, rfl⟩ := scanFrom_append_blank _ (b := 32) rfl h
  rw [scanFrom_arrow, scanFrom_blank _ _ rfl] at restOk
  obtain ⟨back, backOk, rfl⟩ := Except.map_eq_ok.1 restOk
  obtain ⟨front', frontOk', sameFront⟩ := scanFrom_relocate _ lhs frontOk 0
  obtain ⟨back', backOk', sameBack⟩ := scanFrom_relocate _ rhs backOk 0
  refine ⟨front', back', frontOk', backOk', ?_⟩
  simp [sameFront, sameBack, lexeme]

end Token

/-- An axis of an input group written as a member of an output group: the same name and written
size, and no reduction. -/
def InputAxis.Mirrors (a : InputAxis) (m : OutputMember) : Prop :=
  a.reduce = .none ∧ ∃ q, m = .axis a.name a.size q

/-- An item of an input side written as a slot of an output side, whatever the offsets: an axis
alone, the ellipsis, or a group of axes. -/
def InputTerm.Mirrors : InputTerm → OutputTerm → Prop
  | .axis a, .single m => a.Mirrors m
  | .ellipsis _, .single m => ∃ q, m = .ellipsis q
  | .group ms, .group ns _ => List.Forall₂ InputAxis.Mirrors ms ns
  | _, _ => False

section Lexemes

theorem sizeMarks_cancel {s s' : Option Int} {R R' : List Lexeme}
    (h : (sizeMarks s).map Mark.lexeme ++ R = (sizeMarks s').map Mark.lexeme ++ R')
    (hR : R.head? ≠ some .colon) (hR' : R'.head? ≠ some .colon) : s = s' ∧ R = R' := by
  cases s <;> cases s' <;> simp [sizeMarks] at h
  case none.none => exact ⟨rfl, h⟩
  case none.some k => simp [h] at hR
  case some.none k => simp [← h] at hR'
  case some.some k k' => exact ⟨by rw [h.1], h.2⟩

theorem InputAxis.head_marks (ms : List InputAxis) (X : List Lexeme) :
    ((ms.flatMap InputAxis.marks).map Mark.lexeme ++ .rparen :: X).head? ≠ some .colon := by
  cases ms with
  | nil => simp
  | cons a ms =>
    simp only [List.flatMap_cons, InputAxis.marks]
    split <;> simp

theorem OutputMember.head_marks (ns : List OutputMember) (Y : List Lexeme) :
    ((ns.flatMap OutputMember.marks).map Mark.lexeme ++ .rparen :: Y).head? ≠ some .colon := by
  cases ns with
  | nil => simp
  | cons n ns => cases n <;> simp [OutputMember.marks]

theorem InputTerm.head_marks (ts : List InputTerm) :
    ((ts.flatMap InputTerm.marks).map Mark.lexeme).head? ≠ some .colon := by
  cases ts with
  | nil => simp
  | cons t ts =>
    cases t with
    | axis a =>
      simp only [List.flatMap_cons, InputTerm.marks, InputAxis.marks]
      split <;> simp
    | ellipsis q => simp [InputTerm.marks]
    | group ms => simp [InputTerm.marks]

theorem OutputTerm.head_marks (os : List OutputTerm) :
    ((os.flatMap OutputTerm.marks).map Mark.lexeme).head? ≠ some .colon := by
  cases os with
  | nil => simp
  | cons o os =>
    cases o with
    | single m => cases m <;> simp [OutputTerm.marks, OutputMember.marks]
    | group ns q => simp [OutputTerm.marks]

/-- An input axis and an output member with the same lexemes, each followed by something that is
no written size, are the same axis. -/
theorem InputAxis.mirrors_of_lexemes {a : InputAxis} {m : OutputMember} {R R' : List Lexeme}
    (h : a.marks.map Mark.lexeme ++ R = m.marks.map Mark.lexeme ++ R')
    (hR : R.head? ≠ some .colon) (hR' : R'.head? ≠ some .colon) : a.Mirrors m ∧ R = R' := by
  unfold InputAxis.marks at h
  split at h
  case isTrue plain =>
    cases m with
    | axis x s q =>
      simp only [OutputMember.marks, List.map_cons, List.cons_append, List.cons.injEq,
        Lexeme.ident.injEq] at h
      obtain ⟨rfl, sizes⟩ := h
      obtain ⟨rfl, rfl⟩ := sizeMarks_cancel sizes hR hR'
      exact ⟨⟨plain, q, rfl⟩, rfl⟩
    | int v q => simp [OutputMember.marks] at h
    | ellipsis q => simp [OutputMember.marks] at h
  case isFalse reduced => cases m <;> simp [OutputMember.marks] at h

/-- The members of an input group and of an output group with the same lexemes up to the closing
parenthesis are the same axes, and what follows is the same. -/
theorem members_mirror : ∀ (ms : List InputAxis) (ns : List OutputMember) (X Y : List Lexeme),
    (ms.flatMap InputAxis.marks).map Mark.lexeme ++ .rparen :: X =
      (ns.flatMap OutputMember.marks).map Mark.lexeme ++ .rparen :: Y →
    List.Forall₂ InputAxis.Mirrors ms ns ∧ X = Y
  | [], [], X, Y, h => ⟨.nil, by simpa using h⟩
  | [], n :: ns, X, Y, h => by cases n <;> simp [OutputMember.marks] at h
  | a :: ms, [], X, Y, h => by
    simp only [List.flatMap_cons, InputAxis.marks] at h
    split at h <;> simp at h
  | a :: ms, n :: ns, X, Y, h => by
    simp only [List.flatMap_cons, List.map_append, List.append_assoc] at h
    obtain ⟨mirrors, rest⟩ := InputAxis.mirrors_of_lexemes h (InputAxis.head_marks ms X)
      (OutputMember.head_marks ns Y)
    obtain ⟨others, same⟩ := members_mirror ms ns X Y rest
    exact ⟨.cons mirrors others, same⟩

/-- An input item and an output slot with the same lexemes, each followed by something that is no
written size, mirror each other. -/
theorem InputTerm.mirrors_of_lexemes {t : InputTerm} {o : OutputTerm} {R R' : List Lexeme}
    (h : t.marks.map Mark.lexeme ++ R = o.marks.map Mark.lexeme ++ R')
    (hR : R.head? ≠ some .colon) (hR' : R'.head? ≠ some .colon) : t.Mirrors o ∧ R = R' := by
  cases t with
  | axis a =>
    cases o with
    | single m => exact InputAxis.mirrors_of_lexemes h hR hR'
    | group ns q =>
      simp only [InputTerm.marks, OutputTerm.marks, InputAxis.marks] at h
      split at h <;> simp at h
  | ellipsis p =>
    cases o with
    | single m =>
      cases m with
      | ellipsis q =>
        exact ⟨⟨q, rfl⟩, by simpa [InputTerm.marks, OutputTerm.marks, OutputMember.marks] using h⟩
      | axis x s q => simp [InputTerm.marks, OutputTerm.marks, OutputMember.marks] at h
      | int v q => simp [InputTerm.marks, OutputTerm.marks, OutputMember.marks] at h
    | group ns q => simp [InputTerm.marks, OutputTerm.marks] at h
  | group ms =>
    cases o with
    | single m => cases m <;> simp [InputTerm.marks, OutputTerm.marks, OutputMember.marks] at h
    | group ns q =>
      simp only [InputTerm.marks, OutputTerm.marks, List.map_cons, List.map_append, List.cons_append,
        List.append_assoc, List.cons.injEq, true_and, List.map_nil, List.nil_append] at h
      exact members_mirror ms ns R R' h

/-- An input side and an output side with the same lexemes mirror each other item by item. -/
theorem mirrors_of_lexemes : ∀ (ts : List InputTerm) (os : List OutputTerm),
    (ts.flatMap InputTerm.marks).map Mark.lexeme = (os.flatMap OutputTerm.marks).map Mark.lexeme →
    List.Forall₂ InputTerm.Mirrors ts os
  | [], [], _ => .nil
  | [], o :: os, h => by
    cases o with
    | single m => cases m <;> simp [OutputTerm.marks, OutputMember.marks] at h
    | group ns q => simp [OutputTerm.marks] at h
  | t :: ts, [], h => by
    cases t with
    | axis a =>
      simp only [List.flatMap_cons, InputTerm.marks, InputAxis.marks] at h
      split at h <;> simp at h
    | ellipsis q => simp [InputTerm.marks] at h
    | group ms => simp [InputTerm.marks] at h
  | t :: ts, o :: os, h => by
    simp only [List.flatMap_cons, List.map_append] at h
    obtain ⟨mirrors, rest⟩ := InputTerm.mirrors_of_lexemes h (InputTerm.head_marks ts) (OutputTerm.head_marks os)
    exact .cons mirrors (mirrors_of_lexemes ts os rest)

theorem sizeMarks_no_arrow (s : Option Int) : ∀ mk ∈ sizeMarks s, mk.lexeme ≠ .arrow := by
  cases s <;> simp [sizeMarks]

theorem InputAxis.no_arrow (a : InputAxis) : ∀ mk ∈ a.marks, mk.lexeme ≠ .arrow := by
  have sized := sizeMarks_no_arrow a.size
  unfold InputAxis.marks
  split
  · simpa using sized
  · intro mk mem
    simp only [List.mem_cons, List.mem_append, List.not_mem_nil, or_false] at mem
    rcases mem with rfl | rfl | rfl | mem | rfl
    · simp
    · simp
    · simp
    · exact sized mk mem
    · simp

theorem OutputMember.no_arrow (m : OutputMember) : ∀ mk ∈ m.marks, mk.lexeme ≠ .arrow := by
  cases m with
  | axis x s q => simpa [OutputMember.marks] using sizeMarks_no_arrow s
  | int v q => simp [OutputMember.marks]
  | ellipsis q => simp [OutputMember.marks]

theorem arrow_not_mem_inputs (ts : List InputTerm) :
    Lexeme.arrow ∉ (ts.flatMap InputTerm.marks).map Mark.lexeme := by
  simp only [List.map_flatMap, List.mem_flatMap, not_exists, not_and]
  intro t _
  cases t with
  | axis a => simpa [InputTerm.marks] using InputAxis.no_arrow a
  | ellipsis q => simp [InputTerm.marks]
  | group ms =>
    simp only [InputTerm.marks, List.map_cons, List.map_append, List.map_flatMap, List.mem_cons,
      List.mem_append, List.mem_flatMap, reduceCtorEq, false_or, not_or, not_exists, not_and]
    exact ⟨fun a _ => by simpa using InputAxis.no_arrow a, by simp⟩

theorem arrow_not_mem_output (os : List OutputTerm) :
    Lexeme.arrow ∉ (os.flatMap OutputTerm.marks).map Mark.lexeme := by
  simp only [List.map_flatMap, List.mem_flatMap, not_exists, not_and]
  intro o _
  cases o with
  | single m => simpa [OutputTerm.marks] using OutputMember.no_arrow m
  | group ns q =>
    simp only [OutputTerm.marks, List.map_cons, List.map_append, List.map_flatMap, List.mem_cons,
      List.mem_append, List.mem_flatMap, reduceCtorEq, false_or, not_or, not_exists, not_and]
    exact ⟨fun n _ => by simpa using OutputMember.no_arrow n, by simp⟩

end Lexemes

theorem Token.lexemes_of_fits {toks : List Token} {mks : List Mark} (fits : List.Forall₂ Token.Fits toks mks) :
    toks.map Token.lexeme = mks.map Mark.lexeme := by
  induction fits with
  | nil => rfl
  | cons head _ ih => simp [head.1, ih]

namespace PatternSyntax

theorem sides_of_lexemes {p : PatternSyntax} {ts : List InputTerm} (single : p.inputs = [ts])
    {X Y : List Lexeme} (h : p.marks.map Mark.lexeme = X ++ .arrow :: Y) :
    (ts.flatMap InputTerm.marks).map Mark.lexeme = X ∧ (p.output.flatMap OutputTerm.marks).map Mark.lexeme = Y := by
  rw [PatternSyntax.marks, single, inputsMarks] at h
  simp only [List.map_append, List.map_cons, List.append_assoc, List.singleton_append] at h
  exact append_cons_cancel h (arrow_not_mem_inputs ts) (arrow_not_mem_output p.output)

theorem mirrors_of_swapped {p q : PatternSyntax} {ts us : List InputTerm} (hp : p.inputs = [ts])
    (hq : q.inputs = [us]) {X Y : List Lexeme} (lp : p.marks.map Mark.lexeme = X ++ .arrow :: Y)
    (lq : q.marks.map Mark.lexeme = Y ++ .arrow :: X) :
    List.Forall₂ InputTerm.Mirrors ts q.output ∧ List.Forall₂ InputTerm.Mirrors us p.output := by
  obtain ⟨pIn, pOut⟩ := sides_of_lexemes hp lp
  obtain ⟨qIn, qOut⟩ := sides_of_lexemes hq lq
  exact ⟨mirrors_of_lexemes ts q.output (pIn.trans qOut.symm),
    mirrors_of_lexemes us p.output (qIn.trans pOut.symm)⟩

/-- The trees of `L -> R` and of `R -> L`, each with one input, mirror each other. -/
theorem mirrors_of_reversed {lhs rhs : String} {toks toks' : List Token} {p q : PatternSyntax}
    {ts us : List InputTerm} (scan : Token.scanBody (lhs ++ " -> " ++ rhs) = .ok toks)
    (fits : List.Forall₂ Token.Fits toks p.marks) (scan' : Token.scanBody (rhs ++ " -> " ++ lhs) = .ok toks')
    (fits' : List.Forall₂ Token.Fits toks' q.marks) (hp : p.inputs = [ts]) (hq : q.inputs = [us]) :
    List.Forall₂ InputTerm.Mirrors ts q.output ∧ List.Forall₂ InputTerm.Mirrors us p.output := by
  obtain ⟨left, right, leftOk, rightOk, lexemes⟩ := Token.scanBody_arrow scan
  obtain ⟨right', left', rightOk', leftOk', lexemes'⟩ := Token.scanBody_arrow scan'
  rw [rightOk, Except.ok.injEq] at rightOk'
  rw [leftOk, Except.ok.injEq] at leftOk'
  subst rightOk' leftOk'
  exact mirrors_of_swapped hp hq ((Token.lexemes_of_fits fits).symm.trans lexemes)
    ((Token.lexemes_of_fits fits').symm.trans lexemes')

end PatternSyntax

end Rearrange.Pattern
