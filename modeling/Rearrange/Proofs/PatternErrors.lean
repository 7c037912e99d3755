import Rearrange.Proofs.InputsInGrammar
import Rearrange.Pattern.Parse
/-!
# Errors of a pattern

Reading a pattern fails only with an error of the pattern itself: a byte that starts no token, a
token out of place, a size, a group, a name or the number of inputs. None of these reports a plan
found inconsistent, the kind the planner keeps for its own final check
(`Expression.parse_error_ofPattern`).

Each reading function is followed along its own recursion: an error is either made on the spot,
with a fixed kind, or passed on from a reading it calls.
-/
namespace Rearrange

namespace Except

variable {ε α β : Type}

theorem bind_eq_error {x : Except ε α} {f : α → Except ε β} {e : ε} :
    (x >>= f) = .error e ↔ x = .error e ∨ ∃ a, x = .ok a ∧ f a = .error e := by
  cases x <;> simp [bind, Except.bind]

theorem map_eq_error {x : Except ε α} {f : α → β} {e : ε} : f <$> x = .error e ↔ x = .error e := by
  cases x <;> simp [Functor.map, Except.map]

theorem foldlM_error {f : β → α → Except ε β} {P : ε → Prop} (round : ∀ b x e, f b x = .error e → P e) :
    ∀ (xs : List α) (b : β) (e : ε), xs.foldlM f b = .error e → P e
  | [], b, e, h => by cases h
  | x :: xs, b, e, h => by
    rw [List.foldlM_cons] at h
    rcases bind_eq_error.1 h with h | ⟨b', -, h⟩
    · exact round b x e h
    · exact foldlM_error round xs b' e h

theorem ite_throw_error {c : Prop} [Decidable c] {e e' : ε} {k : PUnit → Except ε β}
    (h : (if c then (throw e >>= k) else k PUnit.unit) = .error e') :
    (c ∧ e' = e) ∨ (¬c ∧ k PUnit.unit = .error e') := by
  split at h
  · cases h
    exact .inl ⟨‹_›, rfl⟩
  · exact .inr ⟨‹_›, h⟩

end Except

/-- An error of the pattern: of any kind but the report of an inconsistent plan. -/
def Error.OfPattern (err : Error) : Prop := err.kind ≠ .planInconsistent

namespace Pattern

namespace Token

theorem scanFrom_error (pattern : String) (bytes : List UInt8) (pos : Nat) {err : Error}
    (h : scanFrom pattern bytes pos = .error err) : err.OfPattern := by
  fun_induction scanFrom pattern bytes pos
  any_goals simp_all only [Except.map_eq_error, reduceCtorEq]
  -- every other error is made on the spot, with a fixed kind
  all_goals
    cases h
    simp [scanError, Error.OfPattern]

end Token

namespace Reader

variable (r : Reader)

theorem fail_ofPattern {kind : ErrorKind} (ne : kind ≠ .planInconsistent) (t : Token) (msg : String) :
    (r.fail kind t msg).OfPattern := ne

theorem mismatch_ofPattern (kind : TokenKind) (context : String) (t : Token) :
    (r.mismatch kind context t).OfPattern := by
  unfold mismatch
  split <;> exact r.fail_ofPattern (by decide) _ _

theorem expect_error {kind : TokenKind} {context : String} {err : Error} :
    ∀ {toks : List Token}, r.expect kind context toks = .error err → err.OfPattern
  | [], h => by
    cases h
    exact r.mismatch_ofPattern _ _ _
  | t :: rest, h => by
    rw [expect] at h
    split at h
    · cases h
    · cases h
      exact r.mismatch_ofPattern _ _ _

theorem writtenSize_error {name : String} {err : Error} :
    ∀ {toks : List Token}, r.writtenSize name toks = .error err → err.OfPattern
  | [], h => by cases h
  | c :: rest, h => by
    rw [writtenSize] at h
    split at h
    · rcases Except.bind_eq_error.1 h with first | ⟨⟨sizeTok, u⟩, -, h⟩
      · exact r.expect_error first
      · dsimp only at h
        rcases Except.ite_throw_error h with ⟨-, rfl⟩ | ⟨-, h⟩
        · exact r.fail_ofPattern (by decide) _ _
        · cases h
    · cases h

theorem settleSize_error {ident : Token} {name : String} {written : Int} {err : Error}
    (h : r.settleSize ident name written = .error err) : err.OfPattern := by
  unfold settleSize at h
  split at h
  · split at h
    · cases h
      exact r.fail_ofPattern (by decide) _ _
    · split at h
      · cases h
        exact r.fail_ofPattern (by decide) _ _
      · cases h
  · cases h

theorem axisName_error {ident : Token} {toks : List Token} {err : Error}
    (h : r.axisName ident toks = .error err) : err.OfPattern := by
  unfold axisName at h
  rcases Except.bind_eq_error.1 h with h | ⟨⟨written, u⟩, -, h⟩
  · exact r.writtenSize_error h
  rcases Except.bind_eq_error.1 h with h | ⟨_, -, h⟩
  · exact r.settleSize_error h
  · cases h

theorem inputAxis_error {t : Token} {rest : List Token} {err : Error}
    (h : r.inputAxis t rest = .error err) : err.OfPattern := by
  unfold inputAxis at h
  split at h
  · rcases Except.bind_eq_error.1 h with h | ⟨⟨_, u1⟩, -, h⟩
    · exact r.expect_error h
    rcases Except.bind_eq_error.1 h with h | ⟨⟨ident, u2⟩, -, h⟩
    · exact r.expect_error h
    rcases Except.bind_eq_error.1 h with h | ⟨⟨name, size, u3⟩, -, h⟩
    · exact r.axisName_error h
    rcases Except.bind_eq_error.1 h with h | ⟨⟨_, u4⟩, -, h⟩
    · exact r.expect_error h
    · cases h
  · rcases Except.bind_eq_error.1 h with h | ⟨⟨name, size, u⟩, -, h⟩
    · exact r.axisName_error h
    · cases h

/-- The error a group keeps for its end stays an error of the pattern as members are added. -/
theorem addMember_ofPattern (t : Token) (axes : List Axis) (derived : Option Nat) (siblings : Int)
    {sizeErr : Option Error} (kept : ∀ e ∈ sizeErr, e.OfPattern) (axis : Axis) :
    ∀ e ∈ (r.addMember t axes derived siblings sizeErr axis).2.2.2, e.OfPattern := by
  have added : ∀ x : Error, x.OfPattern → ∀ e ∈ (sizeErr <|> some x), e.OfPattern := by
    intro x ofPattern e mem
    cases sizeErr with
    | none => simp_all
    | some first => simp_all
  unfold addMember
  split
  · split
    · exact kept
    · exact added _ (r.fail_ofPattern (by decide) _ _)
  · split
    · exact kept
    · exact added _ (r.fail_ofPattern (by decide) _ _)

theorem groupMembers_error (opening : Token) (first : Nat) {err : Error} (pos : Positions)
    (d : Decomposition) (derived : Option Nat) (siblings : Int) (sizeErr : Option Error)
    (toks : List Token) (kept : ∀ e ∈ sizeErr, e.OfPattern)
    (h : r.groupMembers opening first pos d derived siblings sizeErr toks = .error err) : err.OfPattern := by
  fun_induction r.groupMembers opening first pos d derived siblings sizeErr toks
  case case2 => exact kept _ (by cases h; rfl)
  case case3 => cases h
  case case4 pos d derived siblings sizeErr t rest _ ih | case5 pos d derived siblings sizeErr t rest _ ih =>
    rcases Except.bind_eq_error.1 h with h | ⟨⟨axis, u⟩, -, h⟩
    · exact r.inputAxis_error h
    dsimp only at h
    rcases Except.bind_eq_error.1 h with h | ⟨_, -, h⟩
    · exact ih u _ _ _ _ _ (r.addMember_ofPattern t d.axes derived siblings kept _) h
    · cases h
  all_goals
    cases h
    exact r.fail_ofPattern (by decide) _ _

theorem inputAxes_error {err : Error} (pos : Positions) (d : Decomposition) (toks : List Token)
    (h : r.inputAxes pos d toks = .error err) : err.OfPattern := by
  fun_induction r.inputAxes pos d toks
  case case1 | case2 | case3 | case4 => cases h
  case case5 ih | case6 ih =>
    rcases Except.bind_eq_error.1 h with h | ⟨⟨axis, u⟩, -, h⟩
    · exact r.inputAxis_error h
    dsimp only at h
    rcases Except.bind_eq_error.1 h with h | ⟨_, -, h⟩
    · exact ih axis u _ _ h
    · cases h
  case case7 ih =>
    rcases Except.bind_eq_error.1 h with h | ⟨_, -, h⟩
    · exact ih h
    · cases h
  case case8 pos d t rest _ ih =>
    rcases Except.bind_eq_error.1 h with h | ⟨⟨pos', d', u⟩, -, h⟩
    · exact r.groupMembers_error t _ pos d none 1 none rest (by simp) h
    dsimp only at h
    rcases Except.bind_eq_error.1 h with h | ⟨_, -, h⟩
    · exact ih pos' d' u h
    · cases h
  all_goals
    cases h
    exact r.fail_ofPattern (by decide) _ _

theorem inputs_error {err : Error} (pos : Positions) (done : List Decomposition) (toks : List Token)
    (h : r.inputs pos done toks = .error err) : err.OfPattern := by
  fun_induction r.inputs pos done toks with
  | case1 pos done toks ih =>
    rcases Except.bind_eq_error.1 h with h | ⟨⟨pos', d, u⟩, -, h⟩
    · exact r.inputAxes_error _ _ _ h
    dsimp only at h
    split at h
    · cases h
      exact r.fail_ofPattern (by decide) _ _
    · next t rest after =>
      split at h
      · exact ih pos' d u t rest after h
      · split at h
        · cases h
        · cases h
          exact r.fail_ofPattern (by decide) _ _

theorem outputMember_error {names : NameTable} {st : OutputBuild} {t : Token} {rest : List Token}
    {err : Error} (h : r.outputMember names st t rest = .error err) : err.OfPattern := by
  unfold outputMember at h
  split at h
  · split at h
    · cases h
      exact r.fail_ofPattern (by decide) _ _
    · split at h
      · cases h
        exact r.fail_ofPattern (by decide) _ _
      · cases h
  · split at h
    · cases h
      exact r.fail_ofPattern (by decide) _ _
    · cases h
  · rcases Except.bind_eq_error.1 h with h | ⟨⟨name, size, u⟩, -, h⟩
    · exact r.axisName_error h
    dsimp only at h
    rcases Except.ite_throw_error h with ⟨-, rfl⟩ | ⟨-, h⟩
    · exact r.fail_ofPattern (by decide) _ _
    rcases Except.ite_throw_error h with ⟨-, rfl⟩ | ⟨-, h⟩
    · exact r.fail_ofPattern (by decide) _ _
    split at h
    · cases h
    · rcases Except.ite_throw_error h with ⟨-, rfl⟩ | ⟨-, h⟩
      · exact r.fail_ofPattern (by decide) _ _
      · cases h
  · cases h
    exact r.fail_ofPattern (by decide) _ _

theorem outputGroup_error {names : NameTable} {opening : Token} {err : Error} (members : List Index)
    (st : OutputBuild) (toks : List Token) (h : r.outputGroup names opening members st toks = .error err) :
    err.OfPattern := by
  fun_induction r.outputGroup names opening members st toks
  case case2 => cases h
  case case3 ih | case4 ih | case5 ih =>
    rcases Except.bind_eq_error.1 h with h | ⟨⟨idx, st', u⟩, -, h⟩
    · exact r.outputMember_error h
    dsimp only at h
    rcases Except.bind_eq_error.1 h with h | ⟨_, -, h⟩
    · exact ih idx st' u h
    · cases h
  all_goals
    cases h
    exact r.fail_ofPattern (by decide) _ _

theorem checkAllUsed_error {names : NameTable} {st : OutputBuild} {err : Error}
    (h : r.checkAllUsed names st = .error err) : err.OfPattern := by
  unfold checkAllUsed at h
  split at h
  · cases h
    exact r.fail_ofPattern (by decide) _ _
  · split at h
    · cases h
      exact r.fail_ofPattern (by decide) _ _
    · cases h

theorem output_error {names : NameTable} {err : Error} (st : OutputBuild) (toks : List Token)
    (h : r.output names st toks = .error err) : err.OfPattern := by
  fun_induction r.output names st toks
  case case1 | case9 => exact r.checkAllUsed_error h
  case case2 ih =>
    rcases Except.bind_eq_error.1 h with h | ⟨⟨slot, st', u⟩, -, h⟩
    · exact r.outputGroup_error _ _ _ h
    · exact ih slot st' u h
  case case4 ih | case5 ih | case6 ih =>
    rcases Except.bind_eq_error.1 h with h | ⟨⟨idx, st', u⟩, -, h⟩
    · exact r.outputMember_error h
    · exact ih idx st' u h
  all_goals
    cases h
    exact r.fail_ofPattern (by decide) _ _

end Reader

theorem TableBuild.add_error {pattern : String} {b : TableBuild} {a : Axis} {err : Error}
    (h : b.add pattern a = .error err) : err.OfPattern := by
  unfold TableBuild.add at h
  split at h
  · cases h
    exact (by decide : ErrorKind.duplicateAxisName ≠ .planInconsistent)
  · split at h <;> cases h

theorem NameTable.build_error {pattern : String} {inputs : List Decomposition} {err : Error}
    (h : NameTable.build pattern inputs = .error err) : err.OfPattern :=
  Except.foldlM_error (fun _ _ _ => TableBuild.add_error) _ _ _ (Except.map_eq_error.1 h)

/-- Reading a pattern fails only with an error of the pattern, never with the report of an
inconsistent plan. -/
theorem Expression.parse_error_ofPattern {text : String} {n : Int} {sizes : List (String × Int)}
    {err : Error} (h : Expression.parse text n sizes = .error err) : err.OfPattern := by
  unfold Expression.parse at h
  rcases Except.bind_eq_error.1 h with h | ⟨toks, -, h⟩
  · exact Token.scanFrom_error _ _ _ h
  rcases Except.bind_eq_error.1 h with h | ⟨⟨inputs, rest⟩, -, h⟩
  · exact Reader.inputs_error _ _ _ _ h
  dsimp only at h
  rcases Except.ite_throw_error h with ⟨-, rfl⟩ | ⟨-, h⟩
  · exact (by decide : ErrorKind.arityMismatch ≠ .planInconsistent)
  rcases Except.bind_eq_error.1 h with h | ⟨names, -, h⟩
  · exact NameTable.build_error h
  rcases Except.bind_eq_error.1 h with h | ⟨out, -, h⟩
  · exact Reader.output_error _ _ _ h
  · cases h

end Pattern

end Rearrange
