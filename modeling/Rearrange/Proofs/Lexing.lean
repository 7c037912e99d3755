import Rearrange.Proofs.Lexemes
/-!
# The scanner reads the longest tokens

What a token read at the head of some bytes is, by its kind (`Token.Heads`): punctuation and the
arrow are their own bytes, the ellipsis is `...` where three dots stand and `..` otherwise, an
integer is the longest run of digits with their decimal value, at most `2^63 - 1`, and a name is
the longest run of identifier bytes, a keyword with its reduction exactly when it spells one. The
bytes that start no token where one must start are those outside the alphabet, a `-` without `>`,
a `.` without a second `.`, and the first digit of a number past `2^63 - 1` (`Token.StartsNone`).
A reading (`Lexed`) skips blanks and takes such tokens one after the other.

The scanner takes one of these steps at each offset (`Token.scanFrom_blank`,
`Token.scanFrom_heads`, `Token.scanFrom_startsNone`), and at every offset one of them applies
(`Token.heads_or_startsNone`). So a scan that succeeds is a reading of all the bytes, and a scan
fails exactly where a reading reaches bytes that start no token, naming that offset
(`scan_lexes`).
-/
namespace Rearrange.Pattern

/-- The number that decimal digit bytes write, most significant digit first. -/
def decimalValue (ds : List UInt8) : Nat := Nat.ofDigits 10 (ds.reverse.map fun d => d.toNat - 48)

/-- The reduction keywords, each with the reduction it stands for. -/
def keywords : List (String × Reduction) :=
  [("min", .min), ("max", .max), ("sum", .sum), ("mean", .mean), ("prod", .prod)]

namespace Token

/-- The bytes of a token of each kind, read at the head of `bs`: punctuation and the arrow are
their own bytes, the ellipsis takes a third dot where there is one, an integer is the longest run
of digits, with their decimal value as its value, at most `2^63 - 1`, and a name is the longest
run of identifier bytes, a keyword exactly when it spells one. -/
def Form (bs : List UInt8) (t : Token) : Prop :=
  match t.kind with
  | .eof => False
  | .comma => t.bytes = [44]
  | .colon => t.bytes = [58]
  | .lparen => t.bytes = [40]
  | .rparen => t.bytes = [41]
  | .arrow => t.bytes = [45, 62]
  | .ellipsis => t.bytes = if bs.take 3 = [46, 46, 46] then [46, 46, 46] else [46, 46]
  | .int => t.bytes ≠ [] ∧ t.bytes = bs.takeWhile Text.isDigitByte ∧
      t.value = decimalValue t.bytes ∧ t.value ≤ Word.maxInt64
  | .ident => (∃ b, t.bytes.head? = some b ∧ isNameStart b) ∧
      t.bytes = bs.takeWhile Text.isIdentifierByte ∧ t.text ∉ keywords.map Prod.fst
  | .keyword => (∃ b, t.bytes.head? = some b ∧ isNameStart b) ∧
      t.bytes = bs.takeWhile Text.isIdentifierByte ∧ (t.text, t.op) ∈ keywords

/-- The token `t` read at the head of the bytes `bs`: its bytes begin `bs` and have the form of
its kind; only an integer has a value and only a keyword a reduction. -/
structure Heads (bs : List UInt8) (t : Token) : Prop where
  isPrefix : t.bytes <+: bs
  form : t.Form bs
  value_eq : t.kind ≠ .int → t.value = 0
  op_eq : t.kind ≠ .keyword → t.op = .none

/-- The bytes that are tokens, or start one, by themselves: `,` `:` `(` `)` `-` `.`. -/
def symbols : List UInt8 := [44, 58, 40, 41, 45, 46]

/-- The bytes start no token where one must start: the first is outside the pattern's alphabet,
a `-` not followed by `>`, a `.` not followed by `.`, or the first digit of a number past
`2^63 - 1`. -/
def StartsNone : List UInt8 → Prop
  | [] => False
  | b :: rest =>
    (isBlank b = false ∧ b ∉ symbols ∧ Text.isIdentifierByte b = false) ∨
      (b = 45 ∧ rest.head? ≠ some 62) ∨ (b = 46 ∧ rest.head? ≠ some 46) ∨
      (Text.isDigitByte b = true ∧ Word.maxInt64 < decimalValue ((b :: rest).takeWhile Text.isDigitByte))

end Token

/-- Reading the bytes `bs` from offset `p`: blanks are skipped and the tokens `toks` read, up to
offset `q`, where a token must start next. -/
inductive Lexed (bs : List UInt8) : Nat → List Token → Nat → Prop
  | stop (p : Nat) : Lexed bs p [] p
  | blank {p : Nat} {toks : List Token} {q : Nat} {b : UInt8} :
      bs[p]? = some b → Token.isBlank b = true → Lexed bs (p + 1) toks q → Lexed bs p toks q
  | token {p : Nat} {t : Token} {toks : List Token} {q : Nat} :
      t.pos = p → t.Heads (bs.drop p) → Lexed bs (p + t.bytes.length) toks q → Lexed bs p (t :: toks) q


section Bytes

namespace Token

variable {b : UInt8}

theorem digit_classes (digit : Text.isDigitByte b = true) :
    isBlank b = false ∧ b ∉ symbols ∧ isNameStart b = false := by
  simp [Text.isDigitByte, UInt8.le_iff_toNat_le] at digit
  simp [isBlank, symbols, isNameStart, UInt8.le_iff_toNat_le, UInt8.ext_iff]
  omega

theorem nameStart_classes (start : isNameStart b = true) :
    isBlank b = false ∧ b ∉ symbols ∧ Text.isDigitByte b = false := by
  simp [isNameStart, UInt8.le_iff_toNat_le, UInt8.ext_iff] at start
  simp [isBlank, symbols, Text.isDigitByte, UInt8.le_iff_toNat_le, UInt8.ext_iff]
  omega

theorem not_symbol (outside : b ∉ symbols) : punctuation? b = none ∧ b ≠ 45 ∧ b ≠ 46 := by
  simp only [symbols, List.mem_cons, List.not_mem_nil, or_false, not_or] at outside
  simp [punctuation?, outside]

theorem isIdentifierByte_eq : Text.isIdentifierByte b = (isNameStart b || Text.isDigitByte b) := rfl

end Token

theorem foldl_digitsValue (ds : List UInt8) (acc : Nat) :
    ds.foldl (fun n d => 10 * n + (d.toNat - 48)) acc = acc * 10 ^ ds.length + decimalValue ds := by
  induction ds generalizing acc with
  | nil => simp [decimalValue]
  | cons d ds ih =>
    rw [List.foldl_cons, ih, decimalValue, decimalValue, List.reverse_cons, List.map_append,
      Nat.ofDigits_append, List.length_map, List.length_reverse, List.length_cons, pow_succ]
    simp only [List.map_cons, List.map_nil, Nat.ofDigits_singleton]
    ring

theorem digitsValue_eq (ds : List UInt8) : Token.digitsValue ds = decimalValue ds := by
  rw [Token.digitsValue, foldl_digitsValue]
  simp

theorem ofKeyword?_eq_some_iff {w : String} {op : Reduction} :
    Reduction.ofKeyword? w = some op ↔ (w, op) ∈ keywords := by
  unfold Reduction.ofKeyword?
  split <;> simp_all [keywords, eq_comm]

theorem ofKeyword?_eq_none_iff {w : String} : Reduction.ofKeyword? w = none ↔ w ∉ keywords.map Prod.fst := by
  unfold Reduction.ofKeyword?
  split <;> simp_all [keywords]

theorem drop_eq_cons_iff {α : Type} {l : List α} {p : Nat} {a : α} {rest : List α} :
    l.drop p = a :: rest ↔ l[p]? = some a ∧ l.drop (p + 1) = rest := by
  constructor
  · intro h
    have lt : p < l.length := by
      by_contra ge
      rw [List.drop_eq_nil_of_le (by omega)] at h
      cases h
    rw [List.drop_eq_getElem_cons lt, List.cons.injEq] at h
    exact ⟨by rw [List.getElem?_eq_getElem lt, h.1], h.2⟩
  · rintro ⟨found, rfl⟩
    obtain ⟨lt, rfl⟩ := List.getElem?_eq_some_iff.1 found
    exact List.drop_eq_getElem_cons lt

end Bytes

section Step

namespace Token

theorem punctuation?_some {b : UInt8} {k : TokenKind} (punct : punctuation? b = some k) :
    (b = 44 ∧ k = .comma) ∨ (b = 58 ∧ k = .colon) ∨ (b = 40 ∧ k = .lparen) ∨ (b = 41 ∧ k = .rparen) := by
  unfold punctuation? at punct
  split_ifs at punct <;> simp_all

variable (pattern : String) {b : UInt8} {rest : List UInt8} (pos : Nat)

theorem scanFrom_blank (blank : isBlank b = true) :
    scanFrom pattern (b :: rest) pos = scanFrom pattern rest (pos + 1) := by
  rw [scanFrom.eq_def]
  dsimp only
  rw [if_pos blank]

theorem scanFrom_punctuation {k : TokenKind} (punct : punctuation? b = some k) :
    scanFrom pattern (b :: rest) pos = (⟨k, [b], pos, 0, .none⟩ :: ·) <$> scanFrom pattern rest (pos + 1) := by
  have notBlank : isBlank b = false := by
    rcases punctuation?_some punct with ⟨rfl, -⟩ | ⟨rfl, -⟩ | ⟨rfl, -⟩ | ⟨rfl, -⟩ <;> rfl
  rw [scanFrom.eq_def]
  dsimp only
  rw [if_neg (by simp [notBlank]), punct]

theorem scanFrom_arrow (rest : List UInt8) :
    scanFrom pattern (45 :: 62 :: rest) pos =
      (⟨.arrow, [45, 62], pos, 0, .none⟩ :: ·) <$> scanFrom pattern rest (pos + 2) := by
  rw [scanFrom.eq_def]
  simp [isBlank, punctuation?]

theorem scanFrom_lone_dash (lone : rest.head? ≠ some 62) :
    scanFrom pattern (45 :: rest) pos =
      .error (scanError pattern .unexpectedToken pos "expected '->', got a lone '-'") := by
  rw [scanFrom.eq_def]
  cases rest with
  | nil => simp [isBlank, punctuation?]
  | cons c rest =>
    have other : c ≠ 62 := by simpa using lone
    simp [isBlank, punctuation?, other]

theorem scanFrom_three_dots (rest : List UInt8) :
    scanFrom pattern (46 :: 46 :: 46 :: rest) pos =
      (⟨.ellipsis, [46, 46, 46], pos, 0, .none⟩ :: ·) <$> scanFrom pattern rest (pos + 3) := by
  rw [scanFrom.eq_def]
  simp [isBlank, punctuation?]

theorem scanFrom_two_dots (two : rest.head? ≠ some 46) :
    scanFrom pattern (46 :: 46 :: rest) pos =
      (⟨.ellipsis, [46, 46], pos, 0, .none⟩ :: ·) <$> scanFrom pattern rest (pos + 2) := by
  rw [scanFrom.eq_def]
  cases rest with
  | nil => simp [isBlank, punctuation?]
  | cons c rest =>
    have other : c ≠ 46 := by simpa using two
    simp [isBlank, punctuation?, other]

theorem scanFrom_lone_dot (lone : rest.head? ≠ some 46) :
    scanFrom pattern (46 :: rest) pos =
      .error (scanError pattern .unexpectedToken pos "expected '..', got a lone '.'") := by
  rw [scanFrom.eq_def]
  cases rest with
  | nil => simp [isBlank, punctuation?]
  | cons c rest =>
    have other : c ≠ 46 := by simpa using lone
    simp [isBlank, punctuation?, other]

theorem scanFrom_digits (digit : Text.isDigitByte b = true)
    (fits : (decimalValue (b :: rest.takeWhile Text.isDigitByte) : Int) ≤ Word.maxInt64) :
    scanFrom pattern (b :: rest) pos =
      (⟨.int, b :: rest.takeWhile Text.isDigitByte, pos, decimalValue (b :: rest.takeWhile Text.isDigitByte),
        .none⟩ :: ·) <$>
        scanFrom pattern (rest.dropWhile Text.isDigitByte) (pos + (b :: rest.takeWhile Text.isDigitByte).length) := by
  obtain ⟨notBlank, plain, -⟩ := digit_classes digit
  obtain ⟨punct, dash, dot⟩ := not_symbol plain
  rw [scanFrom.eq_def]
  dsimp only
  rw [if_neg (by simp [notBlank]), punct]
  simp only [dash, dot, beq_iff_eq, if_false, digit, if_true, digitsValue_eq, gt_iff_lt, not_lt.2 fits]

theorem scanFrom_too_large (digit : Text.isDigitByte b = true)
    (large : Word.maxInt64 < (decimalValue (b :: rest.takeWhile Text.isDigitByte) : Int)) :
    ∃ msg, scanFrom pattern (b :: rest) pos = .error (scanError pattern .invalidSize pos msg) := by
  obtain ⟨notBlank, plain, -⟩ := digit_classes digit
  obtain ⟨punct, dash, dot⟩ := not_symbol plain
  rw [scanFrom.eq_def]
  dsimp only
  rw [if_neg (by simp [notBlank]), punct]
  simp only [dash, dot, beq_iff_eq, if_false, digit, if_true, digitsValue_eq, gt_iff_lt, large]
  exact ⟨_, rfl⟩

theorem scanFrom_keyword (start : isNameStart b = true) {op : Reduction}
    (keyword : Reduction.ofKeyword? (String.ofList ((b :: rest.takeWhile Text.isIdentifierByte).map
      fun d => Char.ofNat d.toNat)) = some op) :
    scanFrom pattern (b :: rest) pos =
      (⟨.keyword, b :: rest.takeWhile Text.isIdentifierByte, pos, 0, op⟩ :: ·) <$>
        scanFrom pattern (rest.dropWhile Text.isIdentifierByte)
          (pos + (b :: rest.takeWhile Text.isIdentifierByte).length) := by
  obtain ⟨notBlank, plain, notDigit⟩ := nameStart_classes start
  obtain ⟨punct, dash, dot⟩ := not_symbol plain
  rw [scanFrom.eq_def]
  dsimp only
  rw [if_neg (by simp [notBlank]), punct]
  simp only [dash, dot, beq_iff_eq, if_false, notDigit, start, if_true, Bool.false_eq_true, keyword]

theorem scanFrom_ident (start : isNameStart b = true)
    (plainName : Reduction.ofKeyword? (String.ofList ((b :: rest.takeWhile Text.isIdentifierByte).map
      fun d => Char.ofNat d.toNat)) = none) :
    scanFrom pattern (b :: rest) pos =
      (⟨.ident, b :: rest.takeWhile Text.isIdentifierByte, pos, 0, .none⟩ :: ·) <$>
        scanFrom pattern (rest.dropWhile Text.isIdentifierByte)
          (pos + (b :: rest.takeWhile Text.isIdentifierByte).length) := by
  obtain ⟨notBlank, plain, notDigit⟩ := nameStart_classes start
  obtain ⟨punct, dash, dot⟩ := not_symbol plain
  rw [scanFrom.eq_def]
  dsimp only
  rw [if_neg (by simp [notBlank]), punct]
  simp only [dash, dot, beq_iff_eq, if_false, notDigit, start, if_true, Bool.false_eq_true, plainName]

theorem scanFrom_unexpected (notBlank : isBlank b = false) (plain : b ∉ symbols)
    (outside : Text.isIdentifierByte b = false) :
    ∃ msg, scanFrom pattern (b :: rest) pos = .error (scanError pattern .unexpectedToken pos msg) := by
  obtain ⟨punct, dash, dot⟩ := not_symbol plain
  rw [isIdentifierByte_eq, Bool.or_eq_false_iff] at outside
  rw [scanFrom.eq_def]
  dsimp only
  rw [if_neg (by simp [notBlank]), punct]
  simp only [dash, dot, beq_iff_eq, if_false, outside.1, outside.2, Bool.false_eq_true]
  exact ⟨_, rfl⟩

end Token

end Step

section Heads

theorem drop_length_takeWhile {α : Type} (p : α → Bool) (l : List α) :
    l.drop (l.takeWhile p).length = l.dropWhile p := by
  have split := List.takeWhile_append_dropWhile (p := p) (l := l)
  calc l.drop (l.takeWhile p).length = (l.takeWhile p ++ l.dropWhile p).drop (l.takeWhile p).length := by
        rw [split]
    _ = l.dropWhile p := List.drop_left

namespace Token

variable {b : UInt8} {rest : List UInt8} {bytes : List UInt8}

theorem digit_run (nonempty : bytes ≠ []) (run : bytes = (b :: rest).takeWhile Text.isDigitByte) :
    Text.isDigitByte b = true ∧ bytes = b :: rest.takeWhile Text.isDigitByte := by
  cases digit : Text.isDigitByte b with
  | false =>
    rw [List.takeWhile_cons_of_neg (by simp [digit])] at run
    exact absurd run nonempty
  | true => exact ⟨rfl, run.trans (List.takeWhile_cons_of_pos digit)⟩

/-- A name at the head of the bytes starts with their first byte. -/
theorem name_run (start : ∃ c, bytes.head? = some c ∧ isNameStart c)
    (run : bytes = (b :: rest).takeWhile Text.isIdentifierByte) :
    isNameStart b = true ∧ bytes = b :: rest.takeWhile Text.isIdentifierByte := by
  obtain ⟨c, head, nameStart⟩ := start
  cases ident : Text.isIdentifierByte b with
  | false =>
    rw [List.takeWhile_cons_of_neg (by simp [ident])] at run
    simp [run] at head
  | true =>
    rw [List.takeWhile_cons_of_pos ident] at run
    subst run
    obtain rfl : b = c := by simpa using head
    exact ⟨nameStart, rfl⟩

variable (pattern : String) (pos : Nat)

/-- The scanner reads the token at the head of the bytes, at the offset it has reached. -/
theorem scanFrom_heads {t : Token} (heads : t.Heads (b :: rest)) :
    scanFrom pattern (b :: rest) pos =
      ({ t with pos } :: ·) <$> scanFrom pattern ((b :: rest).drop t.bytes.length) (pos + t.bytes.length) := by
  obtain ⟨isPrefix, form, value_eq, op_eq⟩ := heads
  obtain ⟨kind, bytes, p, value, op⟩ := t
  dsimp only at isPrefix value_eq op_eq
  have single : ∀ c, bytes = [c] → punctuation? c = some kind →
      scanFrom pattern (b :: rest) pos =
        ({ (⟨kind, bytes, p, value, op⟩ : Token) with pos } :: ·) <$>
          scanFrom pattern ((b :: rest).drop bytes.length) (pos + bytes.length) := by
    intro c one punct
    subst one
    obtain ⟨rfl, -⟩ := List.cons_prefix_cons.1 isPrefix
    have kinds := punctuation?_some punct
    obtain rfl : value = 0 := value_eq (by rcases kinds with ⟨-, rfl⟩ | ⟨-, rfl⟩ | ⟨-, rfl⟩ | ⟨-, rfl⟩ <;> simp)
    obtain rfl : op = .none := op_eq (by rcases kinds with ⟨-, rfl⟩ | ⟨-, rfl⟩ | ⟨-, rfl⟩ | ⟨-, rfl⟩ <;> simp)
    exact scanFrom_punctuation pattern pos punct
  cases kind with
  | eof => exact form.elim
  | comma => exact single 44 form rfl
  | colon => exact single 58 form rfl
  | lparen => exact single 40 form rfl
  | rparen => exact single 41 form rfl
  | arrow =>
    obtain rfl : bytes = [45, 62] := form
    obtain ⟨rfl, ⟨r, rfl⟩⟩ := List.cons_prefix_cons.1 isPrefix
    obtain rfl : value = 0 := value_eq (by simp)
    obtain rfl : op = .none := op_eq (by simp)
    exact scanFrom_arrow pattern pos r
  | ellipsis =>
    obtain rfl : value = 0 := value_eq (by simp)
    obtain rfl : op = .none := op_eq (by simp)
    by_cases three : (b :: rest).take 3 = [46, 46, 46]
    · obtain rfl : bytes = [46, 46, 46] := (if_pos three).symm.trans form.symm |>.symm
      obtain ⟨rfl, ⟨r, rfl⟩⟩ := List.cons_prefix_cons.1 isPrefix
      exact scanFrom_three_dots pattern pos r
    · obtain rfl : bytes = [46, 46] := (if_neg three).symm.trans form.symm |>.symm
      obtain ⟨rfl, ⟨r, rfl⟩⟩ := List.cons_prefix_cons.1 isPrefix
      have two : r.head? ≠ some 46 := by
        cases r with
        | nil => simp
        | cons c r => simpa using three
      exact scanFrom_two_dots pattern pos two
  | int =>
    obtain ⟨nonempty, run, rfl, fits⟩ : bytes ≠ [] ∧ bytes = (b :: rest).takeWhile Text.isDigitByte ∧
        value = decimalValue bytes ∧ value ≤ Word.maxInt64 := form
    obtain ⟨digit, rfl⟩ := digit_run nonempty run
    obtain rfl : op = .none := op_eq (by simp)
    rw [List.length_cons, List.drop_succ_cons, drop_length_takeWhile]
    exact scanFrom_digits pattern pos digit fits
  | ident =>
    obtain ⟨start, run, plainName⟩ := form
    obtain ⟨nameStart, rfl⟩ := name_run start run
    obtain rfl : value = 0 := value_eq (by simp)
    obtain rfl : op = .none := op_eq (by simp)
    rw [List.length_cons, List.drop_succ_cons, drop_length_takeWhile]
    exact scanFrom_ident pattern pos nameStart (ofKeyword?_eq_none_iff.2 plainName)
  | keyword =>
    obtain ⟨start, run, keyword⟩ := form
    obtain ⟨nameStart, rfl⟩ := name_run start run
    obtain rfl : value = 0 := value_eq (by simp)
    rw [List.length_cons, List.drop_succ_cons, drop_length_takeWhile]
    exact scanFrom_keyword pattern pos nameStart (ofKeyword?_eq_some_iff.2 keyword)

theorem scanFrom_startsNone (none : StartsNone (b :: rest)) :
    ∃ e : Error, scanFrom pattern (b :: rest) pos = .error e ∧ e.pos = pos := by
  rcases none with ⟨notBlank, plain, outside⟩ | ⟨rfl, lone⟩ | ⟨rfl, lone⟩ | ⟨digit, large⟩
  · obtain ⟨msg, h⟩ := scanFrom_unexpected pattern pos notBlank plain outside
    exact ⟨_, h, rfl⟩
  · exact ⟨_, scanFrom_lone_dash pattern pos lone, rfl⟩
  · exact ⟨_, scanFrom_lone_dot pattern pos lone, rfl⟩
  · rw [List.takeWhile_cons_of_pos digit] at large
    obtain ⟨msg, h⟩ := scanFrom_too_large pattern pos digit large
    exact ⟨_, h, rfl⟩

theorem heads_punctuation {k : TokenKind} (punct : punctuation? b = some k) :
    (⟨k, [b], 0, 0, .none⟩ : Token).Heads (b :: rest) := by
  refine ⟨List.cons_prefix_cons.2 ⟨rfl, List.nil_prefix⟩, ?_, fun _ => rfl, fun _ => rfl⟩
  rcases punctuation?_some punct with ⟨rfl, rfl⟩ | ⟨rfl, rfl⟩ | ⟨rfl, rfl⟩ | ⟨rfl, rfl⟩ <;> rfl

theorem heads_arrow (r : List UInt8) : (⟨.arrow, [45, 62], 0, 0, .none⟩ : Token).Heads (45 :: 62 :: r) :=
  ⟨List.cons_prefix_cons.2 ⟨rfl, List.cons_prefix_cons.2 ⟨rfl, List.nil_prefix⟩⟩, rfl, fun _ => rfl, fun _ => rfl⟩

theorem heads_dots (r : List UInt8) :
    (⟨.ellipsis, if r.head? = some 46 then [46, 46, 46] else [46, 46], 0, 0, .none⟩ : Token).Heads
      (46 :: 46 :: r) := by
  refine ⟨?_, ?_, fun _ => rfl, fun _ => rfl⟩
  · cases r with
    | nil => simp
    | cons c r => by_cases dot : c = 46 <;> simp [dot]
  · show _ = _
    cases r with
    | nil => simp
    | cons c r => by_cases dot : c = 46 <;> simp [dot]

theorem heads_digits (digit : Text.isDigitByte b = true)
    (fits : (decimalValue (b :: rest.takeWhile Text.isDigitByte) : Int) ≤ Word.maxInt64) :
    (⟨.int, b :: rest.takeWhile Text.isDigitByte, 0, decimalValue (b :: rest.takeWhile Text.isDigitByte),
      .none⟩ : Token).Heads (b :: rest) := by
  have run : (b :: rest).takeWhile Text.isDigitByte = b :: rest.takeWhile Text.isDigitByte :=
    List.takeWhile_cons_of_pos digit
  refine ⟨run ▸ List.takeWhile_prefix _, ⟨List.cons_ne_nil _ _, run.symm, rfl, fits⟩, fun h => absurd rfl h,
    fun _ => rfl⟩

theorem heads_name (start : isNameStart b = true) : ∃ t : Token, t.Heads (b :: rest) := by
  have run : (b :: rest).takeWhile Text.isIdentifierByte = b :: rest.takeWhile Text.isIdentifierByte :=
    List.takeWhile_cons_of_pos (by simp [isIdentifierByte_eq, start])
  have begins : ∃ c, (b :: rest.takeWhile Text.isIdentifierByte).head? = some c ∧ isNameStart c :=
    ⟨b, rfl, start⟩
  cases keyword : Reduction.ofKeyword? (String.ofList ((b :: rest.takeWhile Text.isIdentifierByte).map
      fun d => Char.ofNat d.toNat)) with
  | some op =>
    exact ⟨⟨.keyword, b :: rest.takeWhile Text.isIdentifierByte, 0, 0, op⟩, run ▸ List.takeWhile_prefix _,
      ⟨begins, run.symm, ofKeyword?_eq_some_iff.1 keyword⟩, fun _ => rfl, fun h => absurd rfl h⟩
  | none =>
    exact ⟨⟨.ident, b :: rest.takeWhile Text.isIdentifierByte, 0, 0, .none⟩, run ▸ List.takeWhile_prefix _,
      ⟨begins, run.symm, ofKeyword?_eq_none_iff.1 keyword⟩, fun _ => rfl, fun _ => rfl⟩

/-- Where a token must start, the byte is a blank, starts a token, or starts none. -/
theorem heads_or_startsNone (b : UInt8) (rest : List UInt8) :
    isBlank b = true ∨ (∃ t : Token, t.Heads (b :: rest)) ∨ StartsNone (b :: rest) := by
  cases blank : isBlank b with
  | true => exact .inl rfl
  | false =>
  right
  by_cases plain : b ∈ symbols
  · simp only [symbols, List.mem_cons, List.not_mem_nil, or_false] at plain
    rcases plain with rfl | rfl | rfl | rfl | rfl | rfl
    · exact .inl ⟨_, heads_punctuation rfl⟩
    · exact .inl ⟨_, heads_punctuation rfl⟩
    · exact .inl ⟨_, heads_punctuation rfl⟩
    · exact .inl ⟨_, heads_punctuation rfl⟩
    · cases rest with
      | nil => exact .inr (.inr (.inl ⟨rfl, by simp⟩))
      | cons c r =>
        by_cases arrow : c = 62
        · subst arrow
          exact .inl ⟨_, heads_arrow r⟩
        · exact .inr (.inr (.inl ⟨rfl, by simpa using arrow⟩))
    · cases rest with
      | nil => exact .inr (.inr (.inr (.inl ⟨rfl, by simp⟩)))
      | cons c r =>
        by_cases dot : c = 46
        · subst dot
          exact .inl ⟨_, heads_dots r⟩
        · exact .inr (.inr (.inr (.inl ⟨rfl, by simpa using dot⟩)))
  cases digit : Text.isDigitByte b with
  | true =>
    by_cases fits : (decimalValue (b :: rest.takeWhile Text.isDigitByte) : Int) ≤ Word.maxInt64
    · exact .inl ⟨_, heads_digits digit fits⟩
    · refine .inr (.inr (.inr (.inr ⟨digit, ?_⟩)))
      rw [List.takeWhile_cons_of_pos digit]
      exact lt_of_not_ge fits
  | false =>
  cases start : isNameStart b with
  | true => exact .inl (heads_name start)
  | false => exact .inr (.inl ⟨blank, plain, by simp [isIdentifierByte_eq, digit, start]⟩)

end Token

end Heads

section Runs

namespace Token.Heads

variable {bs : List UInt8} {t : Token}

theorem bytes_ne_nil (h : t.Heads bs) : t.bytes ≠ [] := by
  obtain ⟨-, form, -, -⟩ := h
  unfold Form at form
  split at form
  case h_1 => exact form.elim
  case h_7 =>
    rw [form]
    split <;> simp
  case h_8 => exact form.1
  case h_9 | h_10 =>
    obtain ⟨⟨b, head, -⟩, -⟩ := form
    intro empty
    simp [empty] at head
  all_goals simp [form]

theorem kind_ne_eof (h : t.Heads bs) : t.kind ≠ .eof := fun eof => by
  have form := h.form
  simp [Form, eof] at form

theorem withPos (h : t.Heads bs) (p : Nat) : ({ t with pos := p } : Token).Heads bs :=
  ⟨h.isPrefix, h.form, h.value_eq, h.op_eq⟩

theorem exists_cons (h : t.Heads bs) : ∃ b rest, bs = b :: rest := by
  obtain ⟨more, rfl⟩ := h.isPrefix
  obtain ⟨b, rest, same⟩ := List.exists_cons_of_ne_nil h.bytes_ne_nil
  exact ⟨b, rest ++ more, by rw [same, List.cons_append]⟩

end Token.Heads

namespace Lexed

variable {bs : List UInt8} {p q : Nat} {toks : List Token}

theorem le (h : Lexed bs p toks q) : p ≤ q := by
  induction h with
  | stop => exact le_rfl
  | blank _ _ _ ih => omega
  | token _ _ _ ih => omega

/-- Every token read lies between the offsets the reading started and stopped at. -/
theorem bounds (h : Lexed bs p toks q) : ∀ t ∈ toks, p ≤ t.pos ∧ t.pos + t.bytes.length ≤ q := by
  induction h with
  | stop => simp
  | blank _ _ _ ih =>
    intro t mem
    have := ih t mem
    omega
  | @token p t toks q pos _ rest ih =>
    intro u mem
    rcases List.mem_cons.1 mem with rfl | mem
    · have := rest.le
      omega
    · have := ih u mem
      omega

theorem pairwise (h : Lexed bs p toks q) : toks.Pairwise fun t u => t.pos + t.bytes.length ≤ u.pos := by
  induction h with
  | stop => exact .nil
  | blank _ _ _ ih => exact ih
  | @token p t toks q pos _ rest ih =>
    refine List.pairwise_cons.2 ⟨fun u mem => ?_, ih⟩
    have := (rest.bounds u mem).1
    omega

theorem heads (h : Lexed bs p toks q) : ∀ t ∈ toks, t.Heads (bs.drop t.pos) := by
  induction h with
  | stop => simp
  | blank _ _ _ ih => exact ih
  | @token p t toks q pos heads _ ih =>
    intro u mem
    rcases List.mem_cons.1 mem with rfl | mem
    · exact pos ▸ heads
    · exact ih u mem

/-- A byte that no token read covers is a blank. -/
theorem blank_of_uncovered (h : Lexed bs p toks q) : ∀ i, p ≤ i → i < q →
    (∀ t ∈ toks, ¬ (t.pos ≤ i ∧ i < t.pos + t.bytes.length)) → ∃ b, bs[i]? = some b ∧ Token.isBlank b = true := by
  induction h with
  | stop => intro i lo hi; omega
  | @blank p toks q b found blank _ ih =>
    intro i lo hi uncovered
    rcases Nat.eq_or_lt_of_le lo with rfl | lt
    · exact ⟨b, found, blank⟩
    · exact ih i lt hi uncovered
  | @token p t toks q pos _ _ ih =>
    intro i lo hi uncovered
    have outside := uncovered t List.mem_cons_self
    exact ih i (by omega) hi fun u mem => uncovered u (List.mem_cons_of_mem t mem)

end Lexed

variable (pattern : String)

/-- A scan that succeeds reads the bytes through to their end. -/
theorem scanFrom_ok_lexed {bs : List UInt8} {p : Nat} {toks : List Token} (within : p ≤ bs.length)
    (h : Token.scanFrom pattern (bs.drop p) p = .ok toks) : Lexed bs p toks bs.length := by
  cases hd : bs.drop p with
  | nil =>
    rw [hd, Token.scanFrom.eq_def] at h
    cases h
    obtain rfl : p = bs.length := le_antisymm within (List.drop_eq_nil_iff.1 hd)
    exact .stop _
  | cons b rest =>
    obtain ⟨found, restEq⟩ := drop_eq_cons_iff.1 hd
    have lt : p < bs.length := (List.getElem?_eq_some_iff.1 found).1
    rcases Token.heads_or_startsNone b rest with blank | ⟨t, heads⟩ | none
    · rw [hd, Token.scanFrom_blank pattern _ blank, ← restEq] at h
      exact .blank found blank (scanFrom_ok_lexed (by omega) h)
    · rw [hd, Token.scanFrom_heads pattern _ heads, ← hd, List.drop_drop] at h
      obtain ⟨more, moreOk, rfl⟩ := Except.map_eq_ok.1 h
      have grows := List.length_pos_of_ne_nil heads.bytes_ne_nil
      have fits : p + t.bytes.length ≤ bs.length := by
        have := heads.isPrefix.length_le
        rw [← hd, List.length_drop] at this
        omega
      exact .token rfl ((hd ▸ heads).withPos p) (scanFrom_ok_lexed fits moreOk)
    · obtain ⟨e, err, -⟩ := Token.scanFrom_startsNone pattern p none
      rw [hd, err] at h
      cases h
termination_by bs.length - p

/-- A scan that fails reads tokens up to an offset where none starts, and names that offset. -/
theorem scanFrom_error_lexed {bs : List UInt8} {p : Nat} {e : Error}
    (h : Token.scanFrom pattern (bs.drop p) p = .error e) :
    ∃ q : Nat, e.pos = q ∧ (∃ toks, Lexed bs p toks q) ∧ Token.StartsNone (bs.drop q) := by
  cases hd : bs.drop p with
  | nil =>
    rw [hd, Token.scanFrom.eq_def] at h
    cases h
  | cons b rest =>
    obtain ⟨found, restEq⟩ := drop_eq_cons_iff.1 hd
    have lt : p < bs.length := (List.getElem?_eq_some_iff.1 found).1
    rcases Token.heads_or_startsNone b rest with blank | ⟨t, heads⟩ | none
    · rw [hd, Token.scanFrom_blank pattern _ blank, ← restEq] at h
      obtain ⟨q, epos, ⟨toks, lexed⟩, none⟩ := scanFrom_error_lexed h
      exact ⟨q, epos, ⟨toks, .blank found blank lexed⟩, none⟩
    · rw [hd, Token.scanFrom_heads pattern _ heads, ← hd, List.drop_drop] at h
      have grows := List.length_pos_of_ne_nil heads.bytes_ne_nil
      cases more : Token.scanFrom pattern (bs.drop (p + t.bytes.length)) (p + t.bytes.length) with
      | ok toks =>
        rw [more] at h
        cases h
      | error e' =>
        rw [more] at h
        cases h
        obtain ⟨q, epos, ⟨toks, lexed⟩, none⟩ := scanFrom_error_lexed more
        exact ⟨q, epos, ⟨{ t with pos := p } :: toks, .token rfl ((hd ▸ heads).withPos p) lexed⟩, none⟩
    · obtain ⟨e', err, epos⟩ := Token.scanFrom_startsNone pattern p none
      rw [hd, err] at h
      cases h
      exact ⟨p, epos, ⟨[], .stop p⟩, hd ▸ none⟩
termination_by bs.length - p

/-- Reading up to an offset where no token starts, the scan fails there. -/
theorem Lexed.scanFrom_error {bs : List UInt8} {p q : Nat} {toks : List Token} (h : Lexed bs p toks q)
    (none : Token.StartsNone (bs.drop q)) :
    ∃ e : Error, Token.scanFrom pattern (bs.drop p) p = .error e ∧ e.pos = q := by
  induction h with
  | stop q =>
    cases hd : bs.drop q with
    | nil =>
      rw [hd] at none
      exact none.elim
    | cons b rest =>
      rw [hd] at none
      exact Token.scanFrom_startsNone pattern q none
  | @blank p toks q b found blank _ ih =>
    rw [drop_eq_cons_iff.2 ⟨found, rfl⟩, Token.scanFrom_blank pattern _ blank]
    exact ih none
  | @token p t toks q pos heads _ ih =>
    obtain ⟨e, err, epos⟩ := ih none
    obtain ⟨b, rest, hd⟩ := heads.exists_cons
    rw [hd] at heads ⊢
    rw [Token.scanFrom_heads pattern _ heads, ← hd, List.drop_drop, err]
    exact ⟨e, rfl, epos⟩

end Runs

theorem toUTF8_length (s : String) : s.toUTF8.toList.length = s.utf8ByteSize := by
  unfold ByteArray.toList
  rw [byteArray_toList_loop_length]
  simp

theorem scan_lexes (s : String) :
    (∀ toks, Token.scan s = .ok toks →
      toks.Pairwise (fun t u => t.pos < u.pos) ∧
      toks.Pairwise (fun t u => t.pos + t.bytes.length ≤ u.pos) ∧
      (∀ t ∈ toks, (s.toUTF8.toList.drop t.pos).take t.bytes.length = t.bytes) ∧
      (∀ i < s.toUTF8.toList.length, (∀ t ∈ toks, ¬ (t.pos ≤ i ∧ i < t.pos + t.bytes.length)) →
        ∃ b, s.toUTF8.toList[i]? = some b ∧ Token.isBlank b = true) ∧
      toks.getLast? = some (Token.eof s.toUTF8.toList.length) ∧
      ∀ t ∈ toks.dropLast, t.kind ≠ .eof ∧ t.Heads (s.toUTF8.toList.drop t.pos)) ∧
    (∀ e, Token.scan s = .error e →
      ∃ q : Nat, e.pos = q ∧ (∃ toks, Lexed s.toUTF8.toList 0 toks q) ∧
        Token.StartsNone (s.toUTF8.toList.drop q)) ∧
    ∀ q toks, Lexed s.toUTF8.toList 0 toks q → Token.StartsNone (s.toUTF8.toList.drop q) →
      ∃ e, Token.scan s = .error e ∧ e.pos = q := by
  set bs := s.toUTF8.toList
  have length : s.utf8ByteSize = bs.length := (toUTF8_length s).symm
  refine ⟨fun toks done => ?_, fun e failed => ?_, fun q toks lexed none => ?_⟩
  · obtain ⟨body, scanned, rfl⟩ := Except.map_eq_ok.1 done
    have lexed : Lexed bs 0 body bs.length := by
      refine scanFrom_ok_lexed s (Nat.zero_le _) ?_
      rw [List.drop_zero]
      exact scanned
    have bounds := lexed.bounds
    have heads := lexed.heads
    have grows : ∀ t ∈ body, 0 < t.bytes.length := fun t mem =>
      List.length_pos_of_ne_nil (heads t mem).bytes_ne_nil
    rw [length]
    refine ⟨?_, ?_, ?_, ?_, by simp, ?_⟩
    · refine List.pairwise_append.2 ⟨lexed.pairwise.imp_of_mem fun mem _ ends => ?_, by simp, ?_⟩
      · have := grows _ mem
        omega
      · intro t mem u eof
        obtain rfl := List.mem_singleton.1 eof
        have := bounds t mem
        have := grows t mem
        simp only [Token.eof]
        omega
    · refine List.pairwise_append.2 ⟨lexed.pairwise, by simp, ?_⟩
      intro t mem u eof
      obtain rfl := List.mem_singleton.1 eof
      exact (bounds t mem).2
    · intro t mem
      rcases List.mem_append.1 mem with mem | eof
      · exact (List.prefix_iff_eq_take.1 (heads t mem).isPrefix).symm
      · obtain rfl := List.mem_singleton.1 eof
        simp [Token.eof]
    · intro i lt uncovered
      exact lexed.blank_of_uncovered i (Nat.zero_le _) lt fun t mem =>
        uncovered t (List.mem_append_left _ mem)
    · intro t mem
      rw [List.dropLast_concat] at mem
      exact ⟨(heads t mem).kind_ne_eof, heads t mem⟩
  · cases scanned : Token.scanBody s with
    | ok body =>
      rw [Token.scan, scanned] at failed
      cases failed
    | error e' =>
      rw [Token.scan, scanned] at failed
      cases failed
      refine scanFrom_error_lexed s ?_
      rw [List.drop_zero]
      exact scanned
  · obtain ⟨e, failed, epos⟩ := lexed.scanFrom_error s none
    rw [List.drop_zero] at failed
    refine ⟨e, ?_, epos⟩
    rw [Token.scan, Token.scanBody, failed]
    rfl

end Rearrange.Pattern
