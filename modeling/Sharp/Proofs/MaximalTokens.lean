import Sharp.Proofs.PlainWords

/-!
# Tokens reach as far as they can

A word, a number and a run of blanks end only before a character that cannot continue them.  A carriage
return takes the line feed after it along, and of several operators the longest one is read.

* `numbers_of_tokenize`: what the numbers of a source look like, and that no two of them should be one.
-/

namespace Sharp

variable {p : Char → Bool}

/-! ## Runs of characters -/

/-- Names, keywords and numbers have the shape of words. -/
def Category.isWordShaped : Category → Bool
  | identifier | keyword | contextKeyword | numberLiteral => true
  | _ => false

theorem isWordShaped_wordLexeme (word : List Char) : (wordLexeme word).category.isWordShaped = true := by
  rcases category_wordLexeme word with category | category | category <;> rw [category] <;> rfl

/-- The text starts with a character that satisfies `p`, and `rest` does not. -/
def IsRun (p : Char → Bool) (cs rest : List Char) : Prop :=
  (∃ c ∈ cs.head?, p c = true) ∧ EndsBefore p rest

section Runs

variable {cs rest : List Char} {lexeme : Lexeme}

theorem endsBefore_dropWhile (p : Char → Bool) (cs : List Char) : EndsBefore p (cs.dropWhile p) := by
  intro c first
  have := List.head?_dropWhile_not p cs
  rw [Option.mem_def.1 first] at this
  exact this

theorem isRun_dropWhile (nonempty : cs.takeWhile p ≠ []) : IsRun p cs (cs.dropWhile p) := by
  refine ⟨?_, endsBefore_dropWhile p cs⟩
  cases cs with
  | nil => exact absurd rfl nonempty
  | cons c cs =>
    cases first : p c with
    | true => exact ⟨c, rfl, first⟩
    | false => simp [first] at nonempty

theorem exists_digit_iff : (cs.head?.map Char.isDigit).getD false = true ↔ ∃ c ∈ cs.head?, c.isDigit = true := by
  cases cs <;> simp

/-- A numeral ends where its last word does. -/
theorem endsBefore_splitNumeral (cs : List Char) : EndsBefore isWordChar (splitNumeral cs).2 := by
  have ends := endsBefore_dropWhile isWordChar cs
  unfold splitNumeral
  dsimp only
  split
  · revert ends
    fun_cases splitSigned (cs.dropWhile isWordChar) with
    | case1 sign digit more isSign => exact fun _ => endsBefore_dropWhile isWordChar _
    | case2 | case3 => exact id
  · exact ends

section

variable (scanned : Scanned cs lexeme rest)
include scanned

theorem Scanned.isRun_word (shaped : lexeme.category.isWordShaped = true) : IsRun isWordChar cs rest := by
  have starts (digit : (cs.head?.map Char.isDigit).getD false = true) : ∃ c ∈ cs.head?, isWordChar c = true := by
    obtain ⟨c, first, digit⟩ := exists_digit_iff.1 digit
    exact ⟨c, first, by simp [isWordChar, Char.isAlphanum, digit]⟩
  cases scanned with
  | integer digit whole => exact ⟨starts digit, endsBefore_splitNumeral cs⟩
  | fraction digit point more last => exact ⟨starts digit, endsBefore_splitNumeral _⟩
  | word nonempty => exact isRun_dropWhile nonempty
  | _ => cases shaped

theorem Scanned.isRun_blank (isSpace : lexeme.category = .space) : IsRun isBlankChar cs rest := by
  cases scanned with
  | blanks nonempty => exact isRun_dropWhile nonempty
  | word nonempty => simpa [isSpace, Category.isWordShaped] using isWordShaped_wordLexeme (cs.takeWhile isWordChar)
  | _ => cases isSpace

theorem Scanned.source_eq
    (sign : lexeme.category = .lineBreak ∨ lexeme.category = .operator) : lexeme.source = lexeme.text.toList := by
  cases scanned with
  | lineBreak listed rest => exact String.toList_ofList.symm
  | operator longest => rfl
  | word nonempty => rw [text_wordLexeme, source_wordLexeme, String.toList_ofList]
  | _ => simp [Lexeme.verbatim] at sign

end

/-- The operator that is read is the longest one. -/
theorem Scanned.longest (scanned : Scanned cs lexeme rest) (isOperator : lexeme.category = .operator) :
    lexeme.text.toList <+: cs ∧
      ∀ operator ∈ operators, operator.toList <+: cs → operator.length ≤ lexeme.text.length := by
  cases scanned with
  | operator longest =>
    have starts : startsWith cs _ = true := List.find?_some longest
    refine ⟨List.isPrefixOf_iff_prefix.1 starts, fun operator known fits => ?_⟩
    obtain ⟨found, first, longer⟩ := exists_longer_operator known fits
    cases longest.symm.trans first
    exact longer
  | word nonempty => simpa [isOperator, Category.isWordShaped] using isWordShaped_wordLexeme (cs.takeWhile isWordChar)
  | _ => cases isOperator

end Runs

/-! ## The longest tokens -/

/-- No token of the source could have been longer. -/
structure Maximal (source : String) (tokens : List Token) : Prop where
  words : ∀ t next, [t, next] <:+: tokens → ¬ (t.category.isWordShaped = true ∧ next.category.isWordShaped = true)
  blanks : ∀ t next, [t, next] <:+: tokens → ¬ (t.category = .space ∧ next.category = .space)
  breaks : ∀ t next, [t, next] <:+: tokens → t.category = .lineBreak → t.text = "\r" →
    ¬ (next.category = .lineBreak ∧ next.text = "\n")
  operators : ∀ t ∈ tokens, t.category = .operator → ∃ before after, source.toList = before ++ after ∧
    byteLength before = t.start ∧ t.text.toList <+: after ∧
    ∀ operator ∈ operators, operator.toList <+: after → operator.length ≤ t.text.length

namespace Tokenized

variable {id start : Nat} {cs : List Char} {tokens part more : List Token} {t next : Token}

theorem of_infix (derivation : Tokenized id start cs tokens) (among : part <:+: tokens) :
    ∃ id' start' cs' more, Tokenized id' start' cs' (part ++ more) := by
  obtain ⟨front, more, rfl⟩ := among
  rw [List.append_assoc] at derivation
  obtain ⟨before, cs', id', -, last⟩ := derivation.exists_suffix
  exact ⟨id', _, cs', more, last⟩

/-- Of two tokens that follow each other, at most one is a run of certain characters. -/
theorem not_both_runs {q : Category → Prop}
    (isRun : ∀ {cs lexeme rest}, Scanned cs lexeme rest → q lexeme.category → IsRun p cs rest)
    (derivation : Tokenized id start cs tokens) (follows : [t, next] <:+: tokens) :
    ¬ (q t.category ∧ q next.category) := by
  rintro ⟨first, second⟩
  obtain ⟨_, _, _, _, derivation⟩ := derivation.of_infix follows
  cases derivation with
  | cons _ scanned tail =>
    cases tail with
    | cons _ scanned' _ =>
      obtain ⟨c, starts, continues⟩ := (isRun (scanned_of_scan scanned') second).1
      have ends := (isRun (scanned_of_scan scanned) first).2 c starts
      cases ends.symm.trans continues

/-- A line feed after a carriage return is no token of its own. -/
theorem not_broken (derivation : Tokenized id start cs tokens) (follows : [t, next] <:+: tokens)
    (isBreak : t.category = .lineBreak) (text : t.text = "\r") :
    ¬ (next.category = .lineBreak ∧ next.text = "\n") := by
  rintro ⟨isBreak', text'⟩
  obtain ⟨_, _, _, _, derivation⟩ := derivation.of_infix follows
  cases derivation with
  | @cons _ _ lexeme _ _ _ scanned tail =>
    cases tail with
    | @cons _ _ following rest _ _ scanned' _ =>
      have first : lexeme.source = "\r".toList :=
        ((scanned_of_scan scanned).source_eq (.inl isBreak)).trans (congrArg String.toList text)
      have second : following.source = "\n".toList :=
        ((scanned_of_scan scanned').source_eq (.inl isBreak')).trans (congrArg String.toList text')
      have both : scan ('\r' :: '\n' :: rest) = scanBreak.found ['\r', '\n'] rest := rfl
      rw [first, second] at scanned
      have same := (Prod.mk.inj (Option.some.inj (Except.ok.inj (both.symm.trans scanned)))).1
      rw [← same] at first
      cases first

end Tokenized

/-- What is read is as long as it can be. -/
theorem maximal_of_tokenize {source : String} {tokens : List Token} (read : tokenize source = .ok tokens) :
    Maximal source tokens := by
  have derivation := tokenize_eq_ok_iff.1 read
  refine ⟨fun t next => derivation.not_both_runs (q := (·.isWordShaped = true)) Scanned.isRun_word,
    fun t next => derivation.not_both_runs (q := (· = .space)) Scanned.isRun_blank, fun t next => derivation.not_broken,
    fun t member isOperator => ?_⟩
  obtain ⟨before, lexeme, rest, id, covered, scanned, rfl⟩ := derivation.exists_scan member
  exact ⟨before, _, covered, (Nat.zero_add _).symm, (scanned_of_scan scanned).longest isOperator⟩

/-- Operators that start others, a number with a sign, and a line break of two characters. -/
theorem maximal_of_tokenize_signs : ∃ tokens, tokenize "a>>>=1e-3..b?.c \t\r\n\n" = .ok tokens ∧
      tokens.map Token.text = ["a", ">>>=", "1e-3", "..", "b", "?.", "c", " \t", "\r\n", "\n"] ∧
      Maximal "a>>>=1e-3..b?.c \t\r\n\n" tokens := by
  obtain ⟨tokens, read, texts⟩ : ∃ tokens, tokenize "a>>>=1e-3..b?.c \t\r\n\n" = .ok tokens ∧
      tokens.map Token.text = ["a", ">>>=", "1e-3", "..", "b", "?.", "c", " \t", "\r\n", "\n"] :=
    exists_of_toOption (by decide +kernel)
  exact ⟨tokens, read, texts, maximal_of_tokenize read⟩

/-! ## Numbers -/

/-- A word that starts with a digit. -/
def IsDigitWord (word : List Char) : Prop :=
  (∃ c ∈ word.head?, c.isDigit = true) ∧ ∀ c ∈ word, isWordChar c = true

/-- A word that starts with a digit, possibly with an exponent that has a sign. -/
inductive Numeral : List Char → Prop where
  | word {word : List Char} (digits : IsDigitWord word) : Numeral word
  | signed {mantissa exponent : List Char} {mark sign : Char} (word : IsDigitWord (mantissa ++ [mark]))
      (digits : ∀ c ∈ mantissa, c.isDigit = true ∨ c = '_') (marked : mark = 'e' ∨ mark = 'E')
      (isSign : sign = '+' ∨ sign = '-') (power : IsDigitWord exponent) :
      Numeral (mantissa ++ [mark] ++ sign :: exponent)

/-- A numeral, a point and another numeral. -/
def IsFraction (cs : List Char) : Prop :=
  ∃ whole fraction, cs = whole ++ '.' :: fraction ∧ Numeral whole ∧ Numeral fraction

/-- A numeral, possibly with a fraction. -/
def IsNumber (cs : List Char) : Prop := Numeral cs ∨ IsFraction cs

section Numbers

variable {cs rest : List Char} {lexeme : Lexeme}

theorem isDigitWord_takeWhile (digit : ∃ c ∈ cs.head?, c.isDigit = true) :
    IsDigitWord (cs.takeWhile isWordChar) := by
  refine ⟨?_, fun c => List.mem_takeWhile_imp⟩
  obtain ⟨c, first, digit⟩ := digit
  cases cs with
  | nil => cases first
  | cons d cs =>
    cases first
    exact ⟨c, by simp [isWordChar, Char.isAlphanum, digit], digit⟩

theorem numeral_splitNumeral (digit : ∃ c ∈ cs.head?, c.isDigit = true) : Numeral (splitNumeral cs).1 := by
  have word := isDigitWord_takeWhile digit
  unfold splitNumeral
  dsimp only
  split
  · next exponent =>
    fun_cases splitSigned (cs.dropWhile isWordChar) with
    | case1 sign digit more isSign =>
      simp only [Bool.and_eq_true, Bool.or_eq_true, beq_iff_eq] at isSign
      unfold endsInExponentMark at exponent
      split at exponent
      · next mark digits reversed =>
        rw [List.reverse_eq_iff, List.reverse_cons] at reversed
        simp only [Bool.and_eq_true, Bool.or_eq_true, beq_iff_eq, List.all_eq_true] at exponent
        rw [reversed] at word ⊢
        refine .signed word (fun c member => exponent.2 c (List.mem_reverse.1 member)) exponent.1.1 isSign.1 ?_
        exact isDigitWord_takeWhile ⟨digit, rfl, isSign.2⟩
      · cases exponent
    | case2 | case3 => simpa using .word word
  · exact .word word

theorem exists_digit_of_startsWithFraction (more : startsWithFraction ('.' :: cs) = true) :
    ∃ c ∈ cs.head?, c.isDigit = true := by
  obtain ⟨digit, cs', same, isDigit⟩ := exists_fraction more
  cases same
  exact ⟨digit, rfl, isDigit⟩

/-- A number starts with a digit, and no fraction follows it. -/
theorem Scanned.isNumber (scanned : Scanned cs lexeme rest) (number : lexeme.category = .numberLiteral) :
    (∃ c ∈ cs.head?, c.isDigit = true) ∧ startsWithFraction rest = false ∧ IsNumber lexeme.text.toList := by
  cases scanned with
  | integer digit whole =>
    have digit := exists_digit_iff.1 digit
    rw [Lexeme.verbatim, String.toList_ofList]
    exact ⟨digit, whole, .inl (numeral_splitNumeral digit)⟩
  | fraction digit point more last =>
    have digit := exists_digit_iff.1 digit
    have whole := numeral_splitNumeral digit
    rw [point] at whole
    rw [Lexeme.verbatim, String.toList_ofList]
    exact ⟨digit, last, .inr ⟨_, _, rfl, whole, numeral_splitNumeral (exists_digit_of_startsWithFraction more)⟩⟩
  | word nonempty =>
    rcases category_wordLexeme (cs.takeWhile isWordChar) with other | other | other <;>
      cases number.symm.trans other
  | _ => cases number

theorem Numeral.point_not_mem (numeral : Numeral cs) : '.' ∉ cs := by
  have word {word : List Char} (digits : IsDigitWord word) : '.' ∉ word :=
    fun member => absurd (digits.2 _ member) (by decide)
  cases numeral with
  | word digits => exact word digits
  | signed first digits marked isSign power =>
    rw [List.mem_append, List.mem_cons]
    rintro (member | rfl | member)
    · exact word first member
    · simp at isSign
    · exact word power member

theorem IsNumber.count_point (number : IsNumber cs) : cs.count '.' ≤ 1 := by
  rcases number with numeral | ⟨whole, fraction, rfl, first, second⟩
  · simp [List.count_eq_zero.2 numeral.point_not_mem]
  · simp [List.count_eq_zero.2 first.point_not_mem, List.count_eq_zero.2 second.point_not_mem]

/-- Two numbers with nothing but a point between them would have been one. -/
theorem Tokenized.not_pointed {id start : Nat} {tokens : List Token} {t point next : Token}
    (derivation : Tokenized id start cs tokens) (follows : [t, point, next] <:+: tokens)
    (number : t.category = .numberLiteral) (isPoint : point.isOp "." = true) :
    next.category ≠ .numberLiteral := by
  intro number'
  obtain ⟨_, _, _, _, derivation⟩ := derivation.of_infix follows
  cases derivation with
  | cons _ scanned tail =>
    cases tail with
    | @cons _ _ lexeme rest _ _ scanned' tail =>
      cases tail with
      | cons _ scanned'' _ =>
        obtain ⟨isOperator, text⟩ := Token.isOp_iff.1 isPoint
        have covers : lexeme.source = ".".toList :=
          ((scanned_of_scan scanned').source_eq (.inr isOperator)).trans (congrArg String.toList text)
        obtain ⟨-, whole, -⟩ := (scanned_of_scan scanned).isNumber number
        obtain ⟨⟨digit, first, isDigit⟩, -, -⟩ := (scanned_of_scan scanned'').isNumber number'
        obtain ⟨more, starts⟩ := List.head?_eq_some_iff.1 first
        rw [covers, starts] at whole
        cases whole.symm.trans isDigit

/-- The flaw of a number is the point after its fraction. -/
theorem Flawed.exists_point {flaw : Flaw} (flawed : Flawed cs flaw)
    (message : flaw.cause.message = "Unexpected decimal point") :
    ∃ number digit after, cs = number ++ '.' :: digit :: after ∧ IsFraction number ∧ digit.isDigit = true ∧
      flaw.span = ⟨byteLength number, 1⟩ := by
  cases flawed with
  | comment =>
    have other : Cause.message .unterminatedComment ≠ "Unexpected decimal point" := by decide
    exact absurd message other
  | rawString =>
    have other : Cause.message .unterminatedRawString ≠ "Unexpected decimal point" := by decide
    exact absurd message other
  | @point whole digits fraction after digit point more second again =>
    have first := numeral_splitNumeral (exists_digit_iff.1 digit)
    have last := numeral_splitNumeral (exists_digit_of_startsWithFraction more)
    have covered := splitNumeral_append cs
    have covered' := splitNumeral_append digits
    rw [point] at first covered
    rw [second] at last covered'
    obtain ⟨d, after', same, isDigit⟩ := exists_fraction again
    cases same
    refine ⟨whole ++ '.' :: fraction, d, after', ?_, ⟨whole, fraction, rfl, first, last⟩, isDigit, rfl⟩
    simp [← covered, ← covered']

end Numbers

/-- The numbers of a source have at most one fraction and a sign only after the mark of an exponent, and no
two of them should have been one.  A source is refused for a point only where a number with a fraction
stands in front of it and a digit after it. -/
theorem numbers_of_tokenize (source : String) : (∀ tokens, tokenize source = .ok tokens →
      (∀ t ∈ tokens, t.category = .numberLiteral → IsNumber t.text.toList ∧ t.text.toList.count '.' ≤ 1) ∧
      ∀ t point next, [t, point, next] <:+: tokens → t.category = .numberLiteral → point.isOp "." = true →
        next.category ≠ .numberLiteral) ∧
    ∀ fault, tokenize source = .error fault → fault.message = "Unexpected decimal point" →
      ∃ before number digit after, source.toList = before ++ (number ++ '.' :: digit :: after) ∧
        IsFraction number ∧ digit.isDigit = true ∧ fault.span = some ⟨byteLength (before ++ number), 1⟩ := by
  refine ⟨fun tokens read => ?_, fun fault failed message => ?_⟩
  · have derivation := tokenize_eq_ok_iff.1 read
    refine ⟨derivation.forall_mem fun lexeme rest scanned _ _ number => ?_, fun t point next => derivation.not_pointed⟩
    have written := ((scanned_of_scan scanned).isNumber number).2.2
    exact ⟨written, written.count_point⟩
  · obtain ⟨before, c, rest, parts, ⟨flaw, scanned, rfl⟩ | rfl⟩ := exists_flaw_of_tokenizeFrom failed
    · obtain ⟨number, digit, after, split, fraction, isDigit, span⟩ := (flawed_of_scan scanned).exists_point message
      refine ⟨before, number, digit, after, by rw [parts, split], fraction, isDigit, ?_⟩
      simp [span]
    · have length : ("Unexpected character: " ++ String.singleton c).length = 24 := congrArg String.length message
      rw [String.length_append, String.length_singleton] at length
      exact absurd length (by decide)

/-- A number with a fraction and an exponent has a name after its point; a digit there is refused. -/
theorem numbers_of_tokenize_points :
    (∃ tokens t point next, tokenize "1.5e-3.x" = .ok tokens ∧ [t, point, next] <:+: tokens ∧ t.text = "1.5e-3" ∧
      point.isOp "." = true ∧ IsNumber t.text.toList ∧ next.category ≠ .numberLiteral) ∧
    ∃ fault, tokenize "1.5.2" = .error fault ∧
      ∃ before number digit after, "1.5.2".toList = before ++ (number ++ '.' :: digit :: after) ∧
        IsFraction number ∧ digit.isDigit = true ∧ fault.span = some ⟨byteLength (before ++ number), 1⟩ := by
  constructor
  · let tokens := (tokenize "1.5e-3.x").toOption.getD []
    let token (n : Nat) : Token := tokens.getD n ⟨0, "", 0, 0, .space, none⟩
    obtain ⟨read, split, text, number, point⟩ : tokenize "1.5e-3.x" = .ok tokens ∧
        tokens = [token 0, token 1, token 2] ∧ (token 0).text = "1.5e-3" ∧ (token 0).category = .numberLiteral ∧
        (token 1).isOp "." = true := by
      decide +kernel +zetaReduce
    obtain ⟨numbers, followers⟩ := (numbers_of_tokenize _).1 tokens read
    have among : [token 0, token 1, token 2] <:+: tokens := split ▸ List.infix_rfl
    have member : token 0 ∈ tokens := among.subset (by simp)
    exact ⟨tokens, token 0, token 1, token 2, read, among, text, point, (numbers _ member number).1,
      followers _ _ _ among number point⟩
  · obtain ⟨fault, refused, message⟩ : ∃ fault, tokenize "1.5.2" = .error fault ∧
        fault.message = "Unexpected decimal point" :=
      ⟨⟨.unexpectedDecimalPoint, some ⟨3, 1⟩⟩, eq_error_of_swap (by decide +kernel), rfl⟩
    exact ⟨fault, refused, (numbers_of_tokenize _).2 fault refused message⟩

end Sharp
