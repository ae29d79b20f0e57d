import Sharp.Proofs.SelfDelimiting
import Sharp.Proofs.SpacedWords

/-!
# Names, numbers and operators in a text

A name, a number or an operator is read as such as long as the characters after it do not continue it.
An operator is continued by a character with which it starts another operator, and the longest operator
wins.

* `operatorLexeme_readBefore_of_stops`, `numberLexeme_readBefore`: where operators and numbers end.
-/

namespace Sharp

variable {cs rest : List Char} {text longer word : String} {c : Char} {lexeme : Lexeme}

/-- The operators of plain expressions. -/
def plainOperators : List String :=
  ["+", "-", "*", "/", "%", "&", "|", "^", "!", "<", ">", "<=", ">=", "==", "!=", "&&", "||", "??", "<<",
   ">>", "++", "--"]

/-- An identifier, a number, or one of the operators. -/
def IsPlainWord (word : String) : Prop :=
  word ∈ plainOperators ∨ ∃ t, tokenize word = .ok [t] ∧ (t.category = .identifier ∨ t.category = .numberLiteral)

/-! ## The longest operator -/

/-- What is found is at least as long as every operator in front of the text. -/
theorem exists_longer_operator (known : text ∈ operators) (fits : text.toList <+: cs) :
    ∃ found, operators.find? (startsWith cs) = some found ∧ text.length ≤ found.length := by
  have sorted : operators.Pairwise fun first second => second.length ≤ first.length := by decide
  have starts : startsWith cs text = true := List.isPrefixOf_iff_prefix.2 fits
  generalize operators = listed at known sorted
  induction listed with
  | nil => cases known
  | cons first others ih =>
    obtain ⟨shorter, sorted⟩ := List.pairwise_cons.1 sorted
    cases front : startsWith cs first with
    | true =>
      refine ⟨first, by simp [front], ?_⟩
      rcases List.mem_cons.1 known with rfl | member
      · exact Nat.le_refl _
      · exact shorter text member
    | false =>
      rcases List.mem_cons.1 known with rfl | member
      · rw [front] at starts
        cases starts
      · obtain ⟨found, first, longer⟩ := ih member sorted
        exact ⟨found, by simp [front, first], longer⟩

/-- An operator is found where no longer one fits. -/
theorem find?_operators (known : text ∈ operators) (fits : text.toList <+: cs)
    (longest : ∀ operator ∈ operators, operator.toList <+: cs → operator.length ≤ text.length) :
    operators.find? (startsWith cs) = some text := by
  obtain ⟨found, first, longer⟩ := exists_longer_operator known fits
  have starts : startsWith cs found = true := List.find?_some first
  have front : found.toList <+: cs := List.isPrefixOf_iff_prefix.1 starts
  have same : found.length = text.length :=
    Nat.le_antisymm (longest found (List.mem_of_find?_eq_some first) front) longer
  rw [first, String.toList_inj.1 ((List.prefix_of_prefix_length_le front fits ?_).eq_of_length ?_)]
  · simp [String.length_toList, same]
  · simp [String.length_toList, same]

/-- No operator goes on from `text` with the character `c`. -/
def StopsBefore (text : String) (c : Char) : Prop :=
  ∀ operator ∈ operators, ¬ text.toList ++ [c] <+: operator.toList

theorem StopsBefore.scanOperator {text : String} {c : Char} (stops : StopsBefore text c)
    (known : text ∈ operators) (more : List Char) :
    scanOperator (text.toList ++ c :: more) = .ok (some (operatorLexeme text, c :: more)) := by
  have found : operators.find? (startsWith (text.toList ++ c :: more)) = some text := by
    refine find?_operators known (List.prefix_append ..) fun operator listed front => ?_
    by_contra longer
    have extends_ : text.toList ++ [c] <+: text.toList ++ c :: more := by simp
    refine stops operator listed (List.prefix_of_prefix_length_le extends_ front ?_)
    simp only [List.length_append, String.length_toList, List.length_singleton]
    omega
  have rest : (text.toList ++ c :: more).drop text.length = c :: more := List.drop_left' String.length_toList
  rw [Sharp.scanOperator, found]
  simp only [rest]
  rfl

/-- The first characters of the operators. -/
def operatorChars : List Char := ['+', '-', '*', '/', '%', '&', '|', '^', '!', '<', '>', '=', '?']

/-- What an operator starts with can start nothing else but a comment. -/
theorem scan_operatorChar (listed : c ∈ operatorChars) (noComment : scanComment (c :: cs) = .ok none) :
    scan (c :: cs) = firstScan [scanOperator] (c :: cs) := by
  have others : scan (c :: cs) = firstScan (scanComment :: [scanOperator]) (c :: cs) := by
    simp only [operatorChars, List.mem_cons, List.not_mem_nil, or_false] at listed
    rcases listed with rfl | rfl | rfl | rfl | rfl | rfl | rfl | rfl | rfl | rfl | rfl | rfl | rfl <;> rfl
  rw [others, firstScan, noComment]

section

variable (member : text ∈ plainOperators)
include member

theorem exists_operatorChar : ∃ c ∈ operatorChars, ∃ cs, text.toList = c :: cs ∧ (c = '/' → text = "/") := by
  have checked : ∀ text ∈ plainOperators, text.toList.head?.any fun c =>
      operatorChars.contains c && (c != '/' || text == "/") := by
    decide
  have first := checked text member
  match front : text.toList with
  | [] => simp [front] at first
  | c :: cs =>
    simp only [front, List.head?_cons, Option.any_some, Bool.and_eq_true, List.contains_iff_mem,
      Bool.or_eq_true, bne_iff_ne, beq_iff_eq] at first
    exact ⟨c, first.1, cs, rfl, fun slash => first.2.resolve_left fun other => other slash⟩

theorem mem_operators_of_plain : text ∈ operators := by
  have known : ∀ text ∈ plainOperators, text ∈ operators := by decide
  exact known text member

/-- In front of a plain operator only comments are looked for before operators. -/
theorem scan_plainOperator (noComment : text = "/" → c ≠ '/' ∧ c ≠ '*') (more : List Char) :
    scan (text.toList ++ c :: more) = firstScan [scanOperator] (text.toList ++ c :: more) := by
  obtain ⟨d, listed, cs, front, slash⟩ := exists_operatorChar member
  rw [front, List.cons_append]
  refine scan_operatorChar listed (scanComment_eq_none_iff.2 ?_)
  by_cases isSlash : d = '/'
  · have alone : cs = [] := by
      have single := slash isSlash
      subst single
      simpa using (List.cons.inj front).2.symm
    right
    simpa [alone] using noComment (slash isSlash)
  · exact .inl isSlash

/-- An operator is read as such if it stops before the next character. -/
theorem operatorLexeme_readBefore_of_stops (stops : StopsBefore text c)
    (noComment : text = "/" → c ≠ '/' ∧ c ≠ '*') (more : List Char) :
    (operatorLexeme text).ReadBefore (c :: more) := by
  refine ⟨?_, ?_⟩
  · obtain ⟨d, -, cs, front, -⟩ := exists_operatorChar member
    simp [operatorLexeme, front]
  · change scan (text.toList ++ c :: more) = _
    rw [scan_plainOperator member noComment, firstScan,
      stops.scanOperator (mem_operators_of_plain member)]

/-- An operator that another one continues with the next character is not read. -/
theorem exists_scan_longer (known : longer ∈ operators) (continues : longer.toList = text.toList ++ [c])
    (noComment : text = "/" → c ≠ '/' ∧ c ≠ '*') (more : List Char) :
    ∃ found rest, scan (text.toList ++ c :: more) = .ok (some (operatorLexeme found, rest)) ∧ found ≠ text := by
  have fits : longer.toList <+: text.toList ++ c :: more := by
    rw [continues]
    exact ⟨more, by simp⟩
  obtain ⟨found, first, enough⟩ := exists_longer_operator known fits
  refine ⟨found, (text.toList ++ c :: more).drop found.length, ?_, ?_⟩
  · rw [scan_plainOperator member noComment, firstScan, scanOperator, first]
    rfl
  · rintro rfl
    have := congrArg List.length continues
    simp only [List.length_append, String.length_toList, List.length_singleton] at this
    omega

end

/-! ## Numbers -/

def numberLexeme (cs : List Char) : Lexeme := .verbatim cs .numberLiteral (some (.literal .number))

/-- The text does not continue a number: neither its digits, nor with a fraction, nor with the sign of
an exponent. -/
structure EndsNumber (rest : List Char) : Prop where
  word : EndsBefore isWordChar rest
  fraction : startsWithFraction rest = false
  sign : (splitSigned rest).1 = []

theorem takeWhile_append_of_endsBefore {p : Char → Bool} (ends : EndsBefore p rest) (cs : List Char) :
    (cs ++ rest).takeWhile p = cs.takeWhile p ∧ (cs ++ rest).dropWhile p = cs.dropWhile p ++ rest := by
  induction cs with
  | nil => simpa using takeWhile_append_endsBefore (List.forall_mem_nil _) ends
  | cons c cs ih => cases first : p c <;> simp [first, ih]

theorem isDigit_eq_false_of_endsBefore (ends : EndsBefore isWordChar (c :: cs)) : c.isDigit = false := by
  have other : isWordChar c = false := by simpa using ends
  cases digit : c.isDigit with
  | false => rfl
  | true => simp [isWordChar, Char.isAlphanum, digit] at other

theorem splitSigned_append_right (ends : EndsNumber rest) (cs : List Char) :
    splitSigned (cs ++ rest) = ((splitSigned cs).1, (splitSigned cs).2 ++ rest) := by
  match cs with
  | [] =>
    have covered := splitSigned_append rest
    rw [ends.sign, List.nil_append] at covered
    exact Prod.ext ends.sign covered
  | [sign] =>
    match rest with
    | [] => rfl
    | c :: rest => simp [splitSigned, isDigit_eq_false_of_endsBefore ends.word]
  | sign :: digit :: cs =>
    obtain ⟨taken, dropped⟩ := takeWhile_append_of_endsBefore ends.word (digit :: cs)
    simp only [List.cons_append] at taken dropped
    simp only [List.cons_append, splitSigned, taken, dropped]
    split <;> rfl

theorem splitNumeral_append_right (ends : EndsNumber rest) (cs : List Char) :
    splitNumeral (cs ++ rest) = ((splitNumeral cs).1, (splitNumeral cs).2 ++ rest) := by
  obtain ⟨taken, dropped⟩ := takeWhile_append_of_endsBefore ends.word cs
  simp only [splitNumeral, taken, dropped, splitSigned_append_right ends]
  split <;> rfl

theorem exists_fraction (fraction : startsWithFraction cs = true) :
    ∃ digit more, cs = '.' :: digit :: more ∧ digit.isDigit = true := by
  unfold startsWithFraction at fraction
  split at fraction
  · exact ⟨_, _, rfl, fraction⟩
  · cases fraction

theorem scanNumber_append_right (read : scanNumber cs = .ok (some (numberLexeme cs, []))) (ends : EndsNumber rest) :
    scanNumber (cs ++ rest) = .ok (some (numberLexeme cs, rest)) := by
  match cs with
  | [] => cases read
  | digit :: cs =>
    have numeral := splitNumeral_append_right ends (digit :: cs)
    rw [List.cons_append] at numeral ⊢
    rw [scanNumber] at read ⊢
    simp only [List.head?_cons, Option.map_some, Option.getD_some, numeral] at read ⊢
    split at read
    case isFalse => cases read
    case isTrue isDigit =>
      rw [if_pos isDigit]
      cases fraction : startsWithFraction (splitNumeral (digit :: cs)).2 with
      | true =>
        obtain ⟨first, more, after, isFirst⟩ := exists_fraction fraction
        have second := splitNumeral_append_right ends (first :: more)
        rw [List.cons_append] at second
        rw [after] at read ⊢
        have point : startsWithFraction ('.' :: first :: more) = true := isFirst
        have point' : startsWithFraction ('.' :: first :: (more ++ rest)) = true := isFirst
        simp only [point, List.tail_cons, if_true] at read
        simp only [List.cons_append, point', List.tail_cons, if_true, second]
        cases again : startsWithFraction (splitNumeral (first :: more)).2 with
        | true =>
          -- No number has two fractions.
          simp only [again, if_true] at read
          cases read
        | false =>
          simp only [again, Bool.false_eq_true, if_false] at read
          obtain ⟨whole, none_left⟩ := Prod.mk.inj (Option.some.inj (Except.ok.inj read))
          rw [none_left, List.nil_append, ends.fraction, ← whole]
          rfl
      | false =>
        simp only [fraction, Bool.false_eq_true, if_false] at read
        obtain ⟨whole, none_left⟩ := Prod.mk.inj (Option.some.inj (Except.ok.inj read))
        rw [none_left, List.nil_append, ends.fraction, ← whole]
        rfl

theorem isDigit_of_scanNumber_ok {found : Lexeme × List Char}
    (read : scanNumber (c :: cs) = .ok (some found)) : c.isDigit = true := by
  cases digit : c.isDigit with
  | true => rfl
  | false => simp [scanNumber, digit] at read

theorem numberLexeme_readBefore (read : scanNumber cs = .ok (some (numberLexeme cs, []))) (ends : EndsNumber rest) :
    (numberLexeme cs).ReadBefore rest := by
  match cs with
  | [] => cases read
  | digit :: cs =>
    refine ⟨by simp [numberLexeme, Lexeme.verbatim], ?_⟩
    change scan (digit :: (cs ++ rest)) = _
    have isWord : isWordChar digit = true := by simp [isWordChar, Char.isAlphanum, isDigit_of_scanNumber_ok read]
    rw [scan_of_isWordChar isWord, firstScan, ← List.cons_append, scanNumber_append_right read ends]

/-! ## The lexemes of plain words -/

/-- What plain words are read as. -/
inductive PlainLexeme : Lexeme → Prop where
  | operator {text : String} (member : text ∈ plainOperators) : PlainLexeme (operatorLexeme text)
  | name {cs : List Char} (isWord : isWordSpelling cs = true)
      (category : (wordLexeme cs).category = .identifier) : PlainLexeme (wordLexeme cs)
  | number {cs : List Char} (read : scanNumber cs = .ok (some (numberLexeme cs, []))) :
      PlainLexeme (numberLexeme cs)

theorem eq_numberLexeme_of_scanNumber (read : scanNumber cs = .ok (some (lexeme, []))) :
    lexeme = numberLexeme cs := by
  obtain ⟨-, covered⟩ := scanNumber_splits cs lexeme [] read
  have kind : lexeme = numberLexeme lexeme.source := by
    grind [scanNumber, scanNumber.found, numberLexeme, Lexeme.verbatim]
  rw [kind, ← covered, List.append_nil]

/-- A word that is read whole and is no number. -/
theorem eq_wordLexeme_of_scanWord (passed : scanNumber cs = .ok none)
    (read : scanWord cs = .ok (some (lexeme, []))) :
    lexeme = wordLexeme cs ∧ isWordSpelling cs = true := by
  unfold scanWord at read
  split at read
  · cases read
  · next nonempty =>
    obtain ⟨rfl, dropped⟩ := Prod.mk.inj (Option.some.inj (Except.ok.inj read))
    have whole : cs.takeWhile isWordChar = cs := by
      have parts := @List.takeWhile_append_dropWhile _ isWordChar cs
      rwa [dropped, List.append_nil] at parts
    have all : ∀ c ∈ cs, isWordChar c = true := by
      rw [← whole]
      exact fun c => List.mem_takeWhile_imp
    refine ⟨by rw [whole], ?_⟩
    match cs with
    | [] => exact absurd rfl nonempty
    | c :: cs =>
      obtain ⟨first, others⟩ := List.forall_mem_cons.1 all
      simpa [isWordSpelling, isDigit_of_scanNumber passed, first] using others

theorem IsPlainWord.exists_lexeme (plain : IsPlainWord word) :
    ∃ lexeme, PlainLexeme lexeme ∧ lexeme.text = word := by
  rcases plain with member | ⟨t, read, category⟩
  · exact ⟨_, .operator member, rfl⟩
  · obtain ⟨lexeme, scanned, rfl⟩ := tokenize_eq_singleton_iff.1 read
    have category : lexeme.category = .identifier ∨ lexeme.category = .numberLiteral := category
    simp only [scan, lexemeReaders, firstScan_cons_eq_ok_iff] at scanned
    rcases scanned with found | ⟨-, found | ⟨-, found | ⟨-, found | ⟨-, found | ⟨number, found |
      ⟨-, found | ⟨-, found | ⟨-, found | ⟨-, found⟩⟩⟩⟩⟩⟩⟩⟩⟩
    · simp [category_of_scanComment found] at category
    · simp [category_of_scanString found] at category
    · simp [category_of_scanRawString found] at category
    · simp [category_of_scanChar found] at category
    · obtain rfl := eq_numberLexeme_of_scanNumber found
      exact ⟨_, .number found, String.ofList_toList⟩
    · obtain ⟨rfl, isWord⟩ := eq_wordLexeme_of_scanWord number found
      rcases category with category | category
      · exact ⟨_, .name isWord category, by rw [text_wordLexeme, String.ofList_toList]⟩
      · rcases category_of_scanWord found with other | other | other <;> simp [other] at category
    · simp [category_of_scanBreak found] at category
    · simp [category_of_scanBlanks found] at category
    · simp [category_of_scanOperator found] at category
    · cases found

namespace PlainLexeme

theorem toList_text (plain : PlainLexeme lexeme) : lexeme.text.toList = lexeme.source := by
  cases plain with
  | operator member => rfl
  | name isWord category => simp [text_wordLexeme]
  | number read => simp [numberLexeme, Lexeme.verbatim]

/-- A plain word starts with a character that starts no comment and is no blank. -/
theorem exists_first (plain : PlainLexeme lexeme) :
    ∃ c cs, lexeme.source = c :: cs ∧ (isWordChar c = true ∨ c ∈ operatorChars) := by
  cases plain with
  | operator member =>
    obtain ⟨c, listed, cs, front, -⟩ := exists_operatorChar member
    exact ⟨c, cs, front, .inr listed⟩
  | name isWord category =>
    rename_i word
    cases word with
    | nil => cases isWord
    | cons c cs =>
      simp only [isWordSpelling, Bool.and_eq_true] at isWord
      exact ⟨c, cs, source_wordLexeme _, .inl isWord.1.2⟩
  | number read =>
    rename_i numeral
    cases numeral with
    | nil => cases read
    | cons c cs =>
      refine ⟨c, cs, rfl, .inl ?_⟩
      simp [isWordChar, Char.isAlphanum, isDigit_of_scanNumber_ok read]

theorem endsBefore_isBlankChar (plain : PlainLexeme lexeme) (more : List Char) :
    EndsBefore isBlankChar (lexeme.source ++ more) := by
  obtain ⟨c, cs, front, first⟩ := plain.exists_first
  rw [front, List.cons_append, endsBefore_cons]
  rcases first with word | listed
  · exact isBlankChar_of_isWordChar word
  · have checked : operatorChars.all (!isBlankChar ·) = true := by decide
    simpa using List.all_eq_true.1 checked c listed

end PlainLexeme

end Sharp
