import Sharp.Token.Stream

/-!
# What is read at the front of a text

* `Scanned`: the lexemes that readers find, with one case for each way in which a reader answers.
* `scanned_of_scan`: a lexeme that is read is one of them.
* `Flawed`, `flawed_of_scan`: the flaws that readers find.
-/

namespace Sharp

/-- `Scanned cs lexeme rest`: some reader finds the lexeme at the front of `cs`, with `rest` after it. -/
inductive Scanned : List Char → Lexeme → List Char → Prop where
  | lineComment (cs : List Char) : Scanned ('/' :: '/' :: cs)
        (.verbatim ('/' :: '/' :: cs.takeWhile (!isBreakChar ·)) .comment (some (.comment .line)))
        (cs.dropWhile (!isBreakChar ·))
  | blockComment {cs body rest : List Char} (closed : splitCommentEnd cs = some (body, rest)) :
      Scanned ('/' :: '*' :: cs) (.verbatim ('/' :: '*' :: body) .comment (some (.comment .block))) rest
  | closedString {cs body closed rest : List Char} {opening : StringOpening}
      (opens : stringOpening? cs = some (opening, body))
      (closes : (if opening.isVerbatim then splitClosedVerbatim body else splitClosedString body) =
        some (closed, rest)) :
      Scanned cs ⟨opening.mark ++ closed, String.ofList (opening.mark ++ closed), .stringLiteral,
        some (.literal .string)⟩ rest
  | openString {cs body : List Char} {opening : StringOpening}
      (opens : stringOpening? cs = some (opening, body)) {unclosed rest : List Char}
      (stops : splitOpenString (!opening.isVerbatim) body = (unclosed, rest)) :
      Scanned cs ⟨opening.mark ++ unclosed, String.ofList (opening.mark ++ unclosed ++ ['"']), .stringLiteral,
        some (.literal .string)⟩ rest
  | backquoted {cs marks body inside rest : List Char} (opens : splitRawMarks cs = (marks, backquote :: body))
      (closes : splitBackquoted backquote body = some (inside, rest)) {quotes : List Char}
      (enough : quotes = List.replicate (max 3 (longestQuoteRun (unescapeBackquotes inside) + 1)) '"') :
      Scanned cs ⟨marks ++ backquote :: (inside ++ [backquote]),
        String.ofList (marks ++ quotes ++ unescapeBackquotes inside ++ quotes), .rawStringLiteral,
        some (.literal .rawString)⟩ rest
  | rawString {cs marks body inside rest : List Char} (opens : splitRawMarks cs = (marks, body))
      (three : 3 ≤ quoteRun body)
      (closes : splitQuotedBody (quoteRun body) (body.drop (quoteRun body)) = some (inside, rest)) :
      Scanned cs (.verbatim (marks ++ body.take (quoteRun body) ++ inside) .rawStringLiteral
        (some (.literal .rawString))) rest
  | charLiteral (first cs : List Char) {closed : Bool} {body rest : List Char}
      (ends : splitChar cs = (closed, body, rest)) :
      Scanned ('\'' :: (first ++ cs)) ⟨'\'' :: (first ++ body),
        String.ofList ('\'' :: (first ++ body) ++ if closed then [] else ['\'']), .charLiteral,
        some (.literal .char)⟩ rest
  | integer {cs : List Char} (digit : (cs.head?.map Char.isDigit).getD false = true)
      (whole : startsWithFraction (splitNumeral cs).2 = false) :
      Scanned cs (.verbatim (splitNumeral cs).1 .numberLiteral (some (.literal .number))) (splitNumeral cs).2
  | fraction {cs whole digits : List Char} (digit : (cs.head?.map Char.isDigit).getD false = true)
      (point : splitNumeral cs = (whole, '.' :: digits)) (more : startsWithFraction ('.' :: digits) = true)
      (last : startsWithFraction (splitNumeral digits).2 = false) :
      Scanned cs (.verbatim (whole ++ '.' :: (splitNumeral digits).1) .numberLiteral (some (.literal .number)))
        (splitNumeral digits).2
  | word {cs : List Char} (nonempty : cs.takeWhile isWordChar ≠ []) :
      Scanned cs (wordLexeme (cs.takeWhile isWordChar)) (cs.dropWhile isWordChar)
  | lineBreak {source : List Char} (listed : source ∈ [['\r', '\n'], ['\r'], ['\n']]) (rest : List Char) :
      Scanned (source ++ rest) (.verbatim source .lineBreak (some (.blank .lineBreak))) rest
  | blanks {cs : List Char} (nonempty : cs.takeWhile isBlankChar ≠ []) :
      Scanned cs (.verbatim (cs.takeWhile isBlankChar) .space (some (.blank .space))) (cs.dropWhile isBlankChar)
  | operator {cs : List Char} {text : String} (longest : operators.find? (startsWith cs) = some text) :
      Scanned cs ⟨text.toList, text, .operator, operatorRole? text⟩ (cs.drop text.length)

section Readers

variable {cs rest : List Char} {lexeme : Lexeme}

/-- What a list of readers answers, one of them answers. -/
theorem exists_reader_of_firstScan {readers : List (List Char → Scan)} {answer : Scan}
    (found : firstScan readers cs = answer) (something : answer ≠ .ok none) :
    ∃ reader ∈ readers, reader cs = answer := by
  induction readers with
  | nil => exact absurd found.symm something
  | cons reader readers ih =>
    unfold firstScan at found
    split at found
    · obtain ⟨reader', member, found⟩ := ih found
      exact ⟨reader', List.mem_cons_of_mem _ member, found⟩
    · exact ⟨reader, List.mem_cons_self, found⟩

theorem eq_of_startsWithFraction (fraction : startsWithFraction cs = true) : cs = '.' :: cs.tail := by
  revert fraction
  fun_cases startsWithFraction cs with
  | case1 digit rest => exact fun _ => rfl
  | case2 =>
    intro fraction
    cases fraction

theorem scanned_of_scanComment (found : scanComment cs = .ok (some (lexeme, rest))) : Scanned cs lexeme rest := by
  unfold scanComment at found
  split at found
  · cases found
    exact .lineComment _
  · split at found
    · next closed =>
      cases found
      exact .blockComment closed
    · cases found
  · cases found

theorem scanned_of_scanString (found : scanString cs = .ok (some (lexeme, rest))) : Scanned cs lexeme rest := by
  unfold scanString scanString.found at found
  split at found
  · cases found
  · cases found
  · next opens =>
    split at found
    · next closes =>
      cases found
      rw [List.append_nil]
      exact .closedString opens closes
    · cases found
      exact .openString opens rfl

theorem scanned_of_scanRawString (found : scanRawString cs = .ok (some (lexeme, rest))) :
    Scanned cs lexeme rest := by
  unfold scanRawString at found
  dsimp only at found
  split at found
  · cases found
  · next c body opens =>
    split at found
    · next quote =>
      split at found
      · cases found
      · next closes =>
        cases found
        obtain rfl := beq_iff_eq.1 quote
        exact .backquoted (Prod.ext rfl opens) closes rfl
    · split at found
      · cases found
      · next three =>
        split at found
        · cases found
        · next closes =>
          cases found
          exact .rawString rfl (Nat.le_of_not_lt three) closes

theorem scanned_of_scanChar (found : scanChar cs = .ok (some (lexeme, rest))) : Scanned cs lexeme rest := by
  unfold scanChar scanChar.found at found
  split at found
  · cases found
    exact .charLiteral [] _ rfl
  · next c cs _ =>
    split at found
    · cases found
    · cases found
      exact .charLiteral [c] cs rfl
  · cases found

theorem scanned_of_scanNumber (found : scanNumber cs = .ok (some (lexeme, rest))) : Scanned cs lexeme rest := by
  unfold scanNumber scanNumber.found at found
  split at found
  · next digit =>
    dsimp only at found
    split at found
    · next more =>
      split at found
      · cases found
      · next last =>
        cases found
        have point : splitNumeral cs = ((splitNumeral cs).1, '.' :: (splitNumeral cs).2.tail) :=
          Prod.ext rfl (eq_of_startsWithFraction more)
        exact .fraction digit point (eq_of_startsWithFraction more ▸ more) (by simpa using last)
    · next whole =>
      cases found
      exact .integer digit (by simpa using whole)
  · cases found

theorem scanned_of_scanWord (found : scanWord cs = .ok (some (lexeme, rest))) : Scanned cs lexeme rest := by
  unfold scanWord at found
  split at found
  · cases found
  · next nonempty =>
    cases found
    exact .word nonempty

theorem scanned_of_scanBreak (found : scanBreak cs = .ok (some (lexeme, rest))) : Scanned cs lexeme rest := by
  unfold scanBreak scanBreak.found at found
  split at found
  · cases found
    exact @Scanned.lineBreak ['\r', '\n'] (by simp) _
  · cases found
    exact @Scanned.lineBreak ['\r'] (by simp) _
  · cases found
    exact @Scanned.lineBreak ['\n'] (by simp) _
  · cases found

theorem scanned_of_scanBlanks (found : scanBlanks cs = .ok (some (lexeme, rest))) : Scanned cs lexeme rest := by
  unfold scanBlanks at found
  split at found
  · cases found
  · next nonempty =>
    cases found
    exact .blanks nonempty

theorem scanned_of_scanOperator (found : scanOperator cs = .ok (some (lexeme, rest))) : Scanned cs lexeme rest := by
  unfold scanOperator at found
  split at found
  · next longest =>
    cases found
    exact .operator longest
  · cases found

theorem category_of_scanComment (found : scanComment cs = .ok (some (lexeme, rest))) :
    lexeme.category = .comment := by
  fun_cases scanComment cs <;> grind [scanComment, Lexeme.verbatim]

theorem category_of_scanString (found : scanString cs = .ok (some (lexeme, rest))) :
    lexeme.category = .stringLiteral := by
  grind [scanString, scanString.found]

theorem category_of_scanRawString (found : scanRawString cs = .ok (some (lexeme, rest))) :
    lexeme.category = .rawStringLiteral := by
  grind [scanRawString, Lexeme.verbatim]

theorem category_of_scanChar (found : scanChar cs = .ok (some (lexeme, rest))) :
    lexeme.category = .charLiteral := by
  fun_cases scanChar cs <;> grind [scanChar, scanChar.found]

theorem category_of_scanNumber (found : scanNumber cs = .ok (some (lexeme, rest))) :
    lexeme.category = .numberLiteral := by
  grind [scanNumber, scanNumber.found, Lexeme.verbatim]

theorem category_of_scanWord (found : scanWord cs = .ok (some (lexeme, rest))) :
    lexeme.category = .keyword ∨ lexeme.category = .contextKeyword ∨ lexeme.category = .identifier := by
  grind [scanWord, wordLexeme, Lexeme.verbatim]

theorem category_of_scanBreak (found : scanBreak cs = .ok (some (lexeme, rest))) :
    lexeme.category = .lineBreak := by
  fun_cases scanBreak cs <;> grind [scanBreak, scanBreak.found, Lexeme.verbatim]

theorem category_of_scanBlanks (found : scanBlanks cs = .ok (some (lexeme, rest))) : lexeme.category = .space := by
  grind [scanBlanks, Lexeme.verbatim]

theorem category_of_scanOperator (found : scanOperator cs = .ok (some (lexeme, rest))) :
    lexeme.category = .operator := by
  grind [scanOperator]

/-- A lexeme that is read is one that a reader finds. -/
theorem scanned_of_scan (found : scan cs = .ok (some (lexeme, rest))) : Scanned cs lexeme rest := by
  obtain ⟨reader, member, found⟩ := exists_reader_of_firstScan found nofun
  simp only [lexemeReaders, List.mem_cons, List.not_mem_nil, or_false] at member
  obtain rfl | rfl | rfl | rfl | rfl | rfl | rfl | rfl | rfl := member
  · exact scanned_of_scanComment found
  · exact scanned_of_scanString found
  · exact scanned_of_scanRawString found
  · exact scanned_of_scanChar found
  · exact scanned_of_scanNumber found
  · exact scanned_of_scanWord found
  · exact scanned_of_scanBreak found
  · exact scanned_of_scanBlanks found
  · exact scanned_of_scanOperator found

/-- `Flawed cs flaw`: some reader finds the flaw in the text `cs`. -/
inductive Flawed (cs : List Char) : Flaw → Prop where
  | comment : Flawed cs ⟨.unterminatedComment, ⟨0, byteLength cs⟩⟩
  | rawString : Flawed cs ⟨.unterminatedRawString, ⟨0, byteLength cs⟩⟩
  | point {whole digits fraction after : List Char} (digit : (cs.head?.map Char.isDigit).getD false = true)
      (point : splitNumeral cs = (whole, '.' :: digits)) (more : startsWithFraction ('.' :: digits) = true)
      (second : splitNumeral digits = (fraction, '.' :: after))
      (again : startsWithFraction ('.' :: after) = true) :
      Flawed cs ⟨.unexpectedDecimalPoint, ⟨byteLength (whole ++ '.' :: fraction), 1⟩⟩

theorem flawed_of_scanNumber {flaw : Flaw} (failed : scanNumber cs = .error flaw) : Flawed cs flaw := by
  unfold scanNumber scanNumber.found at failed
  split at failed
  · next digit =>
    dsimp only at failed
    split at failed
    · next more =>
      split at failed
      · next again =>
        cases failed
        have first := eq_of_startsWithFraction more
        have second := eq_of_startsWithFraction again
        exact .point digit (Prod.ext rfl first) (first ▸ more) (Prod.ext rfl second) (second ▸ again)
      · cases failed
    · cases failed
  · cases failed

/-- Only comments, raw strings and numbers can have flaws. -/
theorem flawed_of_scan {flaw : Flaw} (failed : scan cs = .error flaw) : Flawed cs flaw := by
  obtain ⟨reader, member, failed⟩ := exists_reader_of_firstScan failed nofun
  simp only [lexemeReaders, List.mem_cons, List.not_mem_nil, or_false] at member
  obtain rfl | rfl | rfl | rfl | rfl | rfl | rfl | rfl | rfl := member
  · unfold scanComment at failed
    split at failed
    · cases failed
    · split at failed
      · cases failed
      · cases failed
        exact .comment
    · cases failed
  · grind [scanString, scanString.found]
  · have same : flaw = ⟨.unterminatedRawString, ⟨0, byteLength cs⟩⟩ := by grind [scanRawString]
    exact same ▸ .rawString
  · fun_cases scanChar cs <;> grind [scanChar, scanChar.found]
  · exact flawed_of_scanNumber failed
  · grind [scanWord]
  · fun_cases scanBreak cs <;> grind [scanBreak, scanBreak.found]
  · grind [scanBlanks]
  · grind [scanOperator]

end Readers

/-! ## Words -/

theorem text_wordLexeme (word : List Char) : (wordLexeme word).text = String.ofList word := by
  unfold wordLexeme
  split
  · rfl
  · split <;> rfl

theorem category_wordLexeme (word : List Char) :
    (wordLexeme word).category = .keyword ∨ (wordLexeme word).category = .contextKeyword ∨
      (wordLexeme word).category = .identifier := by
  grind [wordLexeme, Lexeme.verbatim]

end Sharp
