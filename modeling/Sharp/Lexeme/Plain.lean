import Sharp.Lexeme.Basic

/-!
# Comments, white space, words and operators

The lexemes that are written as they stand.
-/

namespace Sharp

def splitCommentEnd : List Char → Option (List Char × List Char)
  | '*' :: '/' :: cs => some (['*', '/'], cs)
  | c :: cs => (splitCommentEnd cs).map fun (body, rest) => (c :: body, rest)
  | [] => none

theorem splitCommentEnd_append {cs body rest : List Char}
    (h : splitCommentEnd cs = some (body, rest)) : body ++ rest = cs := by
  fun_induction splitCommentEnd cs generalizing body with
  | case1 cs =>
    simp only [Option.some.injEq, Prod.mk.injEq] at h
    obtain ⟨rfl, rfl⟩ := h
    rfl
  | case2 c cs _ ih =>
    simp only [Option.map_eq_some_iff, Prod.mk.injEq, Prod.exists] at h
    obtain ⟨body', rest', h, rfl, rfl⟩ := h
    simp [ih h]
  | case3 => simp at h

/-- Reads a comment.  A line comment ends before the line break; a block comment has to be
closed. -/
def scanComment : List Char → Scan
  | '/' :: '/' :: cs =>
    .ok (some (.verbatim ('/' :: '/' :: cs.takeWhile (!isBreakChar ·)) .comment
      (some (.comment .line)), cs.dropWhile (!isBreakChar ·)))
  | '/' :: '*' :: cs =>
    match splitCommentEnd cs with
    | some (body, rest) =>
      .ok (some (.verbatim ('/' :: '*' :: body) .comment (some (.comment .block)), rest))
    | none => .error ⟨.unterminatedComment, ⟨0, byteLength ('/' :: '*' :: cs)⟩⟩
  | _ => .ok none

theorem scanComment_splits (cs : List Char) : (scanComment cs).Splits cs := by
  unfold scanComment
  split
  · exact Scan.splits_found (by simp [Lexeme.verbatim]) (by simp [Lexeme.verbatim])
  · split
    · next h =>
      exact Scan.splits_found (by simp [Lexeme.verbatim])
        (by simp [Lexeme.verbatim, splitCommentEnd_append h])
    · exact Scan.splits_error _ _
  · exact Scan.splits_nothing _

/-- Reads a line break: carriage return, line feed or both in this order. -/
def scanBreak : List Char → Scan
  | '\r' :: '\n' :: cs => found ['\r', '\n'] cs
  | '\r' :: cs => found ['\r'] cs
  | '\n' :: cs => found ['\n'] cs
  | _ => .ok none
where
  found (source rest : List Char) : Scan :=
    .ok (some (.verbatim source .lineBreak (some (.blank .lineBreak)), rest))

theorem scanBreak_splits (cs : List Char) : (scanBreak cs).Splits cs := by
  unfold scanBreak scanBreak.found
  split
  · exact Scan.splits_found (by simp [Lexeme.verbatim]) (by simp [Lexeme.verbatim])
  · exact Scan.splits_found (by simp [Lexeme.verbatim]) (by simp [Lexeme.verbatim])
  · exact Scan.splits_found (by simp [Lexeme.verbatim]) (by simp [Lexeme.verbatim])
  · exact Scan.splits_nothing _

/-- The characters that separate tokens within a line: space, tab, vertical tab and form feed. -/
def isBlankChar (c : Char) : Bool :=
  c == ' ' || c == '\t' || c == '\x0b' || c == '\x0c'

def scanBlanks (cs : List Char) : Scan :=
  match cs.takeWhile isBlankChar with
  | [] => .ok none
  | blanks => .ok (some (.verbatim blanks .space (some (.blank .space)), cs.dropWhile isBlankChar))

theorem scanBlanks_splits (cs : List Char) : (scanBlanks cs).Splits cs := by
  unfold scanBlanks
  split
  · exact Scan.splits_nothing _
  · next h => exact Scan.splits_found h (by simp [Lexeme.verbatim])

def wordLexeme (word : List Char) : Lexeme :=
  match keywordRole? (String.ofList word) with
  | some role => .verbatim word .keyword (some role)
  | none =>
    match contextKeywordRole? (String.ofList word) with
    | some role => .verbatim word .contextKeyword (some role)
    | none => .verbatim word .identifier none

@[simp] theorem source_wordLexeme (word : List Char) : (wordLexeme word).source = word := by
  unfold wordLexeme
  split
  · rfl
  · split <;> rfl

def scanWord (cs : List Char) : Scan :=
  match cs.takeWhile isWordChar with
  | [] => .ok none
  | word => .ok (some (wordLexeme word, cs.dropWhile isWordChar))

theorem scanWord_splits (cs : List Char) : (scanWord cs).Splits cs := by
  unfold scanWord
  split
  · exact Scan.splits_nothing _
  · next h => exact Scan.splits_found (by simpa using h) (by simp)

/-- The role an operator has from the start: brackets are known by sight. -/
def operatorRole? (text : String) : Option Role :=
  if text = "(" ∨ text = ")" then some (.bracket .parenthesis)
  else if text = "\x7b" ∨ text = "\x7d" then some (.bracket .brace)
  else none

def scanOperator (cs : List Char) : Scan :=
  match operators.find? (startsWith cs) with
  | some text =>
    .ok (some (⟨text.toList, text, .operator, operatorRole? text⟩, cs.drop text.length))
  | none => .ok none

theorem scanOperator_splits (cs : List Char) : (scanOperator cs).Splits cs := by
  unfold scanOperator
  split
  · next text h =>
    have fits : startsWith cs text = true := by simpa using List.find?_some h
    have known : text ∈ operators := List.mem_of_find?_eq_some h
    obtain ⟨rest, rfl⟩ := List.isPrefixOf_iff_prefix.1 fits
    refine Scan.splits_found ?_ ?_
    · intro empty
      have : text = "" := by simpa using empty
      subst this
      exact absurd known (by decide)
    · rw [← String.length_toList, List.drop_left]
  · exact Scan.splits_nothing _

end Sharp
