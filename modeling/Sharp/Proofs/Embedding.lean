import Sharp.Proofs.Moved
import Sharp.Proofs.Spelling
import Sharp.Proofs.TypeTokens

/-!
# Texts inside longer ones

A text that is written with the tokens of types has the same tokens in a longer text, provided that a
space stands in front of it and a line break after it.  Only its ends can run into them: blanks at its
front join the space, and a carriage return at its end joins a line feed.

* `exists_embedded`: the tokens of a text inside a longer one.
-/

namespace Sharp

open Token

variable {cs rest more body word : List Char} {c : Char} {lexeme : Lexeme}
  {lexemes closing opening : List Lexeme} {reader : List Char → Scan} {p : Char → Bool}
  {operator text : String} {tokens : List Token}

/-! ## Which reader answers -/

theorem firstScan_cons_eq_ok_iff {readers : List (List Char → Scan)} {found : Lexeme × List Char} :
    firstScan (reader :: readers) cs = .ok (some found) ↔ reader cs = .ok (some found) ∨
        reader cs = .ok none ∧ firstScan readers cs = .ok (some found) := by
  rw [firstScan]
  split
  · next passes => simp [passes]
  · next other => exact ⟨.inl, fun answers => answers.resolve_right fun passes => other passes.1⟩

def blankLexeme (blanks : List Char) : Lexeme := .verbatim blanks .space (some (.blank .space))

theorem scan_of_isBlankChar (blank : isBlankChar c = true) (cs : List Char) :
    scan (c :: cs) = firstScan [scanBlanks, scanOperator] (c :: cs) := by
  simp only [isBlankChar, Bool.or_eq_true, beq_iff_eq] at blank
  rcases blank with ((rfl | rfl) | rfl) | rfl
  · rfl
  · rfl
  · rfl
  · rfl

theorem blankLexeme_readBefore {blanks : List Char} (nonempty : blanks ≠ [])
    (all : ∀ c ∈ blanks, isBlankChar c = true) (ends : EndsBefore isBlankChar rest) :
    (blankLexeme blanks).ReadBefore rest := by
  obtain ⟨taken, dropped⟩ := takeWhile_append_endsBefore all ends
  refine ⟨nonempty, ?_⟩
  match blanks with
  | c :: cs =>
    change scan (c :: (cs ++ rest)) = _
    rw [scan_of_isBlankChar (all c (by simp)), firstScan, scanBlanks, ← List.cons_append, taken, dropped]
    rfl

/-- Blanks are read as far as they go. -/
theorem Lexeme.ReadBefore.blanks (read : lexeme.ReadBefore rest) (starts : ¬ EndsBefore isBlankChar lexeme.source) :
    lexeme = blankLexeme lexeme.source ∧ (∀ c ∈ lexeme.source, isBlankChar c = true) ∧
      EndsBefore isBlankChar rest := by
  obtain ⟨nonempty, scanned⟩ := read
  obtain ⟨c, cs, source⟩ := List.exists_cons_of_ne_nil nonempty
  have blank : isBlankChar c = true := by simpa [source] using starts
  rw [source, List.cons_append, scan_of_isBlankChar blank, firstScan, scanBlanks] at scanned
  have front : (c :: (cs ++ rest)).takeWhile isBlankChar = c :: (cs ++ rest).takeWhile isBlankChar := by
    simp [blank]
  rw [front] at scanned
  simp only [Except.ok.injEq, Option.some.injEq, Prod.mk.injEq] at scanned
  obtain ⟨rfl, dropped⟩ := scanned
  refine ⟨rfl, ?_, ?_⟩
  · intro d member
    simp only [Lexeme.verbatim, ← front] at member
    exact List.mem_takeWhile_imp member
  · intro d member
    have stopped := List.head?_dropWhile_not isBlankChar (c :: (cs ++ rest))
    rw [dropped, Option.mem_def.1 member] at stopped
    exact stopped

/-! ## A line break after a text -/

/-- The text starts with a character that ends a line. -/
def StartsWithBreak (cs : List Char) : Prop := ∃ c rest, cs = c :: rest ∧ isBreakChar c = true

theorem StartsWithBreak.endsBefore (breaks : StartsWithBreak more) (no_return : p '\r' = false)
    (no_feed : p '\n' = false) : EndsBefore p more := by
  obtain ⟨c, rest, rfl, isBreak⟩ := breaks
  simp only [isBreakChar, Bool.or_eq_true, beq_iff_eq] at isBreak
  rcases isBreak with rfl | rfl
  · simpa using no_return
  · simpa using no_feed

theorem EndsBefore.append (ends : EndsBefore p cs) (next : EndsBefore p more) : EndsBefore p (cs ++ more) := by
  cases cs with
  | nil => exact next
  | cons c cs => simpa using ends

section Break

theorem splitCommentEnd_append_right (closed : splitCommentEnd cs = some (body, rest))
    (more : List Char) : splitCommentEnd (cs ++ more) = some (body, rest ++ more) := by
  fun_induction splitCommentEnd cs generalizing body with
  | case1 cs =>
    cases closed
    rfl
  | case2 c cs other ih =>
    simp only [Option.map_eq_some_iff, Prod.mk.injEq, Prod.exists] at closed
    obtain ⟨body', rest', closed, rfl, rfl⟩ := closed
    have goesOn : splitCommentEnd (c :: (cs ++ more)) =
        (splitCommentEnd (cs ++ more)).map fun split => (c :: split.1, split.2) := by
      rw [splitCommentEnd]
      rintro cs' rfl same
      cases cs with
      | nil => cases closed
      | cons d cs =>
        cases same
        exact other cs rfl rfl
    rw [List.cons_append, goesOn, ih closed]
    rfl
  | case3 => cases closed

theorem scanComment_append_break (found : scanComment cs = .ok (some (lexeme, rest)))
    (breaks : StartsWithBreak more) : scanComment (cs ++ more) = .ok (some (lexeme, rest ++ more)) := by
  unfold scanComment at found
  split at found
  · -- A line comment, which goes up to the first line break.
    next cs =>
    cases found
    have ends : EndsBefore (!isBreakChar ·) more := breaks.endsBefore (by decide) (by decide)
    have kept (cs : List Char) : (cs ++ more).takeWhile (!isBreakChar ·) = cs.takeWhile (!isBreakChar ·) ∧
        (cs ++ more).dropWhile (!isBreakChar ·) = cs.dropWhile (!isBreakChar ·) ++ more := by
      induction cs with
      | nil => simpa using takeWhile_append_endsBefore (List.forall_mem_nil _) ends
      | cons c cs ih => cases isBreak : isBreakChar c <;> simp [isBreak, ih]
    simp only [List.cons_append, scanComment, kept]
  · next cs =>
    split at found
    · next body rest' closed =>
      cases found
      simp only [List.cons_append, scanComment, splitCommentEnd_append_right closed]
    · cases found
  · cases found

/-- Only the first two characters tell whether a comment starts. -/
theorem scanComment_eq_none_iff : scanComment (c :: cs) = .ok none ↔
      c ≠ '/' ∨ EndsBefore (fun d => d == '/' || d == '*') cs := by
  by_cases slash : c = '/'
  · subst slash
    match cs with
    | [] => simp [scanComment]
    | d :: cs =>
      by_cases line : d = '/'
      · subst line
        simp [scanComment]
      · by_cases block : d = '*'
        · subst block
          simp only [scanComment]
          split <;> simp
        · simp [scanComment, line, block]
  · simp [scanComment, slash]

theorem scanBreak_return (ends : EndsBefore (· == '\n') rest) :
    scanBreak ('\r' :: rest) = scanBreak.found ['\r'] rest := by
  match rest with
  | [] => rfl
  | c :: rest =>
    have other : c ≠ '\n' := by simpa using ends
    unfold scanBreak
    split <;> simp_all

theorem scanBreak_append (found : scanBreak cs = .ok (some (lexeme, rest)))
    (apart : cs ≠ ['\r'] ∨ EndsBefore (· == '\n') more) :
    scanBreak (cs ++ more) = .ok (some (lexeme, rest ++ more)) := by
  unfold scanBreak scanBreak.found at found
  split at found
  · cases found
    rfl
  · next cs other =>
    cases found
    have ends : EndsBefore (· == '\n') (rest ++ more) := by
      cases rest with
      | nil => simpa using apart
      | cons c cs =>
        have noFeed : c ≠ '\n' := by rintro rfl; exact other cs rfl
        simpa using noFeed
    exact scanBreak_return ends
  · cases found
    rfl
  · cases found

/-- What has no line break in it does not reach past one. -/
theorem isPrefixOf_append_break (flat : ∀ c ∈ word, isBreakChar c = false)
    (breaks : StartsWithBreak more) (cs : List Char) :
    word.isPrefixOf (cs ++ more) = word.isPrefixOf cs := by
  obtain ⟨first, more, rfl, isBreak⟩ := breaks
  induction word generalizing cs with
  | nil => rfl
  | cons c word ih =>
    obtain ⟨flat_first, flat_others⟩ := List.forall_mem_cons.1 flat
    cases cs with
    | nil =>
      have other : c ≠ first := by
        rintro rfl
        rw [isBreak] at flat_first
        cases flat_first
      simp [List.isPrefixOf, other]
    | cons d cs => simp [List.isPrefixOf, ih flat_others]

theorem scanOperator_append_break (found : scanOperator cs = .ok (some (lexeme, rest)))
    (breaks : StartsWithBreak more) :
    scanOperator (cs ++ more) = .ok (some (lexeme, rest ++ more)) := by
  have checked : operators.all fun operator => operator.toList.all fun c => !isBreakChar c := by decide
  have flat : ∀ operator ∈ operators, ∀ c ∈ operator.toList, isBreakChar c = false := by
    simpa only [List.all_eq_true, Bool.not_eq_true'] using checked
  have same : operators.find? (startsWith (cs ++ more)) = operators.find? (startsWith cs) := by
    rw [← List.head?_filter, ← List.head?_filter, List.filter_congr]
    exact fun operator known => isPrefixOf_append_break (flat operator known) breaks cs
  unfold scanOperator at found ⊢
  rw [same]
  split at found
  · next text first =>
    cases found
    have starts : startsWith cs text = true := List.find?_some first
    have fits : text.toList <+: cs := List.isPrefixOf_iff_prefix.1 starts
    have shorter : text.length ≤ cs.length := by simpa only [String.length_toList] using fits.length_le
    rw [List.drop_append_of_le_length shorter]
  · cases found

theorem isDigit_of_scanNumber (passes : scanNumber (c :: cs) = .ok none) : c.isDigit = false := by
  cases digit : c.isDigit with
  | false => rfl
  | true =>
    simp only [scanNumber, scanNumber.found, List.head?_cons, Option.map_some, Option.getD_some, digit,
      if_true] at passes
    split at passes
    · split at passes <;> cases passes
    · cases passes

theorem scan_append_of_scanWord (noNumber : scanNumber cs = .ok none)
    (found : scanWord cs = .ok (some (lexeme, rest))) (breaks : StartsWithBreak more) :
    scan (cs ++ more) = .ok (some (lexeme, rest ++ more)) := by
  unfold scanWord at found
  split at found
  · cases found
  · next nonempty =>
    cases found
    obtain ⟨c, word, front⟩ := List.exists_cons_of_ne_nil nonempty
    have all : ∀ d ∈ cs.takeWhile isWordChar, isWordChar d = true := fun d => List.mem_takeWhile_imp
    have spelled : isWordSpelling (cs.takeWhile isWordChar) = true := by
      rw [front] at all ⊢
      obtain ⟨first, others⟩ := List.forall_mem_cons.1 all
      have noDigit : c.isDigit = false := by
        obtain ⟨tail, parts⟩ : c :: word <+: cs := front ▸ List.takeWhile_prefix isWordChar
        rw [← parts] at noNumber
        exact isDigit_of_scanNumber noNumber
      simpa [isWordSpelling, noDigit, first] using others
    have ends : EndsBefore isWordChar (cs.dropWhile isWordChar ++ more) := by
      refine .append (fun d member => ?_) (breaks.endsBefore (by decide) (by decide))
      have stopped := List.head?_dropWhile_not isWordChar cs
      rw [Option.mem_def.1 member] at stopped
      exact stopped
    have read := (wordLexeme_readBefore spelled ends).2
    rwa [source_wordLexeme, ← List.append_assoc, List.takeWhile_append_dropWhile] at read

theorem scan_append_of_scanBreak (found : scanBreak cs = .ok (some (lexeme, rest)))
    (apart : cs ≠ ['\r'] ∨ EndsBefore (· == '\n') more) :
    scan (cs ++ more) = .ok (some (lexeme, rest ++ more)) := by
  have read := scanBreak_append found apart
  have front : scan (cs ++ more) = firstScan [scanBreak, scanBlanks, scanOperator] (cs ++ more) := by
    unfold scanBreak at found
    split at found
    · rfl
    · rfl
    · rfl
    · cases found
  rw [front, firstScan, read]

theorem scan_append_of_scanBlanks (found : scanBlanks cs = .ok (some (lexeme, rest)))
    (breaks : StartsWithBreak more) : scan (cs ++ more) = .ok (some (lexeme, rest ++ more)) := by
  unfold scanBlanks at found
  split at found
  · cases found
  · next nonempty =>
    cases found
    have ends : EndsBefore isBlankChar (cs.dropWhile isBlankChar ++ more) := by
      refine .append (fun d member => ?_) (breaks.endsBefore (by decide) (by decide))
      have stopped := List.head?_dropWhile_not isBlankChar cs
      rw [Option.mem_def.1 member] at stopped
      exact stopped
    have read := (blankLexeme_readBefore nonempty (fun d => List.mem_takeWhile_imp) ends).2
    rwa [blankLexeme, Lexeme.verbatim, ← List.append_assoc, List.takeWhile_append_dropWhile] at read

/-- What an operator of types starts with can start nothing else but a comment. -/
theorem scan_typeOperator (listed : operator ∈ typeOperators)
    (noComment : scanComment (operator.toList ++ cs) = .ok none) :
    scan (operator.toList ++ cs) = firstScan [scanOperator] (operator.toList ++ cs) := by
  simp only [typeOperators, List.mem_cons, List.not_mem_nil, or_false] at listed
  have others : scan (operator.toList ++ cs) = firstScan (scanComment :: [scanOperator])
      (operator.toList ++ cs) := by
    rcases listed with rfl | rfl | rfl | rfl | rfl | rfl | rfl | rfl | rfl | rfl | rfl | rfl | rfl <;> rfl
  rw [others, firstScan, noComment]

theorem eq_operatorLexeme_of_scanOperator (found : scanOperator cs = .ok (some (lexeme, rest))) :
    lexeme = operatorLexeme lexeme.text := by
  unfold scanOperator at found
  split at found
  · cases found
    rfl
  · cases found

theorem scan_append_of_scanOperator (noComment : scanComment cs = .ok none)
    (found : scanOperator cs = .ok (some (lexeme, rest))) (listed : lexeme.text ∈ typeOperators)
    (breaks : StartsWithBreak more) : scan (cs ++ more) = .ok (some (lexeme, rest ++ more)) := by
  have read := scanOperator_append_break found breaks
  obtain ⟨nonempty, rfl⟩ := scanOperator_splits cs lexeme rest found
  have source : lexeme.source = lexeme.text.toList :=
    congrArg Lexeme.source (eq_operatorLexeme_of_scanOperator found)
  have passes : scanComment (lexeme.source ++ rest ++ more) = .ok none := by
    obtain ⟨c, word, front⟩ := List.exists_cons_of_ne_nil nonempty
    rw [front, List.cons_append, scanComment_eq_none_iff] at noComment
    rw [front, List.cons_append, List.cons_append, scanComment_eq_none_iff]
    exact noComment.imp_right fun ends => ends.append (breaks.endsBefore (by decide) (by decide))
  rw [source, List.append_assoc] at passes read ⊢
  rw [scan_typeOperator listed passes, firstScan, read]

theorem isCopiedLiteral_of_reader (listed : reader ∈ [scanString, scanRawString, scanChar, scanNumber])
    (found : reader cs = .ok (some (lexeme, rest))) (id start : Nat) :
    (lexeme.tokenAt id start).isCopiedLiteral = true := by
  simp only [List.mem_cons, List.not_mem_nil, or_false] at listed
  rcases listed with rfl | rfl | rfl | rfl
  · simp [isCopiedLiteral, Lexeme.tokenAt, category_of_scanString found]
  · simp [isCopiedLiteral, Lexeme.tokenAt, category_of_scanRawString found]
  · simp [isCopiedLiteral, Lexeme.tokenAt, category_of_scanChar found]
  · simp [isCopiedLiteral, Lexeme.tokenAt, category_of_scanNumber found]

/-- What types are written with, and what can stand between it. -/
def Token.isTypeText (t : Token) : Bool := t.isTrivia || t.isTypeToken

theorem Token.isCopiedLiteral_of_isTypeText {t : Token} (plain : t.isTypeText = true) :
    t.isCopiedLiteral = false := by
  simp only [isTypeText, isTypeToken, Bool.or_eq_true] at plain
  rcases plain with trivia | isWord | operator
  · exact isCopiedLiteral_of_isTrivia trivia
  · exact isCopiedLiteral_of_isWord isWord
  · exact isCopiedLiteral_of_isOpIn operator

def Lexeme.isTypeText (lexeme : Lexeme) : Bool := (lexeme.tokenAt 0 0).isTypeText

theorem Lexeme.ReadBefore.append_break (read : lexeme.ReadBefore rest)
    (plain : lexeme.isTypeText = true) (breaks : StartsWithBreak more)
    (apart : lexeme.source ++ rest ≠ ['\r'] ∨ EndsBefore (· == '\n') more) :
    lexeme.ReadBefore (rest ++ more) := by
  obtain ⟨nonempty, scanned⟩ := read
  refine ⟨nonempty, ?_⟩
  rw [← List.append_assoc]
  have noLiteral {reader : List Char → Scan} (listed : reader ∈ [scanString, scanRawString, scanChar, scanNumber]) :
      reader (lexeme.source ++ rest) ≠ .ok (some (lexeme, rest)) := by
    intro found
    have literal := isCopiedLiteral_of_reader listed found 0 0
    rw [Token.isCopiedLiteral_of_isTypeText plain] at literal
    cases literal
  simp only [scan, lexemeReaders, firstScan_cons_eq_ok_iff] at scanned
  rcases scanned with found | ⟨comment, found | ⟨-, found | ⟨-, found | ⟨-, found | ⟨number, found |
    ⟨-, found | ⟨-, found | ⟨-, found | ⟨-, found⟩⟩⟩⟩⟩⟩⟩⟩⟩
  · exact firstScan_cons_eq_ok_iff.2 (.inl (scanComment_append_break found breaks))
  · exact absurd found (noLiteral (by simp))
  · exact absurd found (noLiteral (by simp))
  · exact absurd found (noLiteral (by simp))
  · exact absurd found (noLiteral (by simp))
  · exact scan_append_of_scanWord number found breaks
  · exact scan_append_of_scanBreak found apart
  · exact scan_append_of_scanBlanks found breaks
  · have operator : lexeme.category = .operator :=
      congrArg Lexeme.category (eq_operatorLexeme_of_scanOperator found)
    have listed : lexeme.text ∈ typeOperators := by
      simpa [Lexeme.isTypeText, Token.isTypeText, Token.isTypeToken, Token.isTrivia, Token.isWord,
        Token.isOpIn, Lexeme.tokenAt, operator] using plain
    exact scan_append_of_scanOperator comment found listed breaks
  · cases found

end Break

/-! ## The ends of a text -/

/-- Each of the lexemes is read where the text `rest` follows the last of them. -/
def ReadsBefore (rest : List Char) : List Lexeme → Prop
  | [] => True
  | lexeme :: lexemes => lexeme.ReadBefore (spelling lexemes ++ rest) ∧ ReadsBefore rest lexemes

theorem reads_append {more : List Lexeme} (first : ReadsBefore (spelling more) lexemes)
    (second : Reads more) : Reads (lexemes ++ more) := by
  induction lexemes with
  | nil => exact second
  | cons lexeme lexemes ih =>
    rw [List.cons_append]
    refine ⟨?_, ih first.2⟩
    rw [spelling_append]
    exact first.1

theorem exists_reads_of_tokenized {id start : Nat} (derivation : Tokenized id start cs tokens) :
    ∃ lexemes, Reads lexemes ∧ spelling lexemes = cs ∧ place id start lexemes = tokens := by
  induction derivation with
  | nil => exact ⟨[], trivial, rfl, rfl⟩
  | @cons id start lexeme rest tokens nonempty scanned tail ih =>
    obtain ⟨lexemes, reads, rfl, rfl⟩ := ih
    exact ⟨lexeme :: lexemes, ⟨⟨nonempty, scanned⟩, reads⟩, rfl, rfl⟩

theorem place_append (id start : Nat) (lexemes more : List Lexeme) :
    place id start (lexemes ++ more) = place id start lexemes ++
      place (id + lexemes.length) (start + byteLength (spelling lexemes)) more := by
  induction lexemes generalizing id start with
  | nil => rfl
  | cons lexeme lexemes ih =>
    have ids : id + 1 + lexemes.length = id + (lexeme :: lexemes).length := by
      rw [List.length_cons]
      omega
    have bytes : start + byteLength lexeme.source + byteLength (spelling lexemes) =
        start + byteLength (spelling (lexeme :: lexemes)) := by
      rw [spelling_cons, byteLength_append]
      omega
    rw [List.cons_append, place, ih, ids, bytes, place, List.cons_append]

theorem place_moved (shift : Shift) (id start : Nat) (lexemes : List Lexeme) :
    place (id + shift.ids) (start + shift.bytes) lexemes = (place id start lexemes).map (Token.moved shift) := by
  induction lexemes generalizing id start with
  | nil => rfl
  | cons lexeme lexemes ih =>
    have ids : id + shift.ids + 1 = id + 1 + shift.ids := by omega
    have bytes : start + shift.bytes + byteLength lexeme.source =
        start + byteLength lexeme.source + shift.bytes := by omega
    rw [place, ids, bytes, ih, place, List.map_cons]
    simp only [Lexeme.tokenAt, Token.moved, bytes]

theorem significant_moved (shift : Shift) (ts : List Token) :
    significant (ts.map (Token.moved shift)) = (significant ts).map (Token.moved shift) :=
  List.filter_map

theorem significant_place_cons_of_trivia (trivia : (lexeme.tokenAt 0 0).isTrivia = true)
    (id start : Nat) (lexemes : List Lexeme) :
    significant (place id start (lexeme :: lexemes)) =
      significant (place (id + 1) (start + byteLength lexeme.source) lexemes) := by
  have trivia : (lexeme.tokenAt id start).isTrivia = true := trivia
  simp [place, significant, trivia]

/-- A space in front of a text joins the blanks that the text starts with. -/
theorem Reads.exists_space (reads : Reads lexemes)
    (plain : ∀ lexeme ∈ lexemes, lexeme.isTypeText = true) (id start : Nat) :
    ∃ spaced shift, Reads spaced ∧ spelling spaced = ' ' :: spelling lexemes ∧
      (∀ lexeme ∈ spaced, lexeme.isTypeText = true) ∧
      significant (place id start spaced) = (significant (place 0 0 lexemes)).map (Token.moved shift) := by
  have space : isBlankChar ' ' = true := by decide
  by_cases ends : EndsBefore isBlankChar (spelling lexemes)
  · refine ⟨spaceLexeme :: lexemes, ⟨id + 1, start + 1⟩, ⟨spaceLexeme_readBefore ends, reads⟩, rfl, ?_, ?_⟩
    · exact List.forall_mem_cons.2 ⟨rfl, plain⟩
    · have moved := place_moved ⟨id + 1, start + 1⟩ 0 0 lexemes
      rw [Nat.zero_add, Nat.zero_add] at moved
      rw [significant_place_cons_of_trivia rfl, ← significant_moved, ← moved]
      rfl
  · match lexemes with
    | [] => exact absurd (endsBefore_nil _) ends
    | first :: others =>
      obtain ⟨read, reads⟩ := reads
      obtain ⟨c, cs, source⟩ := List.exists_cons_of_ne_nil read.1
      obtain ⟨eq, all, next⟩ := read.blanks (by simpa [source] using ends)
      have trivia : (first.tokenAt 0 0).isTrivia = true := by rw [eq]; rfl
      refine ⟨blankLexeme (' ' :: first.source) :: others, ⟨id, start + 1⟩, ⟨?_, reads⟩, rfl, ?_, ?_⟩
      · exact blankLexeme_readBefore (by simp) (List.forall_mem_cons.2 ⟨space, all⟩) next
      · exact List.forall_mem_cons.2 ⟨rfl, (List.forall_mem_cons.1 plain).2⟩
      · have moved := place_moved ⟨id, start + 1⟩ 1 (byteLength first.source) others
        have bytes : start + byteLength (' ' :: first.source) = byteLength first.source + (start + 1) := by
          have one : ' '.utf8Size = 1 := rfl
          rw [byteLength, one]
          omega
        rw [significant_place_cons_of_trivia rfl, significant_place_cons_of_trivia trivia,
          ← significant_moved, Nat.zero_add, Nat.zero_add, ← moved, Nat.add_comm id 1]
        exact congrArg (fun start => significant (place (1 + id) start others)) bytes

theorem Reads.eq_nil (reads : Reads lexemes) (empty : spelling lexemes = []) : lexemes = [] := by
  cases lexemes with
  | nil => rfl
  | cons first others => exact absurd (List.append_eq_nil_iff.1 empty).1 reads.1.1

/-- A line feed joins the carriage return that the text in front of it ends with. -/
theorem Reads.exists_break (reads : Reads lexemes)
    (plain : ∀ lexeme ∈ lexemes, lexeme.isTypeText = true) (newline : Newline)
    (closes : Reads closing) (ends : EndsBefore (· == '\n') (spelling closing)) :
    ∃ broken, Reads (broken ++ closing) ∧ spelling broken = spelling lexemes ++ newline.text.toList ∧
      ∀ id start, significant (place id start broken) = significant (place id start lexemes) := by
  induction lexemes with
  | nil =>
    refine ⟨[newline.lexeme], ⟨newline.readBefore ends, closes⟩, ?_, fun _ _ => rfl⟩
    simp [Newline.lexeme, Lexeme.verbatim]
  | cons first others ih =>
    obtain ⟨read, reads⟩ := reads
    obtain ⟨plain_first, plain_others⟩ := List.forall_mem_cons.1 plain
    obtain ⟨broken, reads_broken, spelled, same⟩ := ih reads plain_others
    have breaks : StartsWithBreak (newline.text.toList ++ spelling closing) := by
      cases newline
      · exact ⟨_, _, rfl, rfl⟩
      · exact ⟨_, _, rfl, rfl⟩
      · exact ⟨_, _, rfl, rfl⟩
    by_cases apart : first.source ++ spelling others ≠ ['\r'] ∨
        EndsBefore (· == '\n') (newline.text.toList ++ spelling closing)
    · have read := read.append_break plain_first breaks apart
      rw [← List.append_assoc, ← spelled, ← spelling_append] at read
      refine ⟨first :: broken, ⟨read, reads_broken⟩, ?_, fun id start => ?_⟩
      · rw [spelling_cons, spelled, spelling_cons, List.append_assoc]
      · simp only [place, significant, List.filter_cons] at same ⊢
        rw [same]
    · -- The text ends here, and its carriage return joins the line feed.
      rw [not_or, not_not] at apart
      obtain ⟨returns, feeds⟩ := apart
      have scanned := read.2
      rw [returns] at scanned
      have same := scanned.symm.trans (Newline.cr.readBefore (endsBefore_nil _)).2
      simp only [Except.ok.injEq, Option.some.injEq, Prod.mk.injEq] at same
      obtain ⟨rfl, empty⟩ := same
      cases reads.eq_nil empty
      cases newline with
      | cr | crlf => simp [Newline.text] at feeds
      | lf => exact ⟨[Newline.crlf.lexeme], ⟨Newline.crlf.readBefore ends, closes⟩, rfl, fun _ _ => rfl⟩

/-! ## The whole text -/

theorem isTypeText_of_place {id start : Nat} (plain : ∀ t ∈ place id start lexemes, t.isTypeText = true) :
    ∀ lexeme ∈ lexemes, lexeme.isTypeText = true := by
  induction lexemes generalizing id start with
  | nil => simp
  | cons first others ih =>
    obtain ⟨plain_first, plain_others⟩ := List.forall_mem_cons.1 plain
    exact List.forall_mem_cons.2 ⟨plain_first, ih plain_others⟩

/-- What types are written with is read the same behind `opening` and a space, and in front of a line
break and `closing`. -/
theorem exists_embedded (read : tokenize text = .ok tokens) (plain : ∀ t ∈ tokens, t.isTypeText = true)
    (newline : Newline)
    (opens : ∀ cs, ReadsBefore (' ' :: cs) opening) (closes : Reads closing)
    (ends : EndsBefore (· == '\n') (spelling closing)) :
    ∃ middle shift, Reads (opening ++ (middle ++ closing)) ∧
      spelling middle = ' ' :: (text.toList ++ newline.text.toList) ∧
      significant (place opening.length (byteLength (spelling opening)) middle) =
        (significant tokens).map (Token.moved shift) := by
  obtain ⟨lexemes, reads, spelled, rfl⟩ := exists_reads_of_tokenized (tokenize_eq_ok_iff.1 read)
  obtain ⟨spaced, shift, reads, spelled_spaced, plain, significant_spaced⟩ :=
    reads.exists_space (isTypeText_of_place plain) opening.length (byteLength (spelling opening))
  obtain ⟨middle, reads, spelled_middle, significant_middle⟩ :=
    reads.exists_break plain newline closes ends
  rw [spelled_spaced, spelled, List.cons_append] at spelled_middle
  refine ⟨middle, shift, reads_append ?_ reads, spelled_middle, ?_⟩
  · rw [spelling_append, spelled_middle, List.cons_append]
    exact opens _
  · rw [significant_middle, significant_spaced]

end Sharp
