import Sharp.Proofs.Tokenized

/-!
# Reading what is spelled

A text that is put together from lexemes is read as these lexemes, provided that none of them runs
into the next one.

* `tokenize_spelling`: what is spelled is read.
-/

namespace Sharp

variable {cs rest : List Char}

/-- The tokens of some lexemes, numbered from `id` on, when the first starts at the byte `start`. -/
def place (id start : Nat) : List Lexeme → List Token
  | [] => []
  | lexeme :: lexemes =>
    lexeme.tokenAt id start :: place (id + 1) (start + byteLength lexeme.source) lexemes

@[simp] theorem length_place (id start : Nat) (lexemes : List Lexeme) :
    (place id start lexemes).length = lexemes.length := by
  induction lexemes generalizing id start with
  | nil => rfl
  | cons lexeme lexemes ih => simp [place, ih]

theorem exists_place_append (id start : Nat) (lexemes more : List Lexeme) :
    ∃ id' start', place id start (lexemes ++ more) = place id start lexemes ++ place id' start' more := by
  induction lexemes generalizing id start with
  | nil => exact ⟨id, start, rfl⟩
  | cons lexeme lexemes ih =>
    obtain ⟨id', start', h⟩ := ih (id + 1) (start + byteLength lexeme.source)
    exact ⟨id', start', by simp only [place, List.cons_append, h]⟩

/-- The text that lexemes cover. -/
def spelling (lexemes : List Lexeme) : List Char := lexemes.flatMap Lexeme.source

@[simp] theorem spelling_nil : spelling [] = [] := rfl

@[simp] theorem spelling_cons (lexeme : Lexeme) (lexemes : List Lexeme) :
    spelling (lexeme :: lexemes) = lexeme.source ++ spelling lexemes :=
  rfl

@[simp] theorem spelling_append (lexemes more : List Lexeme) :
    spelling (lexemes ++ more) = spelling lexemes ++ spelling more :=
  List.flatMap_append

/-- The lexeme is read from a text that `rest` ends. -/
def Lexeme.ReadBefore (lexeme : Lexeme) (rest : List Char) : Prop :=
  lexeme.source ≠ [] ∧ scan (lexeme.source ++ rest) = .ok (some (lexeme, rest))

/-- Each of the lexemes is read from the text that it and the lexemes after it spell. -/
def Reads : List Lexeme → Prop
  | [] => True
  | lexeme :: lexemes => lexeme.ReadBefore (spelling lexemes) ∧ Reads lexemes

theorem Reads.tokenized {lexemes : List Lexeme} (reads : Reads lexemes) (id start : Nat) :
    Tokenized id start (spelling lexemes) (place id start lexemes) := by
  induction lexemes generalizing id start with
  | nil => exact .nil
  | cons lexeme lexemes ih =>
    obtain ⟨⟨nonempty, scanned⟩, tail⟩ := reads
    exact .cons nonempty scanned (ih tail _ _)

theorem tokenize_spelling {source : String} {lexemes : List Lexeme}
    (spelled : source.toList = spelling lexemes) (reads : Reads lexemes) :
    tokenize source = .ok (place 0 0 lexemes) := by
  rw [tokenize_eq_ok_iff, spelled]
  exact reads.tokenized 0 0

/-! ## Words -/

/-- Is this how a word is spelled that is no number? -/
def isWordSpelling : List Char → Bool
  | [] => false
  | c :: cs => !c.isDigit && isWordChar c && cs.all isWordChar

/-- Does the text not go on with a character that satisfies `p`? -/
def EndsBefore (p : Char → Bool) (cs : List Char) : Prop := ∀ c ∈ cs.head?, p c = false

@[simp] theorem endsBefore_nil (p : Char → Bool) : EndsBefore p [] := by
  simp [EndsBefore]

@[simp] theorem endsBefore_cons {p : Char → Bool} {c : Char} : EndsBefore p (c :: cs) ↔ p c = false := by
  simp [EndsBefore]

theorem takeWhile_append_endsBefore {p : Char → Bool} (all : ∀ c ∈ cs, p c = true) (ends : EndsBefore p rest) :
    (cs ++ rest).takeWhile p = cs ∧ (cs ++ rest).dropWhile p = rest := by
  rw [List.takeWhile_append_of_pos all, List.dropWhile_append_of_pos all]
  match rest with
  | [] => simp
  | c :: rest =>
    have : p c = false := by simpa using ends
    simp [this]

/-- A word is read by the readers for numbers and words: what the readers before them look for starts
with another character. -/
theorem scan_of_isWordChar {c : Char} (word : isWordChar c = true) :
    scan (c :: cs) = firstScan [scanNumber, scanWord, scanBreak, scanBlanks, scanOperator] (c :: cs) := by
  have other (d : Char) (h : isWordChar d = false) : c ≠ d := by
    rintro rfl
    simp [h] at word
  have slash := other '/' (by decide)
  have quote := other '"' (by decide)
  have tick := other '\'' (by decide)
  have dollar := other '$' (by decide)
  have mark := other '@' (by decide)
  have back := other backquote (by decide)
  have comment : scanComment (c :: cs) = .ok none := by
    unfold scanComment
    split <;> simp_all
  have string : scanString (c :: cs) = .ok none := by
    simp [scanString, stringOpening?, quote, dollar, mark]
  have rawString : scanRawString (c :: cs) = .ok none := by
    simp [scanRawString, splitRawMarks, quoteRun, quote, dollar, mark, back]
  have char : scanChar (c :: cs) = .ok none := by
    unfold scanChar
    split <;> simp_all
  simp only [scan, lexemeReaders, firstScan, comment, string, rawString, char]

theorem wordLexeme_readBefore (word : isWordSpelling cs = true) (ends : EndsBefore isWordChar rest) :
    (wordLexeme cs).ReadBefore rest := by
  match cs with
  | c :: cs =>
    simp only [isWordSpelling, Bool.and_eq_true, Bool.not_eq_true', List.all_eq_true] at word
    obtain ⟨⟨digit, first⟩, more⟩ := word
    have all : ∀ d ∈ c :: cs, isWordChar d = true := by
      intro d member
      rcases List.mem_cons.1 member with rfl | member
      · exact first
      · exact more d member
    obtain ⟨taken, dropped⟩ := takeWhile_append_endsBefore all ends
    have number : scanNumber (c :: (cs ++ rest)) = .ok none := by simp [scanNumber, digit]
    refine ⟨by simp, ?_⟩
    rw [source_wordLexeme, List.cons_append, scan_of_isWordChar first, firstScan, number, firstScan, scanWord,
      ← List.cons_append, taken, dropped]

/-! ## Blanks and operators -/

def spaceLexeme : Lexeme := .verbatim [' '] .space (some (.blank .space))

theorem spaceLexeme_readBefore (ends : EndsBefore isBlankChar rest) : spaceLexeme.ReadBefore rest := by
  have blank : ∀ c ∈ [' '], isBlankChar c = true := by simp [isBlankChar]
  obtain ⟨taken, dropped⟩ := takeWhile_append_endsBefore blank ends
  have front : scan (' ' :: rest) = firstScan [scanBlanks, scanOperator] (' ' :: rest) := rfl
  refine ⟨by simp [spaceLexeme, Lexeme.verbatim], ?_⟩
  simp only [List.singleton_append] at taken dropped
  simp only [spaceLexeme, Lexeme.verbatim, List.singleton_append, front, firstScan, scanBlanks, taken, dropped]

/-- The line breaks that a source can have. -/
inductive Newline where
  | lf
  | crlf
  | cr

def Newline.text : Newline → String
  | lf => "\n"
  | crlf => "\r\n"
  | cr => "\r"

def Newline.lexeme (newline : Newline) : Lexeme :=
  .verbatim newline.text.toList .lineBreak (some (.blank .lineBreak))

/-- A carriage return would take a line feed after it along. -/
theorem Newline.readBefore (newline : Newline) (ends : EndsBefore (· == '\n') rest) :
    newline.lexeme.ReadBefore rest := by
  refine ⟨by cases newline <;> decide, ?_⟩
  cases newline with
  | lf => rfl
  | crlf => rfl
  | cr =>
    match rest with
    | [] => rfl
    | c :: rest =>
      have other : c ≠ '\n' := by simpa using ends
      have broken : scanBreak ('\r' :: c :: rest) = scanBreak.found ['\r'] (c :: rest) := by
        unfold scanBreak
        split <;> simp_all
      have front : scan ('\r' :: c :: rest) =
          firstScan [scanBreak, scanBlanks, scanOperator] ('\r' :: c :: rest) := rfl
      change scan ('\r' :: c :: rest) = _
      rw [front, firstScan, broken]
      rfl

def operatorLexeme (text : String) : Lexeme := ⟨text.toList, text, .operator, operatorRole? text⟩

/-- The brackets and the semicolon are no part of a longer operator. -/
theorem operatorLexeme_readBefore {text : String} (single : text ∈ ["(", ")", "\x7b", "\x7d", ";"])
    (rest : List Char) : (operatorLexeme text).ReadBefore rest := by
  simp only [List.mem_cons, List.not_mem_nil, or_false] at single
  rcases single with rfl | rfl | rfl | rfl | rfl <;> exact ⟨by decide, rfl⟩

end Sharp
