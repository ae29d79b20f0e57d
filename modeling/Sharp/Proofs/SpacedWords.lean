import Mathlib.Data.List.Forall2
import Sharp.Proofs.Scanned
import Sharp.Proofs.Spelling
import Sharp.Token.Bracket

/-!
# Words with spaces between them

Words and operators that are written with single spaces between them are read as one token each.

* `Paired`: words whose parentheses are closed.
-/

namespace Sharp

variable {word separator text : String} {words front back : List String} {ts : List Token}
  {t : Token} {rest : List Char}

/-! ## Words and their lexemes -/

/-- Operators that a space ends. -/
def spacedOperators : List String := ["(", ")", "?", "#", "-", "/", ":", ",", "=>", "~"]

/-- The word is read as one token where a space follows it. -/
def Spellable (word : String) : Prop := word ∈ spacedOperators ∨ isWordSpelling word.toList = true

def lexemeOf (word : String) : Lexeme :=
  if word ∈ operators then operatorLexeme word else wordLexeme word.toList

theorem not_mem_operators (spelled : isWordSpelling word.toList = true) : word ∉ operators := by
  intro member
  have none_spelled : ∀ operator ∈ operators, isWordSpelling operator.toList = false := by decide
  rw [none_spelled word member] at spelled
  cases spelled

theorem Spellable.ne (spellable : Spellable word) (operator : String) (known : operator ∈ operators)
    (other : operator ∉ spacedOperators) : word ≠ operator := by
  rintro rfl
  rcases spellable with member | spelled
  · exact other member
  · exact not_mem_operators spelled known

theorem lexemeOf_operator (member : word ∈ spacedOperators) : lexemeOf word = operatorLexeme word := by
  have known : ∀ operator ∈ spacedOperators, operator ∈ operators := by decide
  exact if_pos (known word member)

theorem lexemeOf_word (spelled : isWordSpelling word.toList = true) : lexemeOf word = wordLexeme word.toList :=
  if_neg (not_mem_operators spelled)

@[simp] theorem text_lexemeOf (word : String) : (lexemeOf word).text = word := by
  unfold lexemeOf
  split
  · rfl
  · rw [text_wordLexeme, String.ofList_toList]

@[simp] theorem source_lexemeOf (word : String) : (lexemeOf word).source = word.toList := by
  unfold lexemeOf
  split
  · rfl
  · rw [source_wordLexeme]

/-- The text is at its end or goes on with a space. -/
def SpaceNext (rest : List Char) : Prop := rest = [] ∨ ∃ more, rest = ' ' :: more

theorem spacedOperator_readBefore (member : word ∈ spacedOperators) (next : SpaceNext rest) :
    (operatorLexeme word).ReadBefore rest := by
  refine ⟨?_, ?_⟩
  · have nonempty : ∀ operator ∈ spacedOperators, (operatorLexeme operator).source ≠ [] := by decide
    exact nonempty word member
  · simp only [spacedOperators, List.mem_cons, List.not_mem_nil, or_false] at member
    rcases next with rfl | ⟨more, rfl⟩
    · rcases member with rfl | rfl | rfl | rfl | rfl | rfl | rfl | rfl | rfl | rfl <;> rfl
    · rcases member with rfl | rfl | rfl | rfl | rfl | rfl | rfl | rfl | rfl | rfl <;> rfl

theorem Spellable.readBefore (spellable : Spellable word) (next : SpaceNext rest) :
    (lexemeOf word).ReadBefore rest := by
  rcases spellable with member | spelled
  · rw [lexemeOf_operator member]
    exact spacedOperator_readBefore member next
  · rw [lexemeOf_word spelled]
    refine wordLexeme_readBefore spelled ?_
    rcases next with rfl | ⟨more, rfl⟩
    · simp
    · simp only [endsBefore_cons]
      decide

theorem isBlankChar_of_isWordChar {c : Char} (word : isWordChar c = true) : isBlankChar c = false := by
  cases blank : isBlankChar c with
  | false => rfl
  | true =>
    simp only [isBlankChar, Bool.or_eq_true, beq_iff_eq] at blank
    rcases blank with ((rfl | rfl) | rfl) | rfl <;> simp [isWordChar] at word

/-- A space in front of a word is one space. -/
theorem Spellable.endsBefore (spellable : Spellable word) (more : List Char) :
    EndsBefore isBlankChar (word.toList ++ more) := by
  rcases spellable with member | spelled
  · simp only [spacedOperators, List.mem_cons, List.not_mem_nil, or_false] at member
    rcases member with rfl | rfl | rfl | rfl | rfl | rfl | rfl | rfl | rfl | rfl <;> simp [isBlankChar]
  · cases chars : word.toList with
    | nil => rw [chars] at spelled; cases spelled
    | cons c cs =>
      rw [chars] at spelled
      simp only [isWordSpelling, Bool.and_eq_true] at spelled
      simp only [List.cons_append, endsBefore_cons]
      exact isBlankChar_of_isWordChar spelled.1.2

/-! ## Reading them -/

def spaced (words : List String) : List Lexeme := (words.map lexemeOf).intersperse spaceLexeme

@[simp] theorem spaced_nil : spaced [] = [] := rfl

@[simp] theorem spaced_singleton (word : String) : spaced [word] = [lexemeOf word] := rfl

@[simp] theorem spaced_cons_cons (word next : String) (words : List String) :
    spaced (word :: next :: words) = lexemeOf word :: spaceLexeme :: spaced (next :: words) :=
  rfl

theorem spelling_spaced (words : List String) : (" ".intercalate words).toList = spelling (spaced words) := by
  induction words with
  | nil => rfl
  | cons word words ih =>
    cases words with
    | nil => simp
    | cons next words =>
      rw [String.intercalate_cons_cons, spaced_cons_cons]
      simp [ih, spaceLexeme, Lexeme.verbatim]

theorem spelling_spaced_cons (word : String) (words : List String) :
    ∃ more, spelling (spaced (word :: words)) = word.toList ++ more := by
  cases words with
  | nil => exact ⟨[], by simp⟩
  | cons next words => exact ⟨_, by rw [spaced_cons_cons, spelling_cons, source_lexemeOf]⟩

/-- Only the last word depends on what follows. -/
theorem reads_spaced_append (spellable : ∀ word ∈ words, Spellable word) {lexemes : List Lexeme}
    (last : ∀ word ∈ words.getLast?, (lexemeOf word).ReadBefore (spelling lexemes))
    (reads : Reads lexemes) : Reads (spaced words ++ lexemes) := by
  induction words with
  | nil => exact reads
  | cons word words ih =>
    obtain ⟨first, others⟩ := List.forall_mem_cons.1 spellable
    cases words with
    | nil => exact ⟨last word rfl, reads⟩
    | cons next words =>
      obtain ⟨more, spelled⟩ := spelling_spaced_cons next words
      refine ⟨first.readBefore (.inr ⟨spelling (spaced (next :: words) ++ lexemes), rfl⟩),
        spaceLexeme_readBefore ?_, ih others (by simpa using last)⟩
      change EndsBefore isBlankChar (spelling (spaced (next :: words) ++ lexemes))
      rw [spelling_append, spelled, List.append_assoc]
      exact (List.forall_mem_cons.1 others).1.endsBefore _

theorem reads_spaced (spellable : ∀ word ∈ words, Spellable word) : Reads (spaced words) := by
  have whole : Reads (spaced words ++ []) := by
    refine reads_spaced_append spellable (fun word last => ?_) trivial
    exact (spellable word (List.mem_of_getLast? last)).readBefore (.inl rfl)
  rwa [List.append_nil] at whole

/-- The token is read from the word. -/
structure Token.Spells (t : Token) (word : String) : Prop where
  text : t.text = word
  category : t.category = (lexemeOf word).category

instance (t : Token) (word : String) : Decidable (t.Spells word) :=
  decidable_of_iff (t.text = word ∧ t.category = (lexemeOf word).category)
    ⟨fun is => ⟨is.1, is.2⟩, fun is => ⟨is.text, is.category⟩⟩

/-- Each of the tokens is read from one of the words. -/
abbrev Spells (ts : List Token) (words : List String) : Prop := List.Forall₂ Token.Spells ts words

theorem isTrivia_tokenAt_lexemeOf (word : String) (id start : Nat) :
    ((lexemeOf word).tokenAt id start).isTrivia = false := by
  by_cases operator : word ∈ operators
  · rw [lexemeOf, if_pos operator]
    rfl
  · rw [lexemeOf, if_neg operator, wordLexeme]
    cases keywordRole? (String.ofList word.toList) with
    | some role => rfl
    | none => cases contextKeywordRole? (String.ofList word.toList) <;> rfl

theorem spells_significant_place (words : List String) (id start : Nat) :
    Spells (significant (place id start (spaced words))) words := by
  have is (word : String) (id start : Nat) : ((lexemeOf word).tokenAt id start).Spells word :=
    ⟨text_lexemeOf word, rfl⟩
  have space (id start : Nat) : (spaceLexeme.tokenAt id start).isTrivia = true := rfl
  induction words generalizing id start with
  | nil => exact .nil
  | cons word words ih =>
    cases words with
    | nil =>
      simp only [spaced_singleton, place, significant, List.filter, isTrivia_tokenAt_lexemeOf, Bool.not_false]
      exact .cons (is word id start) .nil
    | cons next words =>
      simp only [spaced_cons_cons, place, significant, List.filter_cons, isTrivia_tokenAt_lexemeOf, space,
        Bool.not_false, Bool.not_true, Bool.false_eq_true, if_true, if_false]
      exact .cons (is word id start) (ih _ _)

/-- Words with spaces between them are read as a token each. -/
theorem tokenize_intercalate (spellable : ∀ word ∈ words, Spellable word) :
    ∃ tokens, tokenize (" ".intercalate words) = .ok tokens ∧ Spells (significant tokens) words :=
  ⟨place 0 0 (spaced words), tokenize_spelling (spelling_spaced words) (reads_spaced spellable),
    spells_significant_place words 0 0⟩

/-! ## Taking tokens apart -/

theorem Spells.cons_inv (spells : Spells ts (word :: words)) :
    ∃ t rest, ts = t :: rest ∧ t.Spells word ∧ Spells rest words := by
  obtain ⟨t, rest, is, tail, rfl⟩ := List.forall₂_cons_right_iff.1 spells
  exact ⟨t, rest, rfl, is, tail⟩

theorem Spells.append_inv (spells : Spells ts (front ++ back)) :
    ∃ before after, ts = before ++ after ∧ Spells before front ∧ Spells after back :=
  ⟨ts.take front.length, ts.drop front.length, (List.take_append_drop _ _).symm,
    List.forall₂_take_append _ _ _ spells, List.forall₂_drop_append _ _ _ spells⟩

theorem Spells.map_text (spells : Spells ts words) : ts.map Token.text = words := by
  induction spells with
  | nil => rfl
  | cons is _ ih => rw [List.map_cons, is.text, ih]

theorem Spells.exists_word (spells : Spells ts words) (member : t ∈ ts) : ∃ word ∈ words, t.Spells word := by
  induction spells with
  | nil => cases member
  | cons is _ ih =>
    rcases List.mem_cons.1 member with rfl | member
    · exact ⟨_, List.mem_cons_self, is⟩
    · obtain ⟨word, among, spelled⟩ := ih member
      exact ⟨word, List.mem_cons_of_mem _ among, spelled⟩

theorem Spells.isEmpty_eq_false (spells : Spells ts words) (nonempty : words ≠ []) : ts.isEmpty = false := by
  cases spells with
  | nil => exact absurd rfl nonempty
  | cons _ _ => rfl

theorem Token.Spells.isOp (is : t.Spells word) (text : String) :
    t.isOp text = ((lexemeOf word).category == .operator && word == text) := by
  rw [Token.isOp, is.category, is.text]

/-! ## Groups -/

/-- Words that a space ends, among which the parentheses are closed. -/
inductive Paired : List String → Prop where
  | nil : Paired []
  | word {word : String} (spellable : Spellable word) (other : word ≠ "(" ∧ word ≠ ")") : Paired [word]
  | group {words : List String} (inside : Paired words) : Paired ("(" :: words ++ [")"])
  | append {front back : List String} (left : Paired front) (right : Paired back) : Paired (front ++ back)

theorem Paired.spellable {words : List String} (paired : Paired words) : ∀ word ∈ words, Spellable word := by
  induction paired with
  | nil => simp
  | word spellable other => simpa using spellable
  | group inside ih =>
    intro word member
    simp only [List.cons_append, List.mem_cons, List.mem_append, List.not_mem_nil, or_false] at member
    rcases member with rfl | member | rfl
    · exact .inl (by decide)
    · exact ih word member
    · exact .inl (by decide)
  | append left right left_ih right_ih =>
    intro word member
    rcases List.mem_append.1 member with member | member
    · exact left_ih word member
    · exact right_ih word member

theorem Paired.ofWord (spelled : isWordSpelling word.toList = true) : Paired [word] := by
  have among : ∀ bracket ∈ ["(", ")"], bracket ∈ operators := by decide
  refine .word (.inr spelled) ⟨?_, ?_⟩
  · rintro rfl
    exact not_mem_operators spelled (among "(" (by decide))
  · rintro rfl
    exact not_mem_operators spelled (among ")" (by decide))

theorem Paired.ofOperator (member : word ∈ ["?", "#", "-", "/", ":", ",", "=>", "~"]) : Paired [word] := by
  have among : ∀ word ∈ ["?", "#", "-", "/", ":", ",", "=>", "~"],
      word ∈ spacedOperators ∧ word ≠ "(" ∧ word ≠ ")" := by decide
  exact .word (.inl (among word member).1) (among word member).2

theorem Paired.intercalate (between : Paired [separator]) {groups : List (List String)}
    (each : ∀ words ∈ groups, Paired words) : Paired ([separator].intercalate groups) := by
  induction groups with
  | nil => exact .nil
  | cons words groups ih =>
    obtain ⟨first, others⟩ := List.forall_mem_cons.1 each
    cases groups with
    | nil => simpa using first
    | cons next groups =>
      rw [List.intercalate_cons_cons]
      exact (first.append between).append (ih others)

theorem Token.Spells.isOp_of_ne (is : t.Spells word) (other : word ≠ text) : t.isOp text = false := by
  simp [is.isOp, other]

end Sharp
