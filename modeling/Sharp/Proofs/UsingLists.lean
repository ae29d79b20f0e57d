import Mathlib.Data.List.Duplicate
import Sharp.Proofs.Brackets
import Sharp.Proofs.DeclaredTypes

/-!
# Using lists

A `using` statement opens a list of namespaces, and each gets a line of its own.  The flags of an entry
stand behind its `@`, and one that any entry has holds for all of them.

* `convert_using`: a source that is one such list.
-/

namespace Sharp

open Token

variable {t : Token} {ts rest : List Token} {word : String} {segments lines : List String}

/-! ## Entries -/

/-- What an entry can ask for behind its `@`. -/
inductive UsingFlag where
  | isStatic
  | isGlobal
  deriving DecidableEq

def UsingFlag.text : UsingFlag → String
  | .isStatic => "static"
  | .isGlobal => "global"

/-- A dotted name, and the flags behind it. -/
structure UsingEntry where
  segments : List String
  nonempty : segments ≠ []
  spelled : ∀ segment ∈ segments, isWordSpelling segment.toList = true
  flags : List UsingFlag

namespace UsingEntry

def name (entry : UsingEntry) : String := ".".intercalate entry.segments

/-- The `@` of an entry with flags, and the flags. -/
def mark (entry : UsingEntry) : List String :=
  if entry.flags = [] then [] else "@" :: entry.flags.map UsingFlag.text

def words (entry : UsingEntry) : List String := entry.segments.intersperse "." ++ entry.mark

end UsingEntry

def usingWords (entries : List UsingEntry) : List String :=
  [","].intercalate (entries.map UsingEntry.words)

/-- The line of a name where the flags hold. -/
def usingLine (flags : List UsingFlag) (name : String) : String :=
  (if .isGlobal ∈ flags then "global " else "") ++ "using " ++
    (if .isStatic ∈ flags then "static " else "") ++ name ++ ";"

/-- A word of a list is a name, a flag or one of its three operators. -/
def IsUsingWord (word : String) : Prop := isWordSpelling word.toList = true ∨ word ∈ [".", "@", ","]

theorem UsingFlag.isWordSpelling_text (flag : UsingFlag) : isWordSpelling flag.text.toList = true := by
  cases flag <;> decide

theorem UsingEntry.isUsingWord (entry : UsingEntry) : ∀ word ∈ entry.words, IsUsingWord word := by
  intro word member
  rcases List.mem_append.1 member with member | member
  · have among : ∀ segments : List String, word ∈ segments.intersperse "." → word ∈ "." :: segments := by
      intro segments
      induction segments with
      | nil => simp
      | cons first segments ih => cases segments <;> grind [List.intersperse]
    rcases List.mem_cons.1 (among _ member) with rfl | segment
    · exact .inr (by decide)
    · exact .inl (entry.spelled word segment)
  · unfold mark at member
    split at member
    · cases member
    · rcases List.mem_cons.1 member with rfl | member
      · exact .inr (by decide)
      · obtain ⟨flag, -, rfl⟩ := List.mem_map.1 member
        exact .inl flag.isWordSpelling_text

@[simp] theorem usingWords_singleton (entry : UsingEntry) : usingWords [entry] = entry.words := by
  simp [usingWords]

@[simp] theorem usingWords_cons_cons (entry next : UsingEntry) (entries : List UsingEntry) :
    usingWords (entry :: next :: entries) = entry.words ++ "," :: usingWords (next :: entries) := by
  simp [usingWords, List.intercalate_cons_cons]

theorem isUsingWord_of_mem {entries : List UsingEntry} : ∀ word ∈ usingWords entries, IsUsingWord word := by
  induction entries with
  | nil => simp [usingWords]
  | cons entry entries ih =>
    cases entries with
    | nil => simpa using entry.isUsingWord
    | cons next entries =>
      intro word member
      rw [usingWords_cons_cons, List.mem_append, List.mem_cons] at member
      rcases member with member | rfl | member
      · exact entry.isUsingWord word member
      · exact .inr (by decide)
      · exact ih word member

theorem IsUsingWord.ne (is : IsUsingWord word) (operator : String) (known : operator ∈ operators)
    (other : operator ∉ [".", "@", ","]) : word ≠ operator := by
  rintro rfl
  rcases is with spelled | member
  · exact not_mem_operators spelled known
  · exact other member

/-- The semicolon ends the list. -/
theorem splitTop_usingWords {entries : List UsingEntry} {inside : List Token}
    (spells : Spells (significant inside) (usingWords entries)) {semicolon : Token}
    (ends : semicolon.isOp ";" = true) (rest : List Token) :
    splitTop (·.isOp ";") (inside ++ semicolon :: rest) = some ⟨inside, semicolon, rest⟩ := by
  have none_is (operator : String) (known : operator ∈ operators) (other : operator ∉ [".", "@", ","]) :
      ∀ t ∈ significant inside, t.isOp operator = false := by
    intro t member
    obtain ⟨word, among, is⟩ := spells.exists_word member
    exact is.isOp_of_ne ((isUsingWord_of_mem word among).ne operator known other)
  have missed : splitTopAt (·.isOp ";") 0 inside = none :=
    splitTopAt_eq_none_of_significant (fun _ trivia => isOp_of_isTrivia trivia ";")
      (splitTopAt_eq_none (none_is ";" (by decide) (by decide)) 0)
  have bracketed : WellBracketed (significant inside) := by
    refine .of_plain fun t member => ?_
    simp [isOpener, isCloser, none_is "(" (by decide) (by decide) t member,
      none_is ")" (by decide) (by decide) t member, none_is "\x7b" (by decide) (by decide) t member,
      none_is "\x7d" (by decide) (by decide) t member]
  have closed : depthAfter 0 inside = some 0 := by
    rw [← depthAfter_significant]
    exact bracketed.depthAfter_eq 0
  exact splitTop_append missed closed ends rest

/-! ## Computations -/

/-- The computation gives `a`, unless some flag is there twice: then it fails because of such a flag. -/
def Reading.GivesUnless {α : Type} (x : Reading α) (Twice : UsingFlag → Prop) (a : α) : Prop :=
  (∀ flag, ¬ Twice flag) ∧ x.Gives a ∨ ∃ flag t, Twice flag ∧ x = .fail (.blame t (.duplicate flag.text))

section Computations

variable {α β : Type} {x : Reading α} {next : α → Reading β} {a : α} {b : β} {Twice : UsingFlag → Prop}

theorem Reading.Gives.bind_unless (first : x.Gives a) (second : (next a).GivesUnless Twice b) :
    (x >>= next).GivesUnless Twice b := by
  rcases second with ⟨once, gives⟩ | ⟨flag, t, twice, failed⟩
  · exact .inl ⟨once, first.bind gives⟩
  · obtain ⟨notes, rfl⟩ := first
    exact .inr ⟨flag, t, twice, by rw [Logged.done_bind, failed]; rfl⟩

/-- The flags of the first computation are looked at before those of the second. -/
theorem Reading.GivesUnless.bind {Later : UsingFlag → Prop} (first : x.GivesUnless Twice a)
    (second : (next a).GivesUnless Later b) :
    (x >>= next).GivesUnless (fun flag => Twice flag ∨ Later flag) b := by
  rcases first with ⟨once, first⟩ | ⟨flag, t, twice, rfl⟩
  · simpa only [once, false_or] using first.bind_unless second
  · exact .inr ⟨flag, t, .inl twice, rfl⟩

theorem Reading.GivesUnless.bind_gives (first : x.GivesUnless Twice a) (second : (next a).Gives b) :
    (x >>= next).GivesUnless Twice b := by
  simpa using first.bind (.inl ⟨fun _ => id, second⟩)

end Computations

/-! ## Reading an entry -/

/-- The tokens after an entry: none, or a comma and others. -/
def EndsEntry : List Token → Prop
  | [] => True
  | comma :: rest => comma.Spells "," ∧ rest ≠ []

theorem Token.Spells.isWord_of_isWordSpelling (is : t.Spells word)
    (spelled : isWordSpelling word.toList = true) : t.isWord = true := by
  rw [isWord, is.category, lexemeOf_word spelled, wordLexeme]
  cases Sharp.keywordRole? (String.ofList word.toList) with
  | some role => rfl
  | none => cases contextKeywordRole? (String.ofList word.toList) <;> rfl

theorem readNamespaceName_gives (nonempty : segments ≠ [])
    (spelled : ∀ segment ∈ segments, isWordSpelling segment.toList = true)
    (spells : Spells ts (segments.intersperse ".")) (ends : ∀ t ∈ rest.head?, t.isOp "." = false)
    (before : Token) :
    (readNamespaceName before (ts ++ rest)).Gives ⟨".".intercalate segments, rest⟩ := by
  induction segments generalizing ts before with
  | nil => exact absurd rfl nonempty
  | cons segment segments ih =>
    obtain ⟨first, others⟩ := List.forall_mem_cons.1 spelled
    cases segments with
    | nil =>
      obtain ⟨t, _, rfl, is, ⟨⟩⟩ := Spells.cons_inv spells
      have word := is.isWord_of_isWordSpelling first
      cases rest with
      | nil =>
        simp only [List.singleton_append, readNamespaceName, word, is.text, Bool.not_true,
          Bool.false_eq_true, if_false]
        exact .note_bind (.pure _)
      | cons next rest =>
        simp only [List.singleton_append, readNamespaceName, word, is.text, ends next rfl, Bool.not_true,
          Bool.not_false, Bool.false_eq_true, if_false, if_true]
        exact .note_bind (.pure _)
    | cons next segments =>
      obtain ⟨t, _, rfl, is, tail⟩ := Spells.cons_inv spells
      obtain ⟨dot, others_ts, rfl, is_dot, tail⟩ := Spells.cons_inv tail
      have dotted : dot.isOp "." = true := by rw [is_dot.isOp]; decide
      rw [List.cons_append, List.cons_append, readNamespaceName]
      simp only [is.isWord_of_isWordSpelling first, dotted, Bool.not_true, Bool.false_eq_true, if_false]
      refine .note_bind (.note_bind ((ih (by simp) others tail dot).bind ?_))
      rw [is.text, String.intercalate_cons_cons]
      exact .pure _

def UsingFlags.ofList (flags : List UsingFlag) : UsingFlags :=
  ⟨flags.contains .isStatic, flags.contains .isGlobal⟩

theorem UsingFlags.union_ofList (flags flags' : List UsingFlag) : (ofList flags).union (ofList flags')
    = ofList (flags ++ flags') := by
  simp [ofList, union]

/-- One flag is taken, if it has not been taken before. -/
theorem readUsingFlags_cons {flag : UsingFlag} (is : t.Spells flag.text) (seen : List UsingFlag)
    (rest : List Token) :
    readUsingFlags (.ofList seen) (t :: rest) =
      if flag ∈ seen then .error (.blame t (.duplicate flag.text))
      else readUsingFlags (.ofList (seen ++ [flag])) rest := by
  have category : t.category = .keyword ∨ t.category = .contextKeyword := by
    rw [is.category]
    cases flag <;> decide
  rw [readUsingFlags.eq_2]
  cases flag <;> rcases category with category | category <;>
    simp [isKeyword, is.text, category, UsingFlag.text, UsingFlags.ofList]

/-- All flags are taken, up to the first one that has been taken before. -/
theorem readUsingFlags_eq {seen flags : List UsingFlag} (spells : Spells ts (flags.map UsingFlag.text))
    (ends : EndsEntry rest) (once : seen.Nodup) :
    (seen ++ flags).Nodup ∧ readUsingFlags (.ofList seen) (ts ++ rest) = .ok ⟨.ofList (seen ++ flags), rest⟩ ∨
      ∃ flag t, List.Duplicate flag (seen ++ flags) ∧
        readUsingFlags (.ofList seen) (ts ++ rest) = .error (.blame t (.duplicate flag.text)) := by
  induction flags generalizing seen ts with
  | nil =>
    cases spells
    refine .inl ⟨by simpa using once, ?_⟩
    rw [List.append_nil, List.nil_append]
    cases rest with
    | nil => rfl
    | cons comma rest =>
      have operator : comma.category = .operator := by rw [ends.1.category]; decide
      simp [readUsingFlags, isKeyword, operator]
  | cons flag flags ih =>
    obtain ⟨t, ts, rfl, is, tail⟩ := Spells.cons_inv spells
    rw [List.cons_append, readUsingFlags_cons is]
    by_cases member : flag ∈ seen
    · refine .inr ⟨flag, t, ?_, by rw [if_pos member]⟩
      rw [List.duplicate_iff_two_le_count, List.count_append, List.count_cons_self]
      have before := List.count_pos_iff.2 member
      omega
    · rw [if_neg member, List.append_cons]
      exact ih tail (List.concat_eq_append ▸ once.concat member)

theorem readUsingMark_givesUnless (entry : UsingEntry) (ends : EndsEntry rest) (spells : Spells ts entry.mark) :
    (readUsingMark (ts ++ rest)).GivesUnless (List.Duplicate · entry.flags) ⟨.ofList entry.flags, rest⟩ := by
  unfold UsingEntry.mark at spells
  by_cases bare : entry.flags = []
  · rw [if_pos bare] at spells
    cases spells
    rw [bare, List.nil_append]
    refine .inl ⟨fun _ => List.not_duplicate_nil _, ?_⟩
    cases rest with
    | nil => exact .pure _
    | cons comma rest =>
      simp only [readUsingMark, ends.1.isOp_of_ne (by decide : "," ≠ "@"), Bool.not_false, if_true]
      exact .pure _
  · rw [if_neg bare] at spells
    obtain ⟨marker, ts, rfl, is, tail⟩ := Spells.cons_inv spells
    have marked : marker.isOp "@" = true := by rw [is.isOp]; decide
    -- An entry with a flag has one of the two.
    have some_flag : ((UsingFlags.ofList entry.flags).isStatic || (UsingFlags.ofList entry.flags).isGlobal) = true := by
      obtain ⟨flag, member⟩ := List.exists_mem_of_ne_nil _ bare
      cases flag <;> simp [UsingFlags.ofList, member]
    have read := @readUsingFlags_eq _ rest [] _ tail ends List.nodup_nil
    change _ ∧ readUsingFlags {} _ = _ ∨ ∃ flag t, _ ∧ readUsingFlags {} _ = _ at read
    simp only [readUsingMark, List.cons_append, marked, Bool.not_true, Bool.false_eq_true, if_false]
    refine Reading.Gives.bind_unless ⟨_, rfl⟩ ?_
    rcases read with ⟨once, read⟩ | ⟨flag, t, twice, read⟩
    · simp only [read, List.nil_append, some_flag, Bool.not_true, Bool.false_eq_true, if_false]
      exact .inl ⟨List.nodup_iff_forall_not_duplicate.1 once, .pure _⟩
    · simp only [read]
      exact .inr ⟨flag, t, twice, rfl⟩

section Rounds

variable {entry : UsingEntry} {state : UsingState} {first : Token}

/-- What a round comes to that reads an entry: the end of the list, or a comma. -/
def UsingState.add (state : UsingState) (entry : UsingEntry) :
    List Token → Step UsingState (List String × UsingFlags)
  | [] => .stop (state.names ++ [entry.name], state.flags.union (.ofList entry.flags))
  | comma :: rest => .next ⟨state.names ++ [entry.name], state.flags.union (.ofList entry.flags), comma⟩ rest

theorem readUsingRound_givesUnless {more : List Token} (split : first :: more = ts ++ rest)
    (spells : Spells ts entry.words) (ends : EndsEntry rest) :
    (readUsingRound state first more).GivesUnless (List.Duplicate · entry.flags) (state.add entry rest) := by
  obtain ⟨name, mark, rfl, name_spells, mark_spells⟩ := Spells.append_inv spells
  have undotted : ∀ t ∈ (mark ++ rest).head?, t.isOp "." = false := by
    cases mark with
    | nil =>
      cases rest with
      | nil => simp
      | cons comma rest => simpa using ends.1.isOp_of_ne (by decide)
    | cons marker mark =>
      unfold UsingEntry.mark at mark_spells
      split at mark_spells
      · cases mark_spells
      · simpa using (List.forall₂_cons.1 mark_spells).1.isOp_of_ne (by decide)
  have named := readNamespaceName_gives entry.nonempty entry.spelled name_spells undotted state.before
  rw [← List.append_assoc, ← split] at named
  refine named.bind_unless ((readUsingMark_givesUnless entry ends mark_spells).bind_gives ?_)
  cases rest with
  | nil => exact .pure _
  | cons comma rest =>
    have separates : comma.isOp "," = true := by rw [ends.1.isOp]; decide
    simp only [separates, List.isEmpty_eq_false_iff.2 ends.2, Bool.not_true, Bool.or_self, Bool.false_eq_true,
      if_false]
    exact .pure _

end Rounds

/-! ## Reading a list -/

theorem UsingEntry.words_ne_nil (entry : UsingEntry) : entry.words ≠ [] := by
  obtain ⟨segments, nonempty, -, -⟩ := entry
  cases segments with
  | nil => exact absurd rfl nonempty
  | cons segment segments => cases segments <;> simp [words]

theorem usingWords_ne_nil (entry : UsingEntry) (entries : List UsingEntry) :
    usingWords (entry :: entries) ≠ [] := by
  cases entries with
  | nil => simpa using entry.words_ne_nil
  | cons next entries => simp

section Lists

variable {entries : List UsingEntry} {state : UsingState}

def usingFlags (entries : List UsingEntry) : List UsingFlag := entries.flatMap UsingEntry.flags

/-- An entry has the flag twice. -/
def Repeats (entries : List UsingEntry) (flag : UsingFlag) : Prop :=
  ∃ entry ∈ entries, List.Duplicate flag entry.flags

/-- The entries of a list are read one after the other, up to the first one that repeats a flag. -/
theorem readEntries_givesUnless (finish : UsingState → Reading (List String × UsingFlags))
    (nonempty : entries ≠ []) (spells : Spells ts (usingWords entries)) {seen : List UsingFlag}
    (flags : state.flags = .ofList seen) :
    Reading.GivesUnless (walk readUsingRound finish state ts) (Repeats entries)
      (state.names ++ entries.map UsingEntry.name, .ofList (seen ++ usingFlags entries)) := by
  induction entries generalizing state ts seen with
  | nil => exact absurd rfl nonempty
  | cons entry entries ih =>
    cases ts with
    | nil => exact absurd (List.forall₂_nil_left_iff.1 spells) (usingWords_ne_nil entry entries)
    | cons first more =>
      rw [walk_cons]
      cases entries with
      | nil =>
        rw [usingWords_singleton] at spells
        have round := @readUsingRound_givesUnless _ [] entry state _ _ (List.append_nil _).symm spells trivial
        have repeats : Repeats [entry] = (List.Duplicate · entry.flags) := by simp [funext_iff, Repeats]
        rw [repeats, usingFlags, List.flatMap_singleton, ← UsingFlags.union_ofList, ← flags]
        exact round.bind_gives (.pure _)
      | cons next entries =>
        rw [usingWords_cons_cons] at spells
        obtain ⟨tokens, rest, split, entry_spells, tail⟩ := Spells.append_inv spells
        obtain ⟨comma, rest, rfl, is, others⟩ := Spells.cons_inv tail
        have goes_on : rest ≠ [] := List.isEmpty_eq_false_iff.1
          (others.isEmpty_eq_false (usingWords_ne_nil next entries))
        have round := @readUsingRound_givesUnless _ _ _ state _ _ split entry_spells ⟨is, goes_on⟩
        have shorter : rest.length < (first :: more).length := by
          rw [split, List.length_append, List.length_cons]
          omega
        have later := @ih rest
          ⟨state.names ++ [entry.name], state.flags.union (.ofList entry.flags), comma⟩ (by simp) others
          (seen ++ entry.flags) (by rw [flags, UsingFlags.union_ofList])
        have repeats : Repeats (entry :: next :: entries) =
            fun flag => List.Duplicate flag entry.flags ∨ Repeats (next :: entries) flag := by
          simp [funext_iff, Repeats]
        rw [repeats]
        refine round.bind ?_
        simp only [UsingState.add, if_pos shorter]
        simpa [usingFlags] using later

theorem readUsing_givesUnless (nonempty : entries ≠ []) (spells : Spells ts (usingWords entries)) (before : Token) :
    (readUsing before ts).GivesUnless (Repeats entries)
      (entries.map UsingEntry.name, .ofList (usingFlags entries)) :=
  @readEntries_givesUnless _ _ { before } _ nonempty spells [] rfl

end Lists

/-! ## The statement -/

section Statement

variable {entries : List UsingEntry} {inside : List Token} {keyword semicolon : Token}

theorem convertStatement_using (is : t.Spells "using") (inner : Converters) (scope : Scope) (rest : List Token) :
    convertStatement inner scope {} t rest = plainStatement (convertUsing scope t rest) := by
  have category : t.category = .keyword := by rw [is.category]; decide
  simp only [convertStatement, convertKeywordStatement, isOp, category, is.text]
  exact pure_bind () fun _ => plainStatement (convertUsing scope t rest)

/-- What is done with a list, once its end has been found. -/
theorem convertUsing_eq (nonempty : entries ≠ []) (spells : Spells (significant inside) (usingWords entries))
    (ends : semicolon.isOp ";" = true) :
    ∃ first, convertUsing .root t (inside ++ [semicolon]) = do
      let list ← readUsing first (significant inside)
      emit (usingPieces 0 list.2 list.1)
      return [] := by
  cases listed : significant inside with
  | nil =>
    obtain ⟨entry, entries, rfl⟩ := List.exists_cons_of_ne_nil nonempty
    rw [listed] at spells
    exact absurd (List.forall₂_nil_left_iff.1 spells) (usingWords_ne_nil entry entries)
  | cons first more =>
    refine ⟨first, ?_⟩
    rw [convertUsing, splitTop_usingWords spells ends]
    simp only [listed]
    rfl

theorem usingPieces_eq (flags : List UsingFlag) (names : List String) :
    usingPieces 0 (.ofList flags) names = (names.map (usingLine flags)).map Piece.line := by
  induction names with
  | nil => rfl
  | cons name names ih =>
    rw [usingPieces, ih]
    simp [Piece.indents, usingLine, UsingFlags.ofList]

theorem render_lines {settings : LayoutSettings} (nonempty : lines ≠ []) :
    render settings (layout (lines.map Piece.line)) = concat (lines.map (· ++ settings.lineEnding.text)) := by
  have laid : ∀ lines : List String, Lays settings none (lines.map Piece.line)
      (concat (lines.map (· ++ settings.lineEnding.text))) none := by
    intro lines
    induction lines with
    | nil => exact .nil
    | cons line lines ih => exact (lays_line line).append ih
  have last := laid lines
  rw [← List.dropLast_append_getLast nonempty, List.map_append] at last ⊢
  exact render_layout_line last

/-- A list in which no entry repeats a flag is converted to a line for each entry.  If one does, the
flag is named. -/
theorem convert_using {source : String} (nonempty : entries ≠ [])
    (read : tokenize source = .ok (keyword :: (inside ++ [semicolon]))) (opens : keyword.Spells "using")
    (spells : Spells (significant inside) (usingWords entries)) (ends : semicolon.Spells ";")
    (settings : LayoutSettings) :
    ((∃ entry ∈ entries, ¬ entry.flags.Nodup) →
      ∃ entry ∈ entries, ∃ flag fault, List.Duplicate flag entry.flags ∧ convert settings source = .error fault ∧
        fault.message = "Duplicate " ++ flag.text) ∧
    ((∀ entry ∈ entries, entry.flags.Nodup) →
      convert settings source = .ok (concat (entries.map fun entry =>
        usingLine (usingFlags entries) entry.name ++ settings.lineEnding.text))) := by
  have category : keyword.category = .keyword := by rw [opens.category]; decide
  have ended : semicolon.isOp ";" = true := by rw [ends.isOp]; decide
  obtain ⟨first, converted⟩ := @convertUsing_eq keyword _ _ _ nonempty spells ended
  rcases readUsing_givesUnless nonempty spells first with ⟨once, gives⟩ | ⟨flag, t, twice, failed⟩
  · refine ⟨fun ⟨entry, member, repeats⟩ => ?_, fun _ => ?_⟩
    · obtain ⟨flag, duplicate⟩ := List.exists_duplicate_iff_not_nodup.2 repeats
      exact absurd ⟨entry, member, duplicate⟩ (once flag)
    have statement (inner : Converters) :
        (convertStatement inner .root {} keyword (inside ++ [semicolon])).Produces ⟨{}, []⟩
          (usingPieces 0 (.ofList (usingFlags entries)) (entries.map UsingEntry.name)) := by
      rw [convertStatement_using opens, converted, ← List.append_nil (usingPieces ..),
        ← List.append_nil (usingPieces .. ++ [])]
      exact ((Draft.Produces.ofReading gives).bind ((Draft.Produces.emit _).bind (.pure []))).bind (.pure _)
    rw [convert_of_statement read category statement rfl, usingPieces_eq, render_lines (by simpa using nonempty)]
    simp [Function.comp_def]
  · obtain ⟨entry, member, duplicate⟩ := twice
    refine ⟨fun _ => ?_, fun once => absurd duplicate (List.nodup_iff_forall_not_duplicate.1 (once entry member) flag)⟩
    refine ⟨entry, member, flag, .blame t (.duplicate flag.text), duplicate,
      convert_of_statement_fails read category ?_ settings, rfl⟩
    rw [convertStatement_using opens, converted, failed]
    rfl

end Statement

theorem convert_using_flags : ∃ keyword keyword' inside inside' semicolon semicolon' entries entries',
      tokenize "using A.B , C@static,D@ global;" = .ok (keyword :: (inside ++ [semicolon])) ∧
      tokenize "using A,B@global static global;" = .ok (keyword' :: (inside' ++ [semicolon'])) ∧
      keyword.Spells "using" ∧ keyword'.Spells "using" ∧ Spells (significant inside) (usingWords entries) ∧
      Spells (significant inside') (usingWords entries') ∧ semicolon.Spells ";" ∧ semicolon'.Spells ";" ∧
      (∀ entry ∈ entries, entry.flags.Nodup) ∧ (∃ entry ∈ entries', ¬ entry.flags.Nodup) ∧
      convert {} "using A.B , C@static,D@ global;" =
        .ok "global using static A.B;\r\nglobal using static C;\r\nglobal using static D;\r\n" ∧
      ∃ flag fault, convert {} "using A,B@global static global;" = .error fault ∧
        fault.message = "Duplicate " ++ UsingFlag.text flag := by
  let tokens := (tokenize "using A.B , C@static,D@ global;").toOption.getD []
  let tokens' := (tokenize "using A,B@global static global;").toOption.getD []
  let token (tokens : List Token) (i : Nat) : Token := tokens.getD i ⟨0, "", 0, 0, .space, none⟩
  let entries : List UsingEntry := [⟨["A", "B"], by decide, by decide, []⟩,
    ⟨["C"], by decide, by decide, [.isStatic]⟩, ⟨["D"], by decide, by decide, [.isGlobal]⟩]
  let entries' : List UsingEntry := [⟨["A"], by decide, by decide, []⟩,
    ⟨["B"], by decide, by decide, [.isGlobal, .isStatic, .isGlobal]⟩]
  let inside := (tokens.drop 1).take 15
  let inside' := (tokens'.drop 1).take 10
  obtain ⟨read, opens, spells, ends⟩ : tokenize "using A.B , C@static,D@ global;" =
        .ok (token tokens 0 :: (inside ++ [token tokens 16])) ∧ (token tokens 0).Spells "using" ∧
      Spells (significant inside) (usingWords entries) ∧ (token tokens 16).Spells ";" := by
    decide +kernel +zetaReduce
  obtain ⟨read', opens', spells', ends'⟩ : tokenize "using A,B@global static global;" =
        .ok (token tokens' 0 :: (inside' ++ [token tokens' 11])) ∧ (token tokens' 0).Spells "using" ∧
      Spells (significant inside') (usingWords entries') ∧ (token tokens' 11).Spells ";" := by
    decide +kernel +zetaReduce
  have once : ∀ entry ∈ entries, entry.flags.Nodup := by simp [entries]
  have twice : ∃ entry ∈ entries', ¬ entry.flags.Nodup := by simp [entries']
  have converted := (convert_using (by simp [entries]) read opens spells ends {}).2 once
  obtain ⟨-, -, flag, fault, -, failed⟩ :=
    (convert_using (by simp [entries']) read' opens' spells' ends' {}).1 twice
  exact ⟨_, _, _, _, _, _, entries, entries', read, read', opens, opens', spells, spells', ends, ends', once,
    twice, converted, flag, fault, failed⟩

end Sharp
