import Sharp.Proofs.RawRequoting

/-!
# Quoted literals on their own

What is written for a quoted literal should be a literal with a start and an end of its own: read
alone, it is that literal again.  Where the source closes a literal, it is.  Where a quote is added, or
quotes replace back-quotes, it depends on what these quotes come to stand next to.

* `selfDelimiting_iff_of_tokenize`: the literals of a source that are read again as they are.
-/

namespace Sharp

/-- Does a literal of the category stand in quotes? -/
def Category.isQuoted : Category → Bool
  | stringLiteral | rawStringLiteral | charLiteral => true
  | _ => false

/-- What is written for the token, read on its own, is one token of the same category that is written
the same. -/
def Token.SelfDelimiting (t : Token) : Prop :=
  ∃ again, tokenize t.text = .ok [again] ∧ again.text = t.text ∧ again.category = t.category

/-- `slice` are the characters of the source that the token covers. -/
def Token.Covers (source : String) (t : Token) (slice : List Char) : Prop :=
  ∃ before after, source.toList = before ++ (slice ++ after) ∧ byteLength before = t.start ∧
    byteLength (before ++ slice) = t.stop

/-! ## Which reader reads a literal -/

section Category

variable {cs rest : List Char} {lexeme : Lexeme}

def Category.reader : Category → List Char → Scan
  | .stringLiteral => scanString
  | .rawStringLiteral => scanRawString
  | _ => scanChar

/-- No other reader finds quoted literals. -/
theorem reader_of_scan (scanned : scan cs = .ok (some (lexeme, rest))) (quoted : lexeme.category.isQuoted = true) :
    lexeme.category.reader cs = .ok (some (lexeme, rest)) := by
  obtain ⟨reader, member, found⟩ := exists_reader_of_firstScan scanned nofun
  simp only [lexemeReaders, List.mem_cons, List.not_mem_nil, or_false] at member
  obtain rfl | rfl | rfl | rfl | rfl | rfl | rfl | rfl | rfl := member
  · simp [category_of_scanComment found, Category.isQuoted] at quoted
  · rwa [category_of_scanString found]
  · rwa [category_of_scanRawString found]
  · rwa [category_of_scanChar found]
  · simp [category_of_scanNumber found, Category.isQuoted] at quoted
  · rcases category_of_scanWord found with word | word | word <;>
      simp [word, Category.isQuoted] at quoted
  · simp [category_of_scanBreak found, Category.isQuoted] at quoted
  · simp [category_of_scanBlanks found, Category.isQuoted] at quoted
  · simp [category_of_scanOperator found, Category.isQuoted] at quoted

/-- Strings pass where a raw string starts. -/
theorem scanString_rawMarks {marks body : List Char} (marked : ∀ c ∈ marks, c = '$' ∨ c = '@')
    (raw : (∃ more, body = backquote :: more) ∨ ∃ more, body = '"' :: '"' :: '"' :: more) :
    scanString (marks ++ body) = .ok none := by
  match marks with
  | [] => rcases raw with ⟨more, rfl⟩ | ⟨more, rfl⟩ <;> rfl
  | [c] =>
    rcases marked c (by simp) with rfl | rfl <;> rcases raw with ⟨more, rfl⟩ | ⟨more, rfl⟩ <;> rfl
  | [c, d] =>
    rcases marked c (by simp) with rfl | rfl <;> rcases marked d (by simp) with rfl | rfl <;>
      rcases raw with ⟨more, rfl⟩ | ⟨more, rfl⟩ <;> rfl
  | c :: d :: e :: more =>
    rcases marked c (by simp) with rfl | rfl <;> rcases marked d (by simp) with rfl | rfl <;>
      rcases marked e (by simp) with rfl | rfl <;> rfl

theorem scan_of_scanString (found : scanString cs = .ok (some (lexeme, rest))) :
    scan cs = .ok (some (lexeme, rest)) := by
  have noComment : scanComment cs = .ok none := by
    obtain ⟨opening, body, opens, -⟩ := exists_opening_of_scanString found
    unfold stringOpening? at opens
    split at opens <;> first | rfl | cases opens
  simp only [scan, lexemeReaders, firstScan, noComment, found]

theorem scan_of_scanChar (found : scanChar cs = .ok (some (lexeme, rest))) :
    scan cs = .ok (some (lexeme, rest)) := by
  obtain ⟨more, rfl⟩ : ∃ more, cs = '\'' :: more := by
    unfold scanChar at found
    split at found
    · exact ⟨_, rfl⟩
    · exact ⟨_, rfl⟩
    · cases found
  have front : scan ('\'' :: more) = firstScan [scanChar, scanNumber, scanWord, scanBreak, scanBlanks,
      scanOperator] ('\'' :: more) := rfl
  rw [front, firstScan, found]

theorem scan_of_scanRawString (found : scanRawString cs = .ok (some (lexeme, rest))) :
    scan cs = .ok (some (lexeme, rest)) := by
  have covered := splitRawMarks_append cs
  have raw : (∃ more, (splitRawMarks cs).2 = backquote :: more) ∨
      ∃ more, (splitRawMarks cs).2 = '"' :: '"' :: '"' :: more := by
    unfold scanRawString at found
    dsimp only at found
    split at found
    · cases found
    · next c body opened =>
      split at found
      · next quoted => exact .inl ⟨body, by rw [opened, beq_iff_eq.1 quoted]⟩
      · split at found
        · cases found
        · next few =>
          obtain ⟨n, run⟩ := Nat.exists_eq_add_of_le (Nat.le_of_not_lt few)
          refine .inr ⟨List.replicate n '"' ++ (splitRawMarks cs).2.drop (3 + n), ?_⟩
          conv_lhs => rw [← List.take_append_drop (3 + n) (splitRawMarks cs).2, ← run, take_quoteRun, run]
          rw [List.replicate_add]
          rfl
  -- Comments and strings are looked for first.
  have noString : scanString cs = .ok none := by
    rw [← covered]
    exact scanString_rawMarks (fun _ => mem_splitRawMarks) raw
  have noComment : scanComment cs = .ok none := by
    rw [← covered]
    cases marks : (splitRawMarks cs).1 with
    | nil => rcases raw with ⟨more, body⟩ | ⟨more, body⟩ <;> rw [body] <;> rfl
    | cons c marks' =>
      have member : c ∈ (splitRawMarks cs).1 := by simp [marks]
      rcases mem_splitRawMarks member with rfl | rfl <;> rfl
  simp only [scan, lexemeReaders, firstScan, noComment, noString, found]

theorem category_of_reader {category : Category} (quoted : category.isQuoted = true)
    (found : category.reader cs = .ok (some (lexeme, rest))) : lexeme.category = category := by
  cases category
  case stringLiteral => exact category_of_scanString found
  case rawStringLiteral => exact category_of_scanRawString found
  case charLiteral => exact category_of_scanChar found
  all_goals cases quoted

section

variable (quoted : lexeme.category.isQuoted = true) (found : lexeme.category.reader cs = .ok (some (lexeme, rest)))
include quoted found

/-- Nor does another reader come first where a quoted literal starts. -/
theorem scan_of_reader : scan cs = .ok (some (lexeme, rest)) := by
  cases category : lexeme.category <;> rw [category] at found quoted
  case stringLiteral => exact scan_of_scanString found
  case rawStringLiteral => exact scan_of_scanRawString found
  case charLiteral => exact scan_of_scanChar found
  all_goals cases quoted

theorem readsWhole_reader_iff : ReadsWhole lexeme.category.reader lexeme.text.toList ↔
      isMisclosed lexeme.category lexeme.source = false := by
  cases category : lexeme.category <;> rw [category] at found quoted
  case stringLiteral => exact readsWhole_scanString_iff found
  case rawStringLiteral => exact readsWhole_scanRawString_iff found
  case charLiteral => exact readsWhole_scanChar_iff found
  all_goals cases quoted

end

end Category

/-! ## The tokens of a source -/

/-- Every token was scanned where it stands. -/
theorem Tokenized.exists_scan {id start : Nat} {cs : List Char} {tokens : List Token} {t : Token}
    (derivation : Tokenized id start cs tokens) (member : t ∈ tokens) :
    ∃ before lexeme rest id', cs = before ++ (lexeme.source ++ rest) ∧
      scan (lexeme.source ++ rest) = .ok (some (lexeme, rest)) ∧
      t = lexeme.tokenAt id' (start + byteLength before) := by
  obtain ⟨front, after, rfl⟩ := List.append_of_mem member
  obtain ⟨before, cs', id', rfl, last⟩ := derivation.exists_suffix
  cases last with
  | cons nonempty scanned tail => exact ⟨before, _, _, id', rfl, scanned, rfl⟩

/-- A text is read as one token where one scan takes all of it. -/
theorem tokenize_eq_singleton_iff {text : String} {t : Token} : tokenize text = .ok [t] ↔
      ∃ lexeme, scan text.toList = .ok (some (lexeme, [])) ∧ t = lexeme.tokenAt 0 0 := by
  rw [tokenize_eq_ok_iff]
  generalize text.toList = cs
  constructor
  · intro derivation
    cases derivation with
    | cons nonempty scanned tail =>
      cases tail
      exact ⟨_, by simpa using scanned, rfl⟩
  · rintro ⟨lexeme, scanned, rfl⟩
    obtain ⟨nonempty, covered⟩ := scan_splits cs lexeme [] scanned
    rw [← covered] at scanned ⊢
    exact .cons nonempty scanned .nil

theorem Lexeme.selfDelimiting_tokenAt_iff {lexeme : Lexeme} (quoted : lexeme.category.isQuoted = true)
    (id start : Nat) :
    (lexeme.tokenAt id start).SelfDelimiting ↔ ReadsWhole lexeme.category.reader lexeme.text.toList := by
  change (∃ again, tokenize lexeme.text = .ok [again] ∧ again.text = lexeme.text ∧
    again.category = lexeme.category) ↔ _
  constructor
  · rintro ⟨t, read, text, category⟩
    obtain ⟨again, scanned, rfl⟩ := tokenize_eq_singleton_iff.1 read
    have category : again.category = lexeme.category := category
    refine ⟨again, ?_, congrArg String.toList text⟩
    rw [← category] at quoted ⊢
    exact reader_of_scan scanned quoted
  · rintro ⟨again, found, text⟩
    have category := category_of_reader quoted found
    rw [← category] at found quoted
    refine ⟨again.tokenAt 0 0, ?_, String.toList_inj.1 text, category⟩
    exact tokenize_eq_singleton_iff.2 ⟨again, scan_of_reader quoted found, rfl⟩

/-- The quoted literals of a source are read again as they are written, unless they are misclosed. -/
theorem selfDelimiting_iff_of_tokenize {source : String} {tokens : List Token} {t : Token}
    (read : tokenize source = .ok tokens) (member : t ∈ tokens) (quoted : t.category.isQuoted = true) :
    ∃ slice, t.Covers source slice ∧ (t.SelfDelimiting ↔ isMisclosed t.category slice = false) := by
  obtain ⟨before, lexeme, rest, id, covered, scanned, rfl⟩ :=
    (tokenize_eq_ok_iff.1 read).exists_scan member
  refine ⟨lexeme.source, ⟨before, rest, covered, ?_, ?_⟩, ?_⟩
  · simp [Lexeme.tokenAt]
  · simp [Lexeme.tokenAt]
  · rw [Lexeme.selfDelimiting_tokenAt_iff quoted]
    exact readsWhole_reader_iff quoted (reader_of_scan scanned quoted)

/-- A back-quoted string with quotes in it. -/
theorem selfDelimiting_iff_of_tokenize_backquoted :
    ∃ tokens t, tokenize "x = `say \"hi\"!`;" = .ok tokens ∧ t ∈ tokens ∧
      t.category.isQuoted = true ∧ t.text = "\"\"\"say \"hi\"!\"\"\"" ∧
      ∃ slice, t.Covers "x = `say \"hi\"!`;" slice ∧ (t.SelfDelimiting ↔ isMisclosed t.category slice = false) := by
  obtain ⟨tokens, read, literal⟩ : ∃ tokens, tokenize "x = `say \"hi\"!`;" = .ok tokens ∧
      tokens[4]? = some ⟨4, "\"\"\"say \"hi\"!\"\"\"", 4, 15, .rawStringLiteral, some (.literal .rawString)⟩ :=
    exists_of_toOption (by decide +kernel)
  have member := List.mem_of_getElem? literal
  exact ⟨tokens, _, read, member, rfl, rfl, selfDelimiting_iff_of_tokenize read member rfl⟩

/-- Nothing between two back-quotes is written as six quotes, which open a string that has no end. -/
theorem not_selfDelimiting_empty_backquotes :
    ∃ tokens t, tokenize "``" = .ok tokens ∧ t ∈ tokens ∧ t.category.isQuoted = true ∧ ¬ t.SelfDelimiting := by
  refine ⟨[⟨0, "\"\"\"\"\"\"", 0, 2, .rawStringLiteral, some (.literal .rawString)⟩], _,
    eq_ok_of_toOption (by decide +kernel), List.mem_singleton_self _, rfl, ?_⟩
  rintro ⟨again, read, -⟩
  have fails : tokenize "\"\"\"\"\"\"" = .error ⟨.unterminatedRawString, some ⟨0, 6⟩⟩ :=
    eq_error_of_swap (by decide +kernel)
  rw [fails] at read
  cases read

end Sharp
