import Sharp.Proofs.DeclaredTypes
import Sharp.Proofs.PlainWords

/-!
# Plain expressions

An expression of names, numbers and operators is written word by word.  There is a space between two
words unless the first is an operator in front of its operand, or the second one an operator behind it.
What is written is read as the same words, except where an operator in front of its operand starts a
longer operator together with the next word.

* `convert_plain_iff`: which plain expressions keep their words.
-/

namespace Sharp

open Token

variable {lexeme : Lexeme} {c : Char} {t next : Token} {text gap source word : String}
  {ts : List Token} {afterOperand : Bool} {texts words : List String}

/-! ## Words that are joined -/

/-- Does the operator stand in front of its operand?  `!` always does, others where no operand comes
before them. -/
def leads (afterOperand : Bool) (word : String) : Bool :=
  word == "!" || (!afterOperand && ["+", "-", "*", "&", "++", "--"].contains word)

/-- Is there an operand in front of what comes after the word? -/
def operandAfter (afterOperand : Bool) (word : String) : Bool :=
  if ["++", "--"].contains word then afterOperand else !plainOperators.contains word

/-- Do the word and the first character of the next one make an operator? -/
def joins (word next : String) : Bool :=
  next.toList.head?.any fun c => operators.contains (word.push c)

/-- Is one of the words an operator that is written in front of a word with which it makes another
operator? -/
def hasJoined (afterOperand : Bool) : List String → Bool
  | [] => false
  | word :: words =>
    (leads afterOperand word && words.head?.any (joins word)) || hasJoined (operandAfter afterOperand word) words

/-! ## Plain tokens -/

/-- A token that is read from a plain word. -/
def Token.IsPlain (t : Token) : Prop :=
  ∃ lexeme id start, PlainLexeme lexeme ∧ lexeme.tokenAt id start = t

/-- What a plain token is converted to. -/
def Token.plainPiece (afterOperand : Bool) (t : Token) : Piece :=
  match t.category with
  | .operator => .code t.text (operatorSpacing t.text afterOperand)
  | .identifier => .word t.text
  | _ => .literal t.text

def Token.plainSpacing (afterOperand : Bool) (t : Token) : Spacing :=
  (t.plainPiece afterOperand).spacing

def plainPieces (afterOperand : Bool) : List Token → List Piece
  | [] => []
  | t :: ts => t.plainPiece afterOperand :: plainPieces (t.plainSpacing afterOperand).endsOperand ts

namespace Token.IsPlain

variable {t : Token}

theorem cases_category (plain : t.IsPlain) :
    t.category = .operator ∧ t.text ∈ plainOperators ∨ t.category = .identifier ∨ t.category = .numberLiteral := by
  obtain ⟨lexeme, id, start, plain, rfl⟩ := plain
  cases plain with
  | operator member => exact .inl ⟨rfl, member⟩
  | name isWord category => exact .inr (.inl category)
  | number read => exact .inr (.inr rfl)

theorem isTrivia (plain : t.IsPlain) : t.isTrivia = false := by
  rcases plain.cases_category with ⟨category, -⟩ | category | category <;>
    simp [Token.isTrivia, category]

end Token.IsPlain

/-! ## Converting them -/

section Conversion

variable {inner : Converters} {place : Place} {frame : Frame} {t semicolon : Token} {ts rest : List Token}

theorem convertOperator_plain (member : t.text ∈ plainOperators) :
    convertOperator inner place frame t rest = convertPlainOperator place frame t rest := by
  have known : ∀ text ∈ [";", ",", "(", "\x7b", ")", "\x7d", "#", "~", "=>", "@"],
      text ∉ plainOperators := by decide
  unfold convertOperator
  split
  case h_11 => rfl
  all_goals
    next text =>
      rw [text] at member
      exact absurd member (known _ (by decide))

theorem isAssignment_of_plain (member : t.text ∈ plainOperators) : t.isAssignment = false := by
  have checked : ∀ text ∈ plainOperators, text ∉ assignmentOperators := by decide
  simp [isAssignment, isOpIn, checked t.text member]

theorem convertToken_plain (plain : t.IsPlain) :
    ∃ frame', (convertToken inner place frame t rest).Gives (.next frame' rest) ∧
      frame'.pieces = frame.pieces ++ [t.plainPiece (frame.endsOperand place)] ∧
      frame'.tuple = frame.tuple := by
  rcases plain.cases_category with ⟨category, member⟩ | category | category
  · simp only [convertToken, category, convertOperator_plain member, convertPlainOperator,
      isAssignment_of_plain member, Bool.false_eq_true, if_false, plainPiece]
    refine ⟨_, .pure _, ?_, ?_⟩ <;> split <;> rfl
  · simp only [convertToken, category, plainPiece]
    exact ⟨_, .pure _, rfl, rfl⟩
  · simp only [convertToken, category, plainPiece]
    exact ⟨_, .pure _, rfl, rfl⟩

theorem convertToken_trivia (trivia : t.isTrivia = true) :
    convertToken inner place frame t rest = pure (.next frame rest) := by
  unfold isTrivia at trivia
  unfold convertToken
  split at trivia <;> simp_all

theorem endsOperand_of_pieces {pieces : List Piece} {piece : Piece} (last : frame.pieces = pieces ++ [piece]) :
    frame.endsOperand place = piece.spacing.endsOperand := by
  simp [Frame.endsOperand, last]

/-- At the `;` the expression ends. -/
theorem convertToken_semicolon (ends : semicolon.isOp ";" = true) (statement : place.mode = .statement) :
    convertToken inner place frame semicolon rest = pure (frame.stopAt place (semicolon :: rest)) := by
  rw [isOp_iff] at ends
  simp [convertToken, convertOperator, ends, statement]

/-- The walk over plain tokens, by induction on them: the frame is known by its pieces. -/
theorem walk_plain (statement : place.mode = .statement) (ends : semicolon.isOp ";" = true)
    {finish : Frame → Reading (Parsed Expression)}
    (plain : ∀ t ∈ ts, t.isTrivia = true ∨ t.IsPlain) (noTuple : frame.tuple = .none) :
    ∃ isConst, Reading.Gives (walk (convertToken inner place) finish frame (ts ++ semicolon :: rest))
      ⟨⟨frame.pieces ++ plainPieces (frame.endsOperand place) (significant ts), isConst⟩, semicolon :: rest⟩ := by
  induction ts generalizing frame with
  | nil =>
    refine ⟨frame.isConst, ?_⟩
    rw [List.nil_append, walk_cons, convertToken_semicolon ends statement]
    have closed : frame.finish place = ⟨frame.pieces, frame.isConst⟩ := by
      simp [Frame.finish, Frame.closeTuple, noTuple]
    simp only [Frame.stopAt, closed, significant, List.filter_nil, plainPieces, List.append_nil, pure_bind]
    exact .pure _
  | cons t ts ih =>
    obtain ⟨first, others⟩ := List.forall_mem_cons.1 plain
    have shorter : (ts ++ semicolon :: rest).length < (t :: (ts ++ semicolon :: rest)).length := by simp
    rw [List.cons_append, walk_cons]
    rcases first with trivia | first
    · obtain ⟨isConst, gives⟩ := ih others noTuple
      refine ⟨isConst, ?_⟩
      rw [convertToken_trivia trivia, pure_bind]
      simpa only [if_pos shorter, significant, List.filter_cons, trivia, Bool.not_true,
        Bool.false_eq_true, if_false] using gives
    · obtain ⟨frame', step, pieces, tuple⟩ := @convertToken_plain inner place frame t
        (ts ++ semicolon :: rest) first
      obtain ⟨isConst, gives⟩ := ih others (tuple.trans noTuple)
      refine ⟨isConst, .bind step ?_⟩
      rw [endsOperand_of_pieces pieces, pieces, List.append_assoc, List.singleton_append] at gives
      simpa only [if_pos shorter, significant, List.filter_cons, first.isTrivia, Bool.not_false,
        if_true, plainPieces, plainSpacing] using gives

end Conversion

/-! ## The whole statement -/

theorem convertRightSide_of_gives {inner : Converters} {scope : Scope} {before semicolon : Token}
    {ts rest : List Token} {e : Expression}
    (converted : (inner.expression { mode := .statement, scope } ts).Gives ⟨e, semicolon :: rest⟩)
    (ends : semicolon.isOp ";" = true) (nonempty : e.pieces ≠ []) :
    (convertRightSide inner scope before ts).Produces ⟨e.isConst, rest⟩
      (e.pieces ++ [Piece.raw ";", .lineBreak]) := by
  have some_piece : e.pieces.isEmpty = false := by simpa using nonempty
  unfold convertRightSide
  refine @Draft.Produces.bind _ _ _ _ [] _ _ _ (.ofReading converted) ?_
  simp only [ends, some_piece, Bool.not_true, Bool.false_eq_true, if_false]
  exact ⟨[], by simp [emit, Logged.tell, Logged.after, Log.append, Log.none]⟩

section Statement

open Layers

variable {t semicolon : Token} {ts : List Token}

theorem convertExpressionStatement_plain (first : t.IsPlain)
    (plain : ∀ t ∈ ts, t.isTrivia = true ∨ t.IsPlain) (ends : semicolon.isOp ";" = true) :
    (convertExpressionStatement (standard.converters (statementRank (ts ++ [semicolon]).length)) .root t
      (ts ++ [semicolon])).Produces []
        (plainPieces false (significant (t :: ts)) ++ [Piece.raw ";", .lineBreak]) := by
  obtain ⟨isConst, converted⟩ := @walk_plain
    (standard.converters (expressionRank (ts ++ [semicolon]).length)) { mode := .statement, scope := .root }
    (Frame.start (t :: (ts ++ [semicolon]))) semicolon (t :: ts) [] rfl ends
    (fun frame => return ⟨frame.finish { mode := .statement, scope := .root }, []⟩)
    (List.forall_mem_cons.2 ⟨.inr first, plain⟩) rfl
  have lower : expressionRank (ts ++ [semicolon]).length < statementRank (ts ++ [semicolon]).length :=
    Nat.lt_succ_self _
  have nonempty : plainPieces false (significant (t :: ts)) ≠ [] := by
    simp [significant, first.isTrivia, plainPieces]
  have whole : ((standard.converters (statementRank (ts ++ [semicolon]).length)).expression
      { mode := .statement, scope := .root } (t :: (ts ++ [semicolon]))).Gives
        ⟨⟨plainPieces false (significant (t :: ts)), isConst⟩, [semicolon]⟩ := by
    rw [Converters.expression, converters_expressionFrom lower]
    exact converted
  obtain ⟨notes, done⟩ := @convertRightSide_of_gives _ _ t _ _ _ _ whole ends nonempty
  refine ⟨notes, ?_⟩
  rw [convertExpressionStatement, done]
  simp [emit, Logged.tell, Logged.after, Log.append, Log.none, Piece.indents, Scope.root]

theorem Token.IsPlain.convertBlockRound_eq (first : t.IsPlain) {inner : Converters} {state : BlockState}
    {rest : List Token} :
    convertBlockRound inner state t rest = (do
      let statement ← inner.statementFrom state.scope state.pending t rest
      return .next ⟨statement.value.scopeAfter state.scope, statement.value.pending⟩
        (skipSemicolons statement.rest)) := by
  rcases first.cases_category with ⟨category, -⟩ | category | category <;>
    simp only [convertBlockRound, category]

theorem Token.IsPlain.convertStatement_eq (first : t.IsPlain) {inner : Converters} {scope : Scope}
    {pending : Modifiers} {rest : List Token} :
    convertStatement inner scope pending t rest =
      unmodified pending (convertExpressionStatement inner scope t rest) := by
  rcases first.cases_category with ⟨category, member⟩ | category | category
  · have others : ∀ text ∈ plainOperators, text ≠ "\x7d" ∧ text ≠ ";" := by decide
    simp [convertStatement, isOp, category, others t.text member]
  · simp [convertStatement, isOp, category]
  · simp [convertStatement, isOp, category]

/-- A block that is one plain expression. -/
theorem block_plain (first : t.IsPlain) (plain : ∀ t ∈ ts, t.isTrivia = true ∨ t.IsPlain)
    (ends : semicolon.isOp ";" = true) :
    (standard.all.block .root (t :: (ts ++ [semicolon]))).Produces ()
      (plainPieces false (significant (t :: ts)) ++ [Piece.raw ";", .lineBreak]) := by
  obtain ⟨notes, converted⟩ := convertExpressionStatement_plain first plain ends
  refine ⟨notes, ?_⟩
  rw [block_eq_statements, convertStatements, walk_cons, first.convertBlockRound_eq, statementFrom_eq,
    first.convertStatement_eq, unmodified, plainStatement, converted]
  simp [Logged.after, Log.append, Log.none, Modifiers.ensureEmpty, Logged.ofExcept,
    Statement.scopeAfter, skipSemicolons]

end Statement

/-! ## The source -/

/-- Plain words end before a space and before a `;`. -/
theorem PlainLexeme.readBefore (plain : PlainLexeme lexeme) (apart : c ∈ [' ', ';']) (more : List Char) :
    lexeme.ReadBefore (c :: more) := by
  have apart : c = ' ' ∨ c = ';' := by simpa using apart
  have noWord : isWordChar c = false := by rcases apart with rfl | rfl <;> decide
  have others : c ≠ '.' ∧ c ≠ '+' ∧ c ≠ '-' ∧ c ≠ '/' ∧ c ≠ '*' := by
    rcases apart with rfl | rfl <;> decide
  cases plain with
  | operator member =>
    refine operatorLexeme_readBefore_of_stops member ?_ (fun _ => others.2.2.2) more
    have checked : ∀ text ∈ plainOperators, ∀ operator ∈ operators, ¬ text.toList ++ [c] <+: operator.toList := by
      rcases apart with rfl | rfl <;> decide
    exact checked _ member
  | name isWord category => exact wordLexeme_readBefore isWord (by simpa using noWord)
  | number read =>
    refine numberLexeme_readBefore read ⟨by simpa using noWord, ?_, ?_⟩
    · match more with
      | [] => simp [startsWithFraction]
      | d :: more => simp [startsWithFraction, others.1]
    · cases more <;> simp [splitSigned, others]

/-- The lexemes with a space between any two of them. -/
def spacedOut (lexemes : List Lexeme) : List Lexeme := lexemes.intersperse spaceLexeme

section SpacedOut

variable {lexemes closing : List Lexeme}

@[simp] theorem spacedOut_nil : spacedOut [] = [] := rfl

@[simp] theorem spacedOut_singleton (lexeme : Lexeme) : spacedOut [lexeme] = [lexeme] := rfl

@[simp] theorem spacedOut_cons_cons (lexeme next : Lexeme) (lexemes : List Lexeme) :
    spacedOut (lexeme :: next :: lexemes) = lexeme :: spaceLexeme :: spacedOut (next :: lexemes) :=
  rfl

theorem exists_spacedOut_cons (lexeme : Lexeme) (lexemes : List Lexeme) :
    ∃ more, spacedOut (lexeme :: lexemes) = lexeme :: more := by
  cases lexemes with
  | nil => exact ⟨[], rfl⟩
  | cons next lexemes => exact ⟨_, spacedOut_cons_cons ..⟩

section

variable (plain : ∀ lexeme ∈ lexemes, PlainLexeme lexeme)
include plain

theorem reads_spacedOut (closes : Reads closing)
    {more : List Char} (front : spelling closing = c :: more) (apart : c ∈ [' ', ';']) :
    Reads (spacedOut lexemes ++ closing) := by
  induction lexemes with
  | nil => exact closes
  | cons lexeme lexemes ih =>
    obtain ⟨first, others⟩ := List.forall_mem_cons.1 plain
    cases lexemes with
    | nil =>
      refine ⟨?_, closes⟩
      change lexeme.ReadBefore (spelling closing)
      rw [front]
      exact first.readBefore apart more
    | cons next lexemes =>
      refine ⟨first.readBefore (by decide) _, spaceLexeme_readBefore ?_, ih others⟩
      obtain ⟨after, starts⟩ := exists_spacedOut_cons next lexemes
      change EndsBefore isBlankChar (spelling (spacedOut (next :: lexemes) ++ closing))
      rw [starts, List.cons_append, spelling_cons]
      exact (List.forall_mem_cons.1 others).1.endsBefore_isBlankChar _

theorem spelling_spacedOut : (" ".intercalate (lexemes.map Lexeme.text)).toList = spelling (spacedOut lexemes) := by
  induction lexemes with
  | nil => rfl
  | cons lexeme lexemes ih =>
    obtain ⟨first, others⟩ := List.forall_mem_cons.1 plain
    cases lexemes with
    | nil => simp [first.toList_text]
    | cons next lexemes =>
      rw [List.map_cons, List.map_cons, String.intercalate_cons_cons, spacedOut_cons_cons]
      rw [List.map_cons] at ih
      simp [ih others, first.toList_text, spaceLexeme, Lexeme.verbatim]

/-- The tokens of the source, by induction on the words: between two plain ones stands a space. -/
theorem place_spacedOut (id start : Nat) :
    (∀ t ∈ place id start (spacedOut lexemes), t.isTrivia = true ∨ t.IsPlain) ∧
      (significant (place id start (spacedOut lexemes))).map Token.text = lexemes.map Lexeme.text := by
  induction lexemes generalizing id start with
  | nil => exact ⟨List.forall_mem_nil _, rfl⟩
  | cons lexeme lexemes ih =>
    obtain ⟨first, others⟩ := List.forall_mem_cons.1 plain
    have isPlain : (lexeme.tokenAt id start).IsPlain := ⟨lexeme, id, start, first, rfl⟩
    have space (id start : Nat) : (spaceLexeme.tokenAt id start).isTrivia = true := rfl
    have text : (lexeme.tokenAt id start).text = lexeme.text := rfl
    cases lexemes with
    | nil =>
      simp only [spacedOut_singleton, place, List.mem_singleton, forall_eq, significant, List.filter_cons,
        List.filter_nil, isPlain.isTrivia, Bool.not_false, if_true, List.map_cons, List.map_nil, text,
        and_true]
      exact .inr isPlain
    | cons next lexemes =>
      obtain ⟨all, texts⟩ := ih others (id + 1 + 1)
        (start + byteLength lexeme.source + byteLength spaceLexeme.source)
      simp only [spacedOut_cons_cons, place, List.forall_mem_cons]
      refine ⟨⟨.inr isPlain, .inl (space ..), all⟩, ?_⟩
      rw [List.map_cons, ← texts]
      simp [significant, isPlain.isTrivia, space]

end

end SpacedOut

theorem exists_plainLexemes (plain : ∀ word ∈ words, IsPlainWord word) :
    ∃ lexemes : List Lexeme, (∀ lexeme ∈ lexemes, PlainLexeme lexeme) ∧ lexemes.map Lexeme.text = words := by
  induction words with
  | nil => exact ⟨[], List.forall_mem_nil _, rfl⟩
  | cons word words ih =>
    obtain ⟨first, others⟩ := List.forall_mem_cons.1 plain
    obtain ⟨lexeme, isPlain, rfl⟩ := first.exists_lexeme
    obtain ⟨lexemes, arePlain, rfl⟩ := ih others
    exact ⟨lexeme :: lexemes, List.forall_mem_cons.2 ⟨isPlain, arePlain⟩, rfl⟩

/-- The lexemes of the end of a source: a `;`, with or without a space in front of it. -/
theorem exists_closing (blank : gap ∈ ["", " "]) :
    ∃ blanks c more, spelling blanks = gap.toList ∧ Reads (blanks ++ [operatorLexeme ";"]) ∧
      spelling (blanks ++ [operatorLexeme ";"]) = c :: more ∧ c ∈ [' ', ';'] ∧
      ∀ id start, ∀ t ∈ place id start blanks, t.isTrivia = true := by
  have closes : Reads [operatorLexeme ";"] := reads_operator (by simp) trivial
  simp only [List.mem_cons, List.not_mem_nil, or_false] at blank
  rcases blank with rfl | rfl
  · exact ⟨[], ';', [], rfl, closes, rfl, by decide, fun _ _ => List.forall_mem_nil _⟩
  · refine ⟨[spaceLexeme], ' ', [';'], rfl, ⟨spaceLexeme_readBefore ?_, closes⟩, rfl, by decide, ?_⟩
    · simp [operatorLexeme, isBlankChar]
    · intro id start t member
      rw [List.mem_singleton.1 member]
      rfl

/-- A source of plain words that a `;` ends. -/
theorem exists_tokens_plain (nonempty : words ≠ []) (plain : ∀ word ∈ words, IsPlainWord word)
    (blank : gap ∈ ["", " "]) :
    ∃ (t : Token) (ts : List Token) (semicolon : Token),
      tokenize (" ".intercalate words ++ gap ++ ";") = .ok (t :: (ts ++ [semicolon])) ∧
      t.IsPlain ∧ (∀ t ∈ ts, t.isTrivia = true ∨ t.IsPlain) ∧ semicolon.isOp ";" = true ∧
      (significant (t :: ts)).map Token.text = words := by
  obtain ⟨lexemes, arePlain, rfl⟩ := exists_plainLexemes plain
  obtain ⟨lexeme, lexemes, rfl⟩ := List.exists_cons_of_ne_nil (List.map_eq_nil_iff.not.1 nonempty)
  obtain ⟨blanks, c, more, gap_eq, closes, front, apart, trivia⟩ := exists_closing blank
  have reads := reads_spacedOut arePlain closes front apart
  have spelled : (" ".intercalate ((lexeme :: lexemes).map Lexeme.text) ++ gap ++ ";").toList =
      spelling (spacedOut (lexeme :: lexemes) ++ (blanks ++ [operatorLexeme ";"])) := by
    rw [String.toList_append, String.toList_append, spelling_spacedOut arePlain]
    simp [gap_eq, operatorLexeme]
  have read := tokenize_spelling spelled reads
  obtain ⟨all, texts⟩ := place_spacedOut arePlain 0 0
  obtain ⟨after, starts⟩ := exists_spacedOut_cons lexeme lexemes
  rw [starts, place, List.forall_mem_cons] at all
  rw [starts, place] at texts
  rw [place_append, place_append, starts, place, List.cons_append, ← List.append_assoc] at read
  refine ⟨_, _, _, read, ⟨lexeme, 0, 0, (List.forall_mem_cons.1 arePlain).1, rfl⟩, ?_, rfl, ?_⟩
  · intro t member
    rcases List.mem_append.1 member with member | member
    · exact all.2 t member
    · exact .inl (trivia _ _ t member)
  · have meaningless : ∀ id start, significant (place id start blanks) = [] := by
      intro id start
      simpa [significant] using trivia id start
    rw [← texts, ← List.cons_append, significant, List.filter_append, ← significant, ← significant,
      meaningless, List.append_nil]

/-! ## The output -/

/-- What is written for plain tokens and the `;` after them, when the spacing `before` precedes. -/
def writtenPlain (ending : List Char) (before : Spacing) : List Token → List Char
  | [] => ';' :: ending
  | t :: ts =>
    (if needsSpace before (t.plainSpacing before.endsOperand) then [' '] else []) ++
      (t.text.toList ++ writtenPlain ending (t.plainSpacing before.endsOperand) ts)

theorem Token.IsPlain.exists_first (plain : t.IsPlain) :
    ∃ c cs, t.text.toList = c :: cs ∧ (isWordChar c = true ∨ c ∈ operatorChars) := by
  obtain ⟨lexeme, id, start, plain, rfl⟩ := plain
  obtain ⟨c, cs, front, first⟩ := plain.exists_first
  exact ⟨c, cs, plain.toList_text.trans front, first⟩

section Writing

variable {settings : LayoutSettings} {t : Token} {ts : List Token}

theorem lays_plainPiece (plain : t.IsPlain) (before : Spacing) :
    Lays settings (some before) [t.plainPiece before.endsOperand]
      (String.ofList ((if needsSpace before (t.plainSpacing before.endsOperand) then [' '] else []) ++
        t.text.toList)) (some (t.plainSpacing before.endsOperand)) := by
  have nonempty : t.text.isEmpty = false := by
    obtain ⟨c, cs, front, -⟩ := plain.exists_first
    cases empty : t.text.isEmpty with
    | false => rfl
    | true => simp [String.isEmpty_iff.1 empty] at front
  have text : concat ((t.plainPiece before.endsOperand).items.map (Item.render settings)) = t.text := by
    rcases plain.cases_category with ⟨category, -⟩ | category | category <;>
      simp [plainPiece, category, Piece.word, Piece.items, concat, Item.render]
  refine lays_piece ?_ ?_
  · rcases plain.cases_category with ⟨category, -⟩ | category | category <;>
      simp [plainPiece, category, Piece.word, Piece.isBlank, nonempty]
  · rw [text, ← plainSpacing, Option.any_some, String.ofList_append, String.ofList_toList]
    split <;> rfl

/-- Everything up to the end of the line, by induction on the tokens. -/
theorem lays_plainPieces (plain : ∀ t ∈ ts, t.IsPlain) (before : Spacing) :
    Lays settings (some before) (plainPieces before.endsOperand ts ++ [Piece.raw ";", .lineBreak])
      (String.ofList (writtenPlain settings.lineEnding.text.toList before ts)) none := by
  induction ts generalizing before with
  | nil =>
    have line := (@lays_raw settings (some before) ";" (by decide)).append (@lays_lineBreak settings none)
    have text : ";" ++ settings.lineEnding.text =
        String.ofList (writtenPlain settings.lineEnding.text.toList before []) := by
      simp [writtenPlain]
    rw [← text]
    exact line
  | cons t ts ih =>
    obtain ⟨first, others⟩ := List.forall_mem_cons.1 plain
    have both := (@lays_plainPiece settings t first before).append (ih others (t.plainSpacing before.endsOperand))
    rw [← String.ofList_append, List.append_assoc] at both
    exact both

/-- A line that ends in `;` is rendered as it is laid out. -/
theorem render_layout_semicolon {front : List Piece}
    (laid : Lays settings none (front ++ [Piece.raw ";", .lineBreak]) text none) :
    render settings (layout (front ++ [Piece.raw ";", .lineBreak])) = text := by
  obtain ⟨items, middle, ends⟩ := exists_layoutAfter_append none front [Piece.raw ";", .lineBreak]
  have last : layoutAfter middle [Piece.raw ";", .lineBreak] = [.fragment ";", .lineBreak] := by
    cases middle <;> simp [layoutAfter, Piece.raw, Piece.isBlank, Piece.spacing, Piece.items]
  exact render_layout_of_ends (ends.trans (congrArg _ last)) laid

end Writing

theorem isPlain_of_mem_significant (first : t.IsPlain) (plain : ∀ t ∈ ts, t.isTrivia = true ∨ t.IsPlain) :
    ∀ t' ∈ significant (t :: ts), t'.IsPlain := by
  intro t' member
  obtain ⟨listed, meaning⟩ := List.mem_filter.1 member
  rcases List.mem_cons.1 listed with rfl | listed
  · exact first
  · exact (plain t' listed).resolve_left fun trivia => by simp [trivia] at meaning

/-- A plain expression is converted to what is written for its tokens. -/
theorem convert_plain {semicolon : Token} (read : tokenize source = .ok (t :: (ts ++ [semicolon])))
    (first : t.IsPlain)
    (plain : ∀ t ∈ ts, t.isTrivia = true ∨ t.IsPlain) (ends : semicolon.isOp ";" = true)
    (settings : LayoutSettings) :
    convert settings source =
      .ok (String.ofList (writtenPlain settings.lineEnding.text.toList .raw (significant (t :: ts)))) := by
  obtain ⟨notes, block⟩ := block_plain first plain ends
  have laid := @lays_plainPieces settings _ (isPlain_of_mem_significant first plain) .raw
  have laid : Lays settings none _ _ none := fun more => by
    simpa only [layoutAfter_raw] using laid more
  simp only [convert, Program.ofSource, Layers.program, read, bind, Except.bind, block, Program.text,
    pure, Except.pure]
  rw [← render_layout_semicolon laid]
  rfl

/-! ## Reading the output -/

/-- The text is read as tokens with these texts, white space and comments apart. -/
def ReadsAs (id start : Nat) (cs : List Char) (texts : List String) : Prop :=
  ∃ tokens, tokenizeFrom id start cs = .ok tokens ∧ (significant tokens).map Token.text = texts

section ReadsAs

variable {id start : Nat} {cs rest : List Char} {lexeme : Lexeme} {text : String}

theorem readsAs_iff_of_scan (scanned : scan cs = .ok (some (lexeme, rest))) (nonempty : cs ≠ []) :
    ReadsAs id start cs texts ↔
      ∃ tokens, tokenizeFrom (id + 1) (start + byteLength lexeme.source) rest = .ok tokens ∧
        (significant (lexeme.tokenAt id start :: tokens)).map Token.text = texts := by
  rw [ReadsAs, tokenizeFrom_cons scanned nonempty]
  cases tokenizeFrom (id + 1) (start + byteLength lexeme.source) rest with
  | error fault => simp [bind, Except.bind]
  | ok tokens => simp [bind, Except.bind, pure, Except.pure]

/-- A token that carries meaning is the first of the texts. -/
theorem readsAs_cons_iff (scanned : scan cs = .ok (some (lexeme, rest))) (nonempty : cs ≠ [])
    (meaning : (lexeme.tokenAt id start).isTrivia = false) :
    ReadsAs id start cs (text :: texts) ↔
      lexeme.text = text ∧ ReadsAs (id + 1) (start + byteLength lexeme.source) rest texts := by
  rw [readsAs_iff_of_scan scanned nonempty]
  simp only [significant, List.filter_cons, meaning, Bool.not_false, if_true, List.map_cons,
    List.cons.injEq, ReadsAs]
  constructor
  · rintro ⟨tokens, read, first, others⟩
    exact ⟨first, tokens, read, others⟩
  · rintro ⟨first, tokens, read, others⟩
    exact ⟨tokens, read, first, others⟩

theorem readsAs_space_iff (ends : EndsBefore isBlankChar rest) : ReadsAs id start (' ' :: rest) texts ↔
      ReadsAs (id + 1) (start + byteLength spaceLexeme.source) rest texts := by
  obtain ⟨-, scanned⟩ := spaceLexeme_readBefore ends
  exact readsAs_iff_of_scan scanned (List.cons_ne_nil _ _)

end ReadsAs

/-! ## Neighbours -/

/-- The spacings of plain operators. -/
theorem operatorSpacing_plain : ∀ text ∈ plainOperators, ∀ afterOperand,
    (operatorSpacing text afterOperand = .leadingOperator ∧ leads afterOperand text = true ∨
      operatorSpacing text afterOperand = .binary ∧ leads afterOperand text = false ∨
      operatorSpacing text afterOperand = .closing ∧ leads afterOperand text = false ∧
        afterOperand = true ∧ text ∈ ["++", "--"]) ∧
      (operatorSpacing text afterOperand).endsOperand = operandAfter afterOperand text := by
  decide

theorem PlainLexeme.not_mem_operators (plain : PlainLexeme lexeme) (other : lexeme.category ≠ .operator) :
    lexeme.text ∉ operators := by
  cases plain with
  | operator member => exact absurd rfl other
  | name isWord category =>
    rw [text_wordLexeme]
    exact Sharp.not_mem_operators (by simpa using isWord)
  | number read =>
    rename_i cs
    intro member
    have first : ∀ operator ∈ operators, operator.toList.head?.any Char.isDigit = false := by decide
    have noDigit := first _ member
    match cs with
    | [] => cases read
    | c :: cs => simp [numberLexeme, Lexeme.verbatim, isDigit_of_scanNumber_ok read] at noDigit

theorem plainSpacing_operator (operator : t.category = .operator) (afterOperand : Bool) :
    t.plainSpacing afterOperand = operatorSpacing t.text afterOperand := by
  simp [plainSpacing, plainPiece, operator, Piece.spacing]

namespace Token.IsPlain

variable {t : Token}

section

variable (plain : t.IsPlain)
include plain

theorem plainSpacing_word (word : t.category ≠ .operator) (afterOperand : Bool) :
    t.plainSpacing afterOperand = .word ∧ leads afterOperand t.text = false ∧
      operandAfter afterOperand t.text = true := by
  have unlisted : t.text ∉ plainOperators := by
    obtain ⟨lexeme, id, start, plain, rfl⟩ := plain
    exact fun member => plain.not_mem_operators word (mem_operators_of_plain member)
  simp only [plainOperators, List.mem_cons, List.not_mem_nil, or_false, not_or] at unlisted
  refine ⟨?_, ?_, ?_⟩
  · rcases plain.cases_category with ⟨category, -⟩ | category | category
    · exact absurd category word
    · simp [plainSpacing, plainPiece, category, Piece.spacing, Piece.word]
    · simp [plainSpacing, plainPiece, category, Piece.spacing]
  · simp [leads, unlisted]
  · simp [operandAfter, plainOperators, unlisted]

theorem mem_of_isOperator (operator : t.category = .operator) : t.text ∈ plainOperators :=
  (plain.cases_category.resolve_right (by simp [operator])).2

theorem endsOperand_plainSpacing (afterOperand : Bool) :
    (t.plainSpacing afterOperand).endsOperand = operandAfter afterOperand t.text := by
  by_cases operator : t.category = .operator
  · rw [plainSpacing_operator operator]
    exact (operatorSpacing_plain _ (plain.mem_of_isOperator operator) afterOperand).2
  · obtain ⟨spacing, -, after⟩ := plain.plainSpacing_word operator afterOperand
    rw [spacing, after]
    rfl

/-- Unless it stands in front of its operand, a plain token is spaced from what does not stand behind
its own. -/
theorem spacing_before (behind : leads afterOperand t.text = false) :
    t.plainSpacing afterOperand ∈ [Spacing.word, .binary, .closing] := by
  by_cases operator : t.category = .operator
  · rw [plainSpacing_operator operator]
    obtain ⟨⟨-, leading⟩ | ⟨spacing, -⟩ | ⟨spacing, -⟩, -⟩ :=
      operatorSpacing_plain _ (plain.mem_of_isOperator operator) afterOperand
    · rw [behind] at leading
      cases leading
    · simp [spacing]
    · simp [spacing]
  · simp [(plain.plainSpacing_word operator afterOperand).1]

theorem spacing_after : t.plainSpacing afterOperand ∈ [Spacing.word, .binary, .leadingOperator] ∨
      afterOperand = true ∧ t.text ∈ ["++", "--"] := by
  by_cases operator : t.category = .operator
  · rw [plainSpacing_operator operator]
    obtain ⟨⟨spacing, -⟩ | ⟨spacing, -⟩ | ⟨-, -, after⟩, -⟩ :=
      operatorSpacing_plain _ (plain.mem_of_isOperator operator) afterOperand
    · simp [spacing]
    · simp [spacing]
    · exact .inr after
  · simp [(plain.plainSpacing_word operator afterOperand).1]

end

end Token.IsPlain

/-- Where two plain tokens are not spaced, the first stands in front of its operand or the second behind
it. -/
theorem tight_of_needsSpace (plain : t.IsPlain) (next_plain : next.IsPlain)
    (tight : needsSpace (t.plainSpacing afterOperand)
      (next.plainSpacing (t.plainSpacing afterOperand).endsOperand) = false) :
    leads afterOperand t.text = true ∨
      operandAfter afterOperand t.text = true ∧ next.text ∈ ["++", "--"] := by
  have spaced : ∀ before ∈ [Spacing.word, .binary, .closing],
      ∀ after ∈ [Spacing.word, .binary, .leadingOperator], needsSpace before after = true := by
    decide
  cases leading : leads afterOperand t.text with
  | true => exact .inl rfl
  | false =>
    rw [← plain.endsOperand_plainSpacing]
    refine .inr (next_plain.spacing_after.resolve_left fun after => ?_)
    rw [spaced _ (plain.spacing_before leading) _ after] at tight
    cases tight

/-- An operator in front of its operand stops before what does not make another one of it: the
operators that go on from it have one more character. -/
theorem stopsBefore_of_leads (leading : leads afterOperand text = true)
    (apart : text.push c ∉ operators) : StopsBefore text c := by
  have listed : text ∈ ["!", "+", "-", "*", "&", "++", "--"] := by
    simp only [leads, Bool.or_eq_true, Bool.and_eq_true, List.contains_iff_mem, beq_iff_eq] at leading
    rcases leading with rfl | ⟨-, member⟩
    · decide
    · exact List.mem_cons_of_mem _ member
  have longer : ∀ text ∈ ["!", "+", "-", "*", "&", "++", "--"], ∀ operator ∈ operators,
      text.toList <+: operator.toList → operator.length ≤ text.length + 1 := by
    decide
  intro operator member front
  have short := longer text listed operator member ((List.prefix_append _ _).trans front)
  have same : text.push c = operator := by
    rw [← String.toList_inj, String.toList_push]
    apply front.eq_of_length
    have long := front.length_le
    simp only [List.length_append, String.length_toList, List.length_singleton] at long ⊢
    omega
  exact apart (same ▸ member)

/-- The operators behind an operand are no part of what they follow. -/
theorem PlainLexeme.readBefore_closing (plain : PlainLexeme lexeme)
    (operand : operandAfter afterOperand lexeme.text = true)
    (closing : text ∈ ["++", "--"]) (more : List Char) : lexeme.ReadBefore (text.toList ++ more) := by
  obtain ⟨c, twice, sign⟩ : ∃ c, text.toList = [c, c] ∧ (c = '+' ∨ c = '-') := by
    simp only [List.mem_cons, List.not_mem_nil, or_false] at closing
    rcases closing with rfl | rfl
    · exact ⟨'+', rfl, .inl rfl⟩
    · exact ⟨'-', rfl, .inr rfl⟩
  rw [twice]
  have noWord : isWordChar c = false := by rcases sign with rfl | rfl <;> decide
  cases plain with
  | operator member =>
    have checked : ∀ text ∈ plainOperators, ∀ after, operandAfter after text = true →
        text ≠ "/" ∧ ∀ operator ∈ operators, ¬ text.toList ++ [c] <+: operator.toList := by
      rcases sign with rfl | rfl <;> decide
    obtain ⟨noSlash, stops⟩ := checked _ member afterOperand operand
    exact operatorLexeme_readBefore_of_stops member stops (fun slash => absurd slash noSlash) _
  | name isWord category => exact wordLexeme_readBefore isWord (by simpa using noWord)
  | number read =>
    refine numberLexeme_readBefore read ⟨by simpa using noWord, ?_, ?_⟩ <;>
      rcases sign with rfl | rfl <;> rfl

@[simp] theorem needsSpace_leadingOperator (spacing : Spacing) : needsSpace .leadingOperator spacing = false := by
  cases spacing <;> rfl

section Joined

variable {lexeme : Lexeme} {id start : Nat} {ts : List Token} {ending : List Char} {afterOperand : Bool}

theorem PlainLexeme.exists_operator (plain : PlainLexeme lexeme) (leading : leads afterOperand lexeme.text = true) :
    ∃ text ∈ plainOperators, lexeme = operatorLexeme text ∧ text ≠ "/" ∧
      (lexeme.tokenAt id start).plainSpacing afterOperand = .leadingOperator := by
  have isPlain : (lexeme.tokenAt id start).IsPlain := ⟨lexeme, id, start, plain, rfl⟩
  by_cases operator : lexeme.category = .operator
  · cases plain with
    | operator member =>
      refine ⟨_, member, rfl, ?_, ?_⟩
      · rintro rfl
        cases afterOperand <;> cases leading
      · rw [plainSpacing_operator operator]
        obtain ⟨⟨spacing, -⟩ | ⟨-, behind⟩ | ⟨-, behind, -⟩, -⟩ :=
          operatorSpacing_plain _ member afterOperand
        · exact spacing
        · cases leading.symm.trans behind
        · cases leading.symm.trans behind
    | name isWord category => rw [category] at operator; cases operator
    | number read => cases operator
  · rw [show lexeme.text = (lexeme.tokenAt id start).text from rfl,
      (isPlain.plainSpacing_word operator afterOperand).2.1] at leading
    cases leading

/-- A plain token is read as such unless it is joined with the next one. -/
theorem readBefore_writtenPlain (plain : PlainLexeme lexeme) (others : ∀ t ∈ ts, t.IsPlain)
    (apart : (leads afterOperand lexeme.text && (ts.map Token.text).head?.any (joins lexeme.text)) = false) :
    lexeme.ReadBefore (writtenPlain ending ((lexeme.tokenAt id start).plainSpacing afterOperand) ts) := by
  have isPlain : (lexeme.tokenAt id start).IsPlain := ⟨lexeme, id, start, plain, rfl⟩
  match ts with
  | [] => exact plain.readBefore (by decide) ending
  | next :: ts =>
    have next_plain := (List.forall_mem_cons.1 others).1
    rw [writtenPlain]
    cases tight : needsSpace ((lexeme.tokenAt id start).plainSpacing afterOperand) _ with
    | true => exact plain.readBefore (by decide) _
    | false =>
      rcases tight_of_needsSpace isPlain next_plain tight with leading | ⟨operand, closing⟩
      · have leading : leads afterOperand lexeme.text = true := leading
        obtain ⟨text, member, rfl, noSlash, -⟩ := @PlainLexeme.exists_operator _ id start _ plain leading
        obtain ⟨c, cs, front, -⟩ := next_plain.exists_first
        rw [leading, Bool.true_and, List.map_cons, List.head?_cons, Option.any_some, joins, front,
          List.head?_cons, Option.any_some, List.contains_eq_mem, decide_eq_false_iff_not] at apart
        rw [front]
        exact operatorLexeme_readBefore_of_stops member (stopsBefore_of_leads leading apart)
          (fun slash => absurd slash noSlash) _
      · exact plain.readBefore_closing operand closing _

/-- A plain token that is joined with the next one is not read as such. -/
theorem not_readsAs_of_joins (plain : PlainLexeme lexeme) (next_plain : next.IsPlain)
    (leading : leads afterOperand lexeme.text = true) (joined : joins lexeme.text next.text = true) :
    ¬ ReadsAs id start (lexeme.text.toList ++
      writtenPlain ending ((lexeme.tokenAt id start).plainSpacing afterOperand) (next :: ts))
        (lexeme.text :: texts) := by
  obtain ⟨text, member, rfl, noSlash, spacing⟩ := @PlainLexeme.exists_operator _ id start _ plain leading
  obtain ⟨c, cs, front, -⟩ := next_plain.exists_first
  have known : text.push c ∈ operators := by
    simpa [joins, front, List.contains_iff_mem, operatorLexeme] using joined
  obtain ⟨found, rest, scanned, other⟩ := exists_scan_longer member known (String.toList_push c)
    (fun slash => absurd slash noSlash)
    (cs ++ writtenPlain ending (next.plainSpacing (Spacing.endsOperand .leadingOperator)) ts)
  rw [spacing, writtenPlain, needsSpace_leadingOperator, front]
  intro reads
  have nonempty : text.toList ++ c :: (cs ++ writtenPlain ending
    (next.plainSpacing (Spacing.endsOperand .leadingOperator)) ts) ≠ [] := by simp
  exact other ((readsAs_cons_iff scanned nonempty rfl).1 reads).1

end Joined

/-- What is written for plain tokens is read as their texts where no two of them are joined. -/
theorem readsAs_written_iff (plain : ∀ t ∈ ts, t.IsPlain) (before : Spacing) (ending : LineEnding)
    (id start : Nat) :
    ReadsAs id start (writtenPlain ending.text.toList before ts) (ts.map Token.text ++ [";"]) ↔
      hasJoined before.endsOperand (ts.map Token.text) = false := by
  induction ts generalizing before id start with
  | nil =>
    refine iff_of_true ?_ rfl
    have reads (newline : Newline) : Reads [operatorLexeme ";", newline.lexeme] :=
      reads_operator (by simp) ⟨newline.readBefore (by simp), trivial⟩
    cases ending with
    | crlf => exact ⟨_, ((reads .crlf).tokenized id start).tokenizeFrom_eq, rfl⟩
    | lf => exact ⟨_, ((reads .lf).tokenized id start).tokenizeFrom_eq, rfl⟩
  | cons t ts ih =>
    obtain ⟨first, others⟩ := List.forall_mem_cons.1 plain
    -- The space in front of the token does not matter.
    have gap : ∃ id' start', ReadsAs id start (writtenPlain ending.text.toList before (t :: ts))
        ((t :: ts).map Token.text ++ [";"]) ↔ ReadsAs id' start' (t.text.toList ++
            writtenPlain ending.text.toList (t.plainSpacing before.endsOperand) ts)
            (t.text :: (ts.map Token.text ++ [";"])) := by
      rw [writtenPlain]
      split
      · refine ⟨_, _, readsAs_space_iff ?_⟩
        obtain ⟨lexeme, id', start', isPlain, rfl⟩ := first
        rw [show (lexeme.tokenAt id' start').text = lexeme.text from rfl, isPlain.toList_text]
        exact isPlain.endsBefore_isBlankChar _
      · exact ⟨_, _, Iff.rfl⟩
    obtain ⟨id', start', gap⟩ := gap
    have after := first.endsOperand_plainSpacing before.endsOperand
    obtain ⟨lexeme, id₀, start₀, isPlain, rfl⟩ := first
    rw [gap, List.map_cons, hasJoined, Bool.or_eq_false_iff, ← after]
    cases joined : leads before.endsOperand lexeme.text && (ts.map Token.text).head?.any (joins lexeme.text) with
    | true =>
      -- The first operator that is read is a longer one, so the words differ at once.
      obtain ⟨leading, together⟩ := Bool.and_eq_true_iff.1 joined
      match ts with
      | [] => cases together
      | next :: ts =>
        refine iff_of_false ?_ fun apart => ?_
        · exact not_readsAs_of_joins isPlain (List.forall_mem_cons.1 others).1 leading together
        · cases joined.symm.trans apart.1
    | false =>
      -- The word is read as it stands, and what is behind it decides.
      obtain ⟨nonempty, scanned⟩ :=
        @readBefore_writtenPlain _ id₀ start₀ _ ending.text.toList _ isPlain others joined
      have meaning : (lexeme.tokenAt id' start').isTrivia = false :=
        Token.IsPlain.isTrivia ⟨lexeme, id', start', isPlain, rfl⟩
      rw [← isPlain.toList_text] at scanned nonempty
      refine (readsAs_cons_iff scanned (by simp [nonempty]) meaning).trans ?_
      rw [ih others]
      exact and_congr_left fun _ => iff_of_true rfl joined

/-- Plain words that a `;` ends are always converted, and what is written is read as the same words
again unless two of them are joined. -/
theorem convert_plain_iff {words : List String} (nonempty : words ≠ [])
    (plain : ∀ word ∈ words, IsPlainWord word) {gap : String} (blank : gap ∈ ["", " "])
    (settings : LayoutSettings) :
    ∃ output, convert settings (" ".intercalate words ++ gap ++ ";") = .ok output ∧
      ((∃ tokens, tokenize output = .ok tokens ∧ (significant tokens).map Token.text = words ++ [";"]) ↔
        hasJoined false words = false) := by
  obtain ⟨t, ts, semicolon, read, first, others, ends, rfl⟩ := exists_tokens_plain nonempty plain blank
  refine ⟨_, convert_plain read first others ends settings, ?_⟩
  rw [tokenize, String.toList_ofList]
  exact readsAs_written_iff (isPlain_of_mem_significant first others) .raw settings.lineEnding 0 0

/-- Names and numbers are known by evaluating how they are read. -/
theorem isPlainWord_of_category (single : (tokenize word).toOption.map (List.map Token.category) ∈
      [some [.identifier], some [.numberLiteral]]) : IsPlainWord word := by
  cases read : tokenize word with
  | error fault => simp [read, Except.toOption] at single
  | ok tokens =>
    match tokens with
    | [] | _ :: _ :: _ => simp [read, Except.toOption] at single
    | [t] => exact .inr ⟨t, read, by simpa [read, Except.toOption] using single⟩

/-- Operators of one kind behind, between and in front of operands. -/
theorem convert_plain_iff_signs : (∀ word ∈ ["a", "++", "+", "-", "1e5", ">=", "!", "b"], IsPlainWord word) ∧
      ∃ output, convert {} "a ++ + - 1e5 >= ! b ;" = .ok output ∧ ∃ tokens, tokenize output = .ok tokens ∧
          (significant tokens).map Token.text = ["a", "++", "+", "-", "1e5", ">=", "!", "b", ";"] := by
  have plain : ∀ word ∈ ["a", "++", "+", "-", "1e5", ">=", "!", "b"], IsPlainWord word := by
    simp only [List.forall_mem_cons, List.not_mem_nil, false_imp_iff, implies_true, and_true]
    exact ⟨isPlainWord_of_category (by decide +kernel), .inl (by decide), .inl (by decide),
      .inl (by decide), isPlainWord_of_category (by decide +kernel), .inl (by decide), .inl (by decide),
      isPlainWord_of_category (by decide +kernel)⟩
  obtain ⟨output, converted, kept⟩ := @convert_plain_iff _ (by simp) plain " " (by decide) {}
  exact ⟨plain, output, converted, kept.2 (by decide)⟩

/-- Two signs in front of an operand become one operator. -/
theorem convert_plain_two_signs : (∀ word ∈ ["-", "-", "a"], IsPlainWord word) ∧ convert {}
    "- - a ;" = .ok "--a;\r\n" ∧
      ¬ ∃ tokens, tokenize "--a;\r\n" = .ok tokens ∧
        (significant tokens).map Token.text = ["-", "-", "a", ";"] := by
  refine ⟨?_, eq_ok_of_toOption (by decide +kernel), ?_⟩
  · simp only [List.forall_mem_cons, List.not_mem_nil, false_imp_iff, implies_true, and_true]
    exact ⟨.inl (by decide), .inl (by decide), isPlainWord_of_category (by decide +kernel)⟩
  · obtain ⟨tokens, read, texts⟩ : ∃ tokens, tokenize "--a;\r\n" = .ok tokens ∧
        (significant tokens).map Token.text = ["--", "a", ";"] := exists_of_toOption (by decide +kernel)
    rintro ⟨tokens', read', texts'⟩
    rw [read] at read'
    cases read'
    exact absurd (texts.symm.trans texts') (by decide)

end Sharp
