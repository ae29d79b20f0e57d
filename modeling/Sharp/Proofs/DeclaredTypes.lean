import Sharp.Proofs.Embedding
import Sharp.Proofs.StructuredFunction
import Sharp.Proofs.TypeReading

/-!
# Types in declarations

A text that is a type on its own is the same type in the declaration of a variable.

* `convert_variable_of_parse`: variables with any type that a text spells.
-/

namespace Sharp

open Token TypeExpr

variable {t before semicolon : Token} {keyword text : String} {type : TypeExpr}
  {rest ts tokens : List Token} {scope : Scope}

/-! ## Computations with known results -/

/-- The reading gives `a`. -/
def Reading.Gives {α : Type} (x : Reading α) (a : α) : Prop := ∃ notes, x = .done a notes

namespace Reading.Gives

variable {α β : Type} {a : α} {b : β}

theorem pure (a : α) : Gives (Pure.pure a) a := ⟨[], rfl⟩

theorem bind {x : Reading α} {next : α → Reading β} (first : Gives x a) (second : Gives (next a) b) :
    Gives (x >>= next) b := by
  obtain ⟨u, rfl⟩ := first
  obtain ⟨v, done⟩ := second
  exact ⟨u ++ v, by rw [Logged.done_bind, done]; rfl⟩

theorem note_bind {role : Role} {next : Unit → Reading β} (second : Gives (next ()) b) :
    Gives (note t role >>= next) b :=
  bind ⟨_, rfl⟩ second

theorem of_bind {x : Reading α} {next : α → Reading β} (gives : Gives (x >>= next) b) :
    ∃ a, x.Gives a ∧ (next a).Gives b := by
  obtain ⟨notes, done⟩ := gives
  obtain ⟨a, u, v, first, second, -⟩ := Logged.bind_eq_done.1 done
  exact ⟨a, ⟨u, first⟩, v, second⟩

theorem unique {x : Reading α} {a a' : α} (first : x.Gives a) (second : x.Gives a') : a = a' := by
  obtain ⟨notes, rfl⟩ := first
  obtain ⟨notes', same⟩ := second
  cases same
  rfl

end Reading.Gives

/-- What is known of a value from evaluating the reading that gives it. -/
theorem Reading.exists_gives {α β : Type} {x : Reading α} {f : α → β} {b : β}
    (same : x.toExcept.toOption.map f = some b) : ∃ a, x.Gives a ∧ f a = b := by
  obtain ⟨a, notes, done, value⟩ := Logged.exists_done same
  exact ⟨a, ⟨notes, done⟩, value⟩

/-- The computation ends in a fault. -/
def Logged.Fails {ω α : Type} (x : Logged ω α) : Prop := ∃ fault, x = .fail fault

theorem Logged.Fails.bind {ω α β : Type} [Log ω] {x : Logged ω α} {next : α → Logged ω β}
    (fails : x.Fails) : (x >>= next).Fails := by
  obtain ⟨fault, rfl⟩ := fails
  exact ⟨fault, rfl⟩

theorem Logged.Fails.ofReading {α : Type} {reading : Reading α} (fails : reading.Fails) :
    Logged.Fails (liftM reading : Draft α) := by
  obtain ⟨fault, rfl⟩ := fails
  exact ⟨fault, rfl⟩

theorem Reading.Gives.bind_fails {α β : Type} {x : Reading α} {a : α} {next : α → Reading β}
    (first : x.Gives a) (second : (next a).Fails) : (x >>= next).Fails := by
  obtain ⟨u, rfl⟩ := first
  obtain ⟨fault, done⟩ := second
  exact ⟨fault, by rw [Logged.done_bind, done]; rfl⟩

section Walks

variable {σ α : Type} {round : σ → Token → List Token → Reading (Step σ α)} {finish : σ → Reading α}
  {state state' : σ} {value : α}

theorem Reading.Gives.walk (first : (round state t ts).Gives (.next state' rest))
    (shorter : rest.length ≤ ts.length) (others : Reading.Gives (Sharp.walk round finish state' rest) value) :
    Reading.Gives (Sharp.walk round finish state (t :: ts)) value := by
  rw [walk_cons]
  have fewer : rest.length < (t :: ts).length := Nat.lt_succ_of_le shorter
  exact first.bind (by simpa only [if_pos fewer] using others)

theorem Reading.Gives.of_walk (gives : Reading.Gives (Sharp.walk round finish state (t :: ts)) value)
    (first : (round state t ts).Gives (.next state' rest)) :
    Reading.Gives (Sharp.walk round finish state' rest) value := by
  rw [walk_cons] at gives
  obtain ⟨step, done, others⟩ := gives.of_bind
  cases done.unique first
  simp only at others
  split at others
  · exact others
  · obtain ⟨_, failed⟩ := others
    cases failed

theorem gives_walk_next (first : (round state t ts).Gives (.next state' rest))
    (shorter : rest.length ≤ ts.length) (value : α) :
    Reading.Gives (walk round finish state (t :: ts)) value ↔ Reading.Gives (walk round finish state' rest) value :=
  ⟨fun gives => gives.of_walk first, .walk first shorter⟩

theorem not_gives_walk (first : (round state t ts).Fails) (value : α) :
    ¬ Reading.Gives (walk round finish state (t :: ts)) value := by
  rintro ⟨notes, done⟩
  obtain ⟨fault, failed⟩ := first
  rw [walk_cons, failed] at done
  cases done

end Walks

/-- The draft gives `value` and produces `pieces`. -/
def Draft.Produces {α : Type} (draft : Draft α) (value : α) (pieces : List Piece) : Prop :=
  ∃ notes, draft = .done value ⟨pieces, notes⟩

namespace Draft.Produces

variable {α β : Type} {a : α} {b : β} {pieces pieces' : List Piece}

theorem pure (a : α) : Produces (Pure.pure a) a [] := ⟨[], rfl⟩

theorem bind {draft : Draft α} {next : α → Draft β} (first : Produces draft a pieces)
    (second : Produces (next a) b pieces') : Produces (draft >>= next) b (pieces ++ pieces') := by
  obtain ⟨u, rfl⟩ := first
  obtain ⟨v, done⟩ := second
  exact ⟨u ++ v, by rw [Logged.done_bind, done]; rfl⟩

theorem emit (pieces : List Piece) : Produces (Sharp.emit pieces) () pieces := ⟨[], rfl⟩

theorem ofReading {reading : Reading α} (read : reading.Gives a) : Produces (liftM reading) a [] := by
  obtain ⟨notes, rfl⟩ := read
  exact ⟨notes, rfl⟩

end Draft.Produces

section Statement

variable {source : String} {after : List Token} {pieces : List Piece}

open Layers in
theorem block_eq_statements (t : Token) (rest : List Token) : standard.all.block .root (t :: rest) =
      convertStatements (standard.converters (blockRank rest.length)) { scope := .root } (t :: rest) :=
  rfl

open Layers in
theorem statementFrom_eq (t : Token) (rest : List Token) :
    (standard.converters (blockRank rest.length)).statementFrom .root {} t rest =
      convertStatement (standard.converters (statementRank rest.length)) .root {} t rest :=
  converters_statementFrom (Nat.lt_succ_self _) _ _ _

open Layers in
/-- A block that is one statement, behind which only semicolons stand. -/
theorem block_of_statement (keyword : t.category = .keyword)
    (converted : (convertStatement (standard.converters (statementRank rest.length)) .root {} t rest).Produces
      ⟨{}, after⟩ pieces)
    (last : skipSemicolons after = []) : (standard.all.block .root (t :: rest)).Produces () pieces := by
  obtain ⟨notes, converted⟩ := converted
  refine ⟨notes, ?_⟩
  rw [block_eq_statements, convertStatements, walk_cons, convertBlockRound_meaning (.inr keyword),
    statementFrom_eq, converted]
  simp [last, Logged.after, Log.append, Log.none, Modifiers.ensureEmpty, Logged.ofExcept, Statement.scopeAfter]

theorem convert_of_statement (read : tokenize source = .ok (t :: rest)) (keyword : t.category = .keyword)
    (converted : ∀ inner, (convertStatement inner .root {} t rest).Produces ⟨{}, after⟩ pieces)
    (last : skipSemicolons after = []) (settings : LayoutSettings) :
    convert settings source = .ok (render settings (layout pieces)) := by
  obtain ⟨notes, block⟩ := block_of_statement keyword (converted _) last
  simp only [convert, Program.ofSource, Layers.program, read, bind, Except.bind, block, Program.text,
    pure, Except.pure]

open Layers in
theorem convert_of_statement_fails {fault : Fault} (read : tokenize source = .ok (t :: rest))
    (keyword : t.category = .keyword)
    (failed : convertStatement (standard.converters (statementRank rest.length)) .root {} t rest = .fail fault)
    (settings : LayoutSettings) : convert settings source = .error fault := by
  have block : standard.all.block .root (t :: rest) = .fail fault := by
    rw [block_eq_statements, convertStatements, walk_cons, convertBlockRound_meaning (.inr keyword),
      statementFrom_eq, failed]
    rfl
  simp only [convert, Program.ofSource, Layers.program, read, bind, Except.bind, block]

end Statement

/-! ## The tokens of a declaration -/

def declared (keyword : String) (name : Name) : List Lexeme :=
  [word keyword, spaceLexeme, name.lexeme, operatorLexeme ":"]

theorem colon_readBefore (rest : List Char) : (operatorLexeme ":").ReadBefore (' ' :: rest) :=
  ⟨by decide, rfl⟩

theorem declared_readsBefore (isWord : isWordSpelling keyword.toList = true) (name : Name)
    (rest : List Char) : ReadsBefore (' ' :: rest) (declared keyword name) := by
  refine ⟨wordLexeme_readBefore isWord ?_, spaceLexeme_readBefore ?_, wordLexeme_readBefore name.isWord ?_,
    colon_readBefore rest, trivial⟩
  · simp [isWordChar]
  · simpa using isWordSpelling_noBlank name.isWord _
  · simp [isWordChar]

/-- A text is a type if its tokens are those of one. -/
theorem readWhole_of_parse (parsed : TypeExpr.parse text = .ok type) :
    ∃ tokens before notes, tokenize text = .ok tokens ∧
      readWhole before (significant tokens) = .done type notes := by
  unfold TypeExpr.parse at parsed
  cases read : tokenize text with
  | error fault => simp [read, bind, Except.bind] at parsed
  | ok tokens =>
    simp only [read, bind, Except.bind] at parsed
    cases meaning : significant tokens with
    | nil => simp [meaning] at parsed
    | cons first more =>
      simp only [meaning] at parsed
      cases whole : readWhole first (first :: more) with
      | fail fault => simp [whole, Logged.toExcept] at parsed
      | done type' notes =>
        simp only [whole, Logged.toExcept, Except.ok.injEq] at parsed
        exact ⟨tokens, first, notes, rfl, by rw [meaning, whole, parsed]⟩

theorem isTypeText_of_significant (types : TypeTokens 0 (significant tokens)) :
    ∀ t ∈ tokens, t.isTypeText = true := by
  intro t member
  by_cases trivia : t.isTrivia = true
  · simp [isTypeText, trivia]
  · have known := types.known t (List.mem_filter.2 ⟨member, by simp [trivia]⟩)
    simp [isTypeText, known]

/-- The tokens in front of the type of a declaration. -/
structure Declared (keyword : String) (name : Name) (t space nameToken colon : Token) : Prop where
  keyword : t.Is .keyword keyword
  space : space.isTrivia = true
  name : nameToken.Is .identifier name.text
  colon : colon.isOp ":" = true

theorem exists_place_declared (reserved : (keywordRole? keyword).isSome = true) (name : Name) :
    ∃ t space nameToken colon, place 0 0 (declared keyword name) = [t, space, nameToken, colon] ∧
      Declared keyword name t space nameToken colon :=
  ⟨_, _, _, _, rfl, ⟨category_word reserved, text_word _⟩, rfl, name.tokenAt_is _ _, rfl⟩

/-- In a declaration, the tokens of a type stand behind the name and the colon. -/
theorem exists_declared {notes : List Note} (read : tokenize text = .ok tokens)
    (whole : readWhole before (significant tokens) = .done type notes) (newline : Newline)
    (keyword : String) (reserved : (keywordRole? keyword).isSome = true)
    (isWord : isWordSpelling keyword.toList = true) (name : Name) {closing : List Lexeme}
    (closes : Reads closing) (ends : EndsBefore (· == '\n') (spelling closing)) :
    ∃ t space nameToken colon ts id start shift, Declared keyword name t space nameToken colon ∧
      tokenize (keyword ++ " " ++ name.text ++ ": " ++ text ++ newline.text ++ String.ofList (spelling closing)) =
        .ok (t :: space :: nameToken :: colon :: ts ++ place id start closing) ∧
      significant ts = (significant tokens).map (Token.moved shift) ∧
      (readWhole colon (significant ts)).Gives (type.moved shift) := by
  obtain ⟨types, -⟩ := readWhole_moved ⟨0, 0⟩ before before whole
  obtain ⟨middle, shift, reads, spelled, meaning⟩ := exists_embedded read (isTypeText_of_significant types)
    newline (declared_readsBefore isWord name) closes ends
  obtain ⟨t, space, nameToken, colon, placed, head⟩ := exists_place_declared reserved name
  have whole_spelled : (keyword ++ " " ++ name.text ++ ": " ++ text ++ newline.text ++
      String.ofList (spelling closing)).toList = spelling (declared keyword name ++ (middle ++ closing)) := by
    simp [declared, spelled]
  have tokenized := tokenize_spelling whole_spelled reads
  rw [place_append, place_append, placed, Nat.zero_add, Nat.zero_add] at tokenized
  refine ⟨t, space, nameToken, colon, _, _, _, shift, head, tokenized, meaning, ?_⟩
  · rw [meaning]
    exact (readWhole_moved shift before _ whole).2

/-! ## Variables -/

section Search

variable {p : Token → Bool} {front : List Token}

theorem splitTop_append (missed : splitTopAt p 0 front = none) (closed : depthAfter 0 front = some 0)
    (found : p t = true) (rest : List Token) :
    splitTop p (front ++ t :: rest) = some ⟨front, t, rest⟩ := by
  rw [splitTop, splitTopAt_append missed closed]
  simp [splitTopAt, found, Split.prepend]

/-- The tokens that `p` looks for are operators that types are not written with. -/
structure Foreign (p : Token → Bool) : Prop where
  operator : ∀ t, p t = true → t.category = .operator
  unlisted : ∀ t, p t = true → t.text ∉ typeOperators

theorem Foreign.splitTopAt_of_types (foreign : Foreign p) (types : TypeTokens 0 ts) :
    splitTopAt p 0 ts = none := by
  refine splitTopAt_eq_none (fun t member => Bool.eq_false_iff.2 fun found => ?_) 0
  have known := types.known t member
  simp [isTypeToken, isWord, isOpIn, foreign.operator t found, foreign.unlisted t found] at known

/-- A search for such an operator goes past a type and what stands between its tokens. -/
theorem Foreign.splitTopAt_of_significant (foreign : Foreign p) (types : TypeTokens 0 (significant ts)) :
    splitTopAt p 0 ts = none := by
  refine splitTopAt_eq_none_of_significant (fun t trivia => Bool.eq_false_iff.2 fun found => ?_)
    (foreign.splitTopAt_of_types types)
  simp [isTrivia, foreign.operator t found] at trivia

theorem foreign_of_isOpIn (texts : List String) (unlisted : ∀ text ∈ texts, text ∉ typeOperators)
    (isOp : ∀ t, p t = true → t.isOpIn texts = true) : Foreign p := by
  have parts (t : Token) (found : p t = true) : t.category = .operator ∧ t.text ∈ texts := by
    simpa [isOpIn] using isOp t found
  exact ⟨fun t found => (parts t found).1, fun t found => unlisted _ (parts t found).2⟩

end Search

section Declarations

variable {name : Name} {space nameToken colon : Token}

theorem typeTokens_of_gives (whole : (readWhole before ts).Gives type) : TypeTokens 0 ts := by
  obtain ⟨notes, whole⟩ := whole
  exact (readWhole_moved ⟨0, 0⟩ before before whole).1

namespace Declared

section

variable (head : Declared keyword name t space nameToken colon)
include head

theorem isNameLike : nameToken.isNameLike = true := by
  simp [Token.isNameLike, head.name.1]

theorem significant_eq (ts : List Token) :
    significant (space :: nameToken :: colon :: ts) = nameToken :: colon :: significant ts := by
  have colon_is := head.colon
  rw [isOp_iff] at colon_is
  have noTrivia : colon.isTrivia = false := by simp [isTrivia, colon_is.1]
  have isWord := isWord_of_isNameLike head.isNameLike
  simp [significant, head.space, isTrivia_of_isWord isWord, noTrivia]

theorem typeTokens (types : TypeTokens 0 ts) :
    TypeTokens 0 (colon :: ts) ∧ TypeTokens 0 (nameToken :: colon :: ts) := by
  have behind : TypeTokens 0 (colon :: ts) := (TypeTokens.operator head.colon (by decide)).append types
  exact ⟨behind, (TypeTokens.name head.isNameLike).append behind⟩

end

end Declared

theorem readVariableHeader_declared {kind : VariableKind} (head : Declared keyword name t space nameToken colon)
    (whole : (readWhole colon (significant ts)).Gives type) :
    (readVariableHeader kind scope t (space :: nameToken :: colon :: ts)).Gives ⟨nameToken, some type, []⟩ := by
  have foreign : Foreign (·.isOp "@") :=
    foreign_of_isOpIn ["@"] (by decide) fun t found => by simpa [isOpIn, isOp] using found
  have noMark : splitTop (·.isOp "@") (colon :: significant ts) = none :=
    foreign.splitTopAt_of_types (head.typeTokens (typeTokens_of_gives whole)).1
  have variableType : (readVariableType (colon :: significant ts)).Gives (some type) := by
    simp only [readVariableType, head.colon]
    exact .note_bind (.bind whole (.pure _))
  simp only [readVariableHeader, head.significant_eq, head.isNameLike, splitAtMark, noMark, readMemberAccess]
  exact .note_bind (.bind variableType (.bind (.pure _) (.pure _)))

theorem foreign_isAssignment : Foreign fun t => t.isAssignment || t.isOp ";" := by
  refine foreign_of_isOpIn (";" :: assignmentOperators) (by decide) fun t found => ?_
  simp only [Bool.or_eq_true, isAssignment, isOpIn, isOp, Bool.and_eq_true,
    beq_iff_eq, List.contains_iff_mem] at found
  simp only [isOpIn_iff, List.mem_cons]
  grind

theorem convertVariable_declared (inner : Converters)
    (head : Declared keyword name t space nameToken colon) (isSemicolon : semicolon.isOp ";" = true)
    (whole : (readWhole colon (significant ts)).Gives type) :
    (convertVariable inner .letVar .root {} t (space :: nameToken :: colon :: ts ++ [semicolon])).Produces []
      [.line (type.render .plain ++ " " ++ name.text ++ ";")] := by
  have types := (head.typeTokens (typeTokens_of_gives whole)).2
  rw [← head.significant_eq] at types
  have missed := foreign_isAssignment.splitTopAt_of_significant types
  have closed : depthAfter 0 (space :: nameToken :: colon :: ts) = some 0 := by
    rw [← depthAfter_significant, types.closed]
  have found : (semicolon.isAssignment || semicolon.isOp ";") = true := by simp [isSemicolon]
  rw [isOp_iff] at isSemicolon
  have noValue : semicolon.isOp "=" = false := by simp [isOp, isSemicolon]
  have expected : semicolon.isOpIn ["=", ";"] = true := by simp [isOpIn, isSemicolon]
  unfold convertVariable
  rw [splitTop_append missed closed found, ← head.name.2]
  simp only [noValue, expected]
  refine .bind (.pure ()) (.bind (.ofReading (readVariableHeader_declared head whole)) ?_)
  exact .bind (.pure _) (.bind (.emit _) (.pure _))

theorem convertStatement_let {inner : Converters} {pending : Modifiers} (t_is : t.Is .keyword "let") :
    convertStatement inner scope pending t rest =
      plainStatement (convertVariable inner .letVar scope pending t rest) := by
  obtain ⟨category, text⟩ := t_is
  simp [convertStatement, convertKeywordStatement, isOp, category, text]

end Declarations

/-- A text that is read as a type is the type of a variable that is declared with it. -/
theorem convert_variable_of_parse {text : String} {type : TypeExpr}
    (parsed : TypeExpr.parse text = .ok type) (name : Name) (newline : Newline)
    (settings : LayoutSettings) :
    convert settings ("let " ++ name.text ++ ": " ++ text ++ newline.text ++ ";") =
      .ok (type.render .plain ++ " " ++ name.text ++ ";" ++ settings.lineEnding.text) := by
  obtain ⟨tokens, before, notes, read, whole⟩ := readWhole_of_parse parsed
  have closes : Reads [operatorLexeme ";"] := reads_operator (by simp) trivial
  obtain ⟨t, space, nameToken, colon, ts, id, start, shift, head, tokenized, -, whole⟩ :=
    exists_declared read whole newline "let" (by decide) (by decide) name closes (by simp)
  have converted (inner : Converters) : (convertStatement inner .root {} t
      (space :: nameToken :: colon :: ts ++ [(operatorLexeme ";").tokenAt id start])).Produces ⟨{}, []⟩
      [.line ((type.moved shift).render .plain ++ " " ++ name.text ++ ";")] := by
    rw [convertStatement_let head.keyword]
    exact .bind (convertVariable_declared inner head rfl whole) (.pure _)
  rw [TypeExpr.render_moved] at converted
  have line : render settings (layout [.line (type.render .plain ++ " " ++ name.text ++ ";")]) = _ :=
    @render_layout_line settings [] _ _ (lays_line _)
  have result := convert_of_statement tokenized head.keyword.1 converted rfl settings
  rw [line] at result
  exact result

/-- The comment up to the carriage return belongs to the type. -/
theorem convert_variable_of_parse_function :
    ∃ type, TypeExpr.parse " // c\rfn: (a ~ b)?, c => (List-(d/e))# /* => */\r" = .ok type ∧
      convert {} "let x:  // c\rfn: (a ~ b)?, c => (List-(d/e))# /* => */\r\n;" =
        .ok "Func<(a, b)?, c, List<d, e>[]> x;\r\n" := by
  obtain ⟨type, parsed, text⟩ : ∃ type,
      TypeExpr.parse " // c\rfn: (a ~ b)?, c => (List-(d/e))# /* => */\r" = .ok type ∧
      type.render .plain = "Func<(a, b)?, c, List<d, e>[]>" := exists_of_toOption (by decide +kernel)
  have converted := convert_variable_of_parse parsed ⟨"x", by decide, by decide, by decide⟩ .lf {}
  rw [text] at converted
  exact ⟨type, parsed, converted⟩

end Sharp
