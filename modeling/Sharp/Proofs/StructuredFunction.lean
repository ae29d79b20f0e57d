import Sharp.Proofs.StructuredControlFlow

/-!
# Structured functions are translated exactly

Every function whose body is made of structured statements is converted, and its text is the
reference layout, whatever the settings and whether or not it yields.

* `convert_fnSource`: a function.
-/

namespace Sharp

open Token

variable {t semicolon next f opening space : Token} {rest after ts header : List Token}
  {text words text' : String} {scope : Scope} {body stmts cleanup : List Stmt} {inner : Converters}
  {pending : Modifiers} {rank n id start outer : Nat} {newline : Newline} {yields isConst : Bool}
  {middle : Option Spacing} {stmt : Stmt} {others : Branches} {state : BlockState}

/-! ## Dispatch -/

section Dispatch

theorem convertStatement_name (t_is : t.category = .identifier) :
    convertStatement inner scope {} t rest = unmodified {} (convertExpressionStatement inner scope t rest) := by
  simp [convertStatement, isOp, t_is]

theorem convertStatement_return (t_is : t.Is .keyword "return") :
    convertStatement inner scope {} t rest = unmodified {} (if scope.yields then
      convertYield inner scope t rest else convertExpressionStatement inner scope t rest) := by
  obtain ⟨category, text⟩ := t_is
  have role : t.vocabularyRole? = some (.keyword .expr) := by
    simp only [vocabularyRole?, category, text]
    decide
  cases yields : scope.yields <;>
    simp [convertStatement, convertKeywordStatement, convertOther, isOp, category, text, yields,
      controlFlowWords, modifierRole?, Token.keywordRole?, role]

theorem convertStatement_controlFlow (t_is : t.Is .keyword words)
    (controls : words ∈ ["if", "while", "foreach", "try"]) :
    convertStatement inner scope {} t rest = unmodified {} (convertControlFlow inner scope t rest) := by
  obtain ⟨category, text⟩ := t_is
  simp only [List.mem_cons, List.not_mem_nil, or_false] at controls
  rcases controls with rfl | rfl | rfl | rfl <;>
    simp [convertStatement, convertKeywordStatement, convertOther, isOp, category, text, controlFlowWords]

end Dispatch

/-! ## Layers -/

section Layers

variable {settings : LayoutSettings} {body : List Lexeme} {text : String}

open Layers

theorem converters_expression {place : Place} (above : expressionRank rest.length < rank) :
    (standard.converters rank).expression place (t :: rest) =
      convertExpression (standard.converters (expressionRank rest.length)) place (t :: rest) :=
  converters_expressionFrom above place t

theorem convertsNames_inside (longer : 2 ≤ n) : ConvertsNames (standard.converters (statementRank n)) := by
  intro place space name space' text space_is name_is space'_is
  have above : expressionRank [name, space'].length < statementRank n := by
    simp only [expressionRank, statementRank, List.length_cons, List.length_nil]
    omega
  rw [converters_expression above]
  exact convertExpression_name space_is name_is space'_is

end Layers

/-! ## Trees -/

section Trees

variable {settings : LayoutSettings}

open Layers

theorem endsBranches_nil : EndsBranches newline [] := by
  intro id start
  simp [branchFollower, place, skipTrivia, List.dropWhile_cons, isTrivia]

/-- A statement does not go on with the branches before it. -/
theorem Stmt.endsBranches (stmt : Stmt) (more : List Lexeme) :
    EndsBranches newline (stmt.lexemes newline ++ more) := by
  intro id start
  have first {lexeme : Lexeme} {lexemes : List Lexeme} (meaning : lexeme.category = .identifier ∨
      lexeme.category = .keyword ∧ lexeme.text ≠ "elif" ∧ lexeme.text ≠ "else") :
      branchFollower (place id start (newline.lexeme :: lexeme :: lexemes)) = pure .other := by
    rcases meaning with meaning | ⟨meaning, elif, last⟩
    · simp [branchFollower, place, skipTrivia, List.dropWhile_cons, isTrivia, meaning, isKeyword]
    · simp [branchFollower, place, skipTrivia, List.dropWhile_cons, isTrivia, meaning, isKeyword, elif, last]
  cases stmt with
  | call f => exact first (.inl (by simp))
  | leave | give x | branch condition body others | loop condition body | each element collection body
  | attempt body cleanup => exact first (.inr ⟨category_word (by decide), by simp⟩)

theorem stmtsLexemes_endsBranches (stmts : List Stmt) : EndsBranches newline (stmtsLexemes newline stmts) := by
  cases stmts with
  | nil => exact endsBranches_nil
  | cons stmt stmts => exact stmt.endsBranches _

/-! ### Kinds of statements -/

theorem unmodified_writes {draft : Draft (List Token)} (written : draft.Writes settings rest none text none) :
    (unmodified {} draft).Writes settings ⟨{}, rest⟩ none text none :=
  Draft.Writes.cast (.bind (.pure ()) (.bind written (.pure _))) (by simp)

/-- The statement is converted, up to the line break after it. -/
def Stmt.Converts (settings : LayoutSettings) (yields : Bool) (newline : Newline) (stmt : Stmt) : Prop :=
  ∀ level more, EndsBranches newline more → ∀ id start, ∃ first rest id' start',
    place id start (stmt.lexemes newline ++ more) = first :: rest ∧
      (first.category = .identifier ∨ first.category = .keyword) ∧
      (standard.all.statementFrom ⟨.fnBody, level, yields⟩ {} first rest).Writes settings
        ⟨{}, place id' start' (newline.lexeme :: more)⟩ none (stmt.reference settings yields level)
        none

theorem statementFrom_expression {pieces : List Piece} {notes : List Note}
    (dispatched : ∀ inner, convertStatement inner scope {} t rest =
      unmodified {} (convertExpressionStatement inner scope t rest))
    (converted : ∀ inner, convertExpression inner { mode := .statement, scope } (t :: rest) =
      .done ⟨⟨pieces, isConst⟩, semicolon :: after⟩ notes)
    (semicolon_is : semicolon.Is .operator ";") (nonempty : pieces ≠ [])
    (laid : Lays settings none pieces text middle) :
    (standard.all.statementFrom scope {} t rest).Writes settings ⟨{}, after⟩ none
      (lineAt settings scope.level (text ++ ";")) none := by
  have statement : standard.all.statementFrom scope {} t rest = unmodified {}
      (convertExpressionStatement (standard.converters (statementRank rest.length)) scope t rest) :=
    dispatched _
  have expression : (standard.converters (statementRank rest.length)).expression
      { mode := .statement, scope } (t :: rest) =
      .done ⟨⟨pieces, isConst⟩, semicolon :: after⟩ notes := by
    rw [converters_expression (by simp [expressionRank, statementRank]), converted]
  rw [statement]
  exact unmodified_writes (convertExpressionStatement_writes expression semicolon_is nonempty laid)

theorem Stmt.converts_call (f : Name) : (Stmt.call f).Converts settings yields newline := by
  intro level more _ id start
  have written : (lineAt settings level (f.text ++ ("(" ++ ")") ++ ";")) =
      (Stmt.call f).reference settings yields level := by
    rw [← String.toList_inj]
    simp [Stmt.reference, lineAt]
  exact ⟨_, _, _, _, rfl, .inl f.category_lexeme, Draft.Writes.cast (statementFrom_expression
    (fun _ => convertStatement_name f.category_lexeme)
    (fun _ => convertExpression_call (f.tokenAt_is _ _) ⟨rfl, rfl⟩ ⟨rfl, rfl⟩ ⟨rfl, rfl⟩)
    ⟨rfl, rfl⟩ (List.cons_ne_nil _ _) (lays_call f)) written⟩

theorem return_is (id start : Nat) : ((word "return").tokenAt id start).Is .keyword "return" :=
  ⟨category_word (by decide), text_word _⟩

/-- In a function that yields, `return` is converted on its own. -/
theorem statementFrom_yield (yields : scope.yields = true) (t_is : t.Is .keyword "return")
    (written : (convertYield (standard.converters (statementRank rest.length)) scope t rest).Writes
      settings after none text none) :
    (standard.all.statementFrom scope {} t rest).Writes settings ⟨{}, after⟩ none text none := by
  have statement : standard.all.statementFrom scope {} t rest = unmodified {}
      (convertYield (standard.converters (statementRank rest.length)) scope t rest) := by
    refine (convertStatement_return t_is).trans ?_
    rw [yields, if_pos rfl]
  rw [statement]
  exact unmodified_writes written

theorem Stmt.converts_leave : Stmt.leave.Converts settings yields newline := by
  intro level more _ id start
  cases yields with
  | false =>
    exact ⟨_, _, _, _, rfl, .inr (return_is id start).1, Draft.Writes.cast
      (statementFrom_expression (fun _ => convertStatement_return (return_is _ _))
        (fun _ => convertExpression_return [] (return_is _ _) (.inl ⟨rfl, rfl⟩) ⟨rfl, rfl⟩)
        ⟨rfl, rfl⟩ (List.cons_ne_nil _ _) (lays_keyword (by simp))) (by simp [Stmt.reference])⟩
  | true =>
    exact ⟨_, _, _, _, rfl, .inr (return_is id start).1, Draft.Writes.cast
      (statementFrom_yield rfl (return_is _ _) (convertYield_break ⟨rfl, rfl⟩))
      (by simp [Stmt.reference])⟩

theorem Stmt.converts_give (x : Name) : (Stmt.give x).Converts settings yields newline := by
  intro level more _ id start
  cases yields with
  | false =>
    have written : lineAt settings level ("return" ++ (" " ++ x.text) ++ ";") =
        (Stmt.give x).reference settings false level := by
      rw [← String.toList_inj]
      simp [Stmt.reference, lineAt]
    exact ⟨_, _, _, _, rfl, .inr (return_is id start).1, Draft.Writes.cast
      (statementFrom_expression (fun _ => convertStatement_return (return_is _ _))
        (fun _ => convertExpression_return [_, _] (return_is _ _) (.inr ⟨_, _, _, rfl, rfl, x.tokenAt_is _ _, rfl⟩)
          ⟨rfl, rfl⟩) ⟨rfl, rfl⟩ (List.cons_ne_nil _ _)
        ((lays_keyword (by simp)).append (lays_spaced_word x rfl))) written⟩
  | true =>
    have written : lineAt settings level ("yield" ++ ((" " ++ "return") ++ (" " ++ x.text)) ++ ";") =
        (Stmt.give x).reference settings true level := by
      rw [← String.toList_inj]
      simp [Stmt.reference, lineAt]
    exact ⟨_, _, _, _, rfl, .inr (return_is id start).1, Draft.Writes.cast
      (statementFrom_yield rfl (return_is _ _) (convertYield_give rfl x.category_lexeme
        ((converters_expression (by simp [expressionRank, statementRank])).trans
          (convertExpression_return [_, _] (return_is _ _) (.inr ⟨_, _, _, rfl, rfl, x.tokenAt_is _ _, rfl⟩) ⟨rfl, rfl⟩))
        ⟨rfl, rfl⟩ (List.cons_ne_nil _ _)
        ((lays_spaced_keyword (by simp)).append (lays_spaced_word x rfl)))) written⟩

/-- A statement of control flow: its first word is `words`, and `tail more` are the lexemes after
it. -/
theorem Stmt.converts_of_controlFlow (words : String) (tail : List Lexeme → List Lexeme)
    (converter : Converters → Scope → Token → List Token → Draft (List Token))
    (lexemes : ∀ more, stmt.lexemes newline ++ more = word words :: tail more)
    (reserved : (keywordRole? words).isSome = true)
    (controls : words ∈ ["if", "while", "foreach", "try"])
    (dispatched : ∀ inner scope t rest, t.text = words →
      convertControlFlow inner scope t rest = converter inner scope t rest)
    (written : ∀ level more, EndsBranches newline more → ∀ id₀ start₀ id start, ∃ id' start',
      (converter (standard.converters (statementRank (tail more).length)) ⟨.fnBody, level, yields⟩
        ((word words).tokenAt id₀ start₀) (place id start (tail more))).Writes settings
        (place id' start' (newline.lexeme :: more)) none (stmt.reference settings yields level)
        none) :
    stmt.Converts settings yields newline := by
  intro level more ends id start
  have category : (word words).category = .keyword := category_word reserved
  obtain ⟨id', start', written⟩ := written level more ends id start (id + 1)
    (start + byteLength (word words).source)
  refine ⟨_, _, id', start', by rw [lexemes, place], .inr category, ?_⟩
  have statement : standard.all.statementFrom ⟨.fnBody, level, yields⟩ {}
      ((word words).tokenAt id start) (place (id + 1) (start + byteLength (word words).source)
        (tail more)) = unmodified {} _ :=
    convertStatement_controlFlow ⟨category, text_word _⟩ controls
  rw [statement, length_place, dispatched _ _ _ _ (text_word _)]
  exact unmodified_writes written

theorem length_braced (body more : List Lexeme) :
    (braced newline body more).length = body.length + more.length + 4 := by
  simp only [braced, List.length_cons, List.length_append]
  omega

@[simp] theorem Name.length_header (name : Name) : name.header.length = 3 := rfl

/-- The statements are converted at any level, by the converters of any rank that suffices. -/
def WritesStmts (settings : LayoutSettings) (yields : Bool) (newline : Newline) (stmts : List Stmt) : Prop :=
  ∀ level rank, blockRank (stmtsLexemes newline stmts).length ≤ rank → ∀ id start,
    (convertBlock (standard.converters rank) ⟨.fnBody, level, yields⟩
      (place id start (newline.lexeme :: stmtsLexemes newline stmts))).Writes settings () none
      (stmtsReference settings yields level stmts) none

/-- The block of a statement that `n` tokens follow after its first one. -/
theorem WritesStmts.inside (written : WritesStmts settings yields newline stmts)
    (longer : (stmtsLexemes newline stmts).length < n) (level : Nat) :
    WritesBlock settings (standard.converters (statementRank n)) ⟨.fnBody, level, yields⟩ newline
      (stmtsLexemes newline stmts) (stmtsReference settings yields level stmts) := by
  intro id start
  have above : blockRank (stmtsLexemes newline stmts).length < statementRank n := by
    simp only [blockRank, statementRank]
    omega
  rw [place, Converters.block, converters_blockFrom (by rwa [length_place])]
  exact written level _ (by simp) id start

theorem Stmt.converts_loop (condition : Name) (body_written : WritesStmts settings yields newline body) :
    (Stmt.loop condition body).Converts settings yields newline := by
  refine Stmt.converts_of_controlFlow "while"
    (fun more => condition.header ++ braced newline (stmtsLexemes newline body) more) (convertGuarded · "while")
    (fun more => by simp [Stmt.lexemes, Name.header]) (by decide) (by simp)
    (fun _ _ _ _ is => by simp [convertControlFlow, is]) ?_
  intro level more _ id₀ start₀ id start
  exact convertGuarded_writes (convertsNames_inside (by grind [length_braced, Name.length_header]))
    (stmtsLexemes_nested body)
    (body_written.inside (by simp only [List.length_append, length_braced]; omega) (level + 1))
    (by simp) condition _ id start

theorem Stmt.converts_each (element collection : Name) (body_written : WritesStmts settings yields newline body) :
    (Stmt.each element collection body).Converts settings yields newline := by
  refine Stmt.converts_of_controlFlow "foreach" (fun more => (element.header ++ word "in" :: collection.header) ++
      braced newline (stmtsLexemes newline body) more) convertForeach
    (fun more => by simp [Stmt.lexemes, Name.header]) (by decide) (by simp)
    (fun _ _ _ _ is => by simp [convertControlFlow, is]) ?_
  intro level more _ id₀ start₀ id start
  exact convertForeach_writes (convertsNames_inside (by grind [length_braced, Name.length_header]))
    (stmtsLexemes_nested body)
    (body_written.inside (by simp only [List.length_append, length_braced]; omega) (level + 1))
    element collection _ id start

theorem Stmt.converts_attempt (body_written : WritesStmts settings yields newline body)
    (cleanup_written : WritesStmts settings yields newline cleanup) :
    (Stmt.attempt body cleanup).Converts settings yields newline := by
  refine Stmt.converts_of_controlFlow "try" (fun more => [spaceLexeme] ++ braced newline (stmtsLexemes newline body)
      (word "finally" :: ([spaceLexeme] ++ braced newline (stmtsLexemes newline cleanup) more))) convertTry
    (fun more => by simp [Stmt.lexemes]) (by decide) (by simp)
    (fun _ _ _ _ is => by simp [convertControlFlow, is]) ?_
  intro level more _ id₀ start₀ id start
  exact convertTry_writes (stmtsLexemes_nested body) (stmtsLexemes_nested cleanup)
    (body_written.inside (by simp only [List.length_append, length_braced]; omega) (level + 1))
    (cleanup_written.inside (by simp only [List.length_append, List.length_cons, length_braced]; omega) (level + 1))
    more id₀ start₀ id start

/-- The branches are converted, behind any body. -/
def Branches.Follow (settings : LayoutSettings) (yields : Bool) (newline : Newline) (branches : Branches) : Prop :=
  ∀ level more, EndsBranches newline more → ∀ n, (branches.lexemes newline).length ≤ n →
    WritesFollower settings (standard.converters (statementRank n)) ⟨.fnBody, level, yields⟩ newline
      (branches.lexemes newline ++ more) more (branches.reference settings yields level)

theorem Stmt.converts_branch (condition : Name) (body_written : WritesStmts settings yields newline body)
    (others_follow : others.Follow settings yields newline) :
    (Stmt.branch condition body others).Converts settings yields newline := by
  refine Stmt.converts_of_controlFlow "if" (fun more => condition.header ++
      braced newline (stmtsLexemes newline body) (others.lexemes newline ++ more)) convertIf
    (fun more => by simp [Stmt.lexemes, Name.header]) (by decide) (by simp)
    (fun _ _ _ _ is => by simp [convertControlFlow, is]) ?_
  intro level more ends id₀ start₀ id start
  exact convertIf_writes (convertsNames_inside (by grind [length_braced, Name.length_header]))
    (stmtsLexemes_nested body)
    (body_written.inside (by simp only [List.length_append, length_braced]; omega) (level + 1))
    (others_follow level more ends _ (by simp only [List.length_append, length_braced]; omega))
    (by simp) condition _ id start

theorem Branches.follow_last (body_written : WritesStmts settings yields newline body) :
    (Branches.last body).Follow settings yields newline := by
  intro level more _ n longer
  have lexemes : (Branches.last body).lexemes newline ++ more = word "else" ::
      ([spaceLexeme] ++ braced newline (stmtsLexemes newline body) more) := by
    simp [Branches.lexemes]
  rw [Branches.lexemes, List.length_cons, List.length_cons, length_braced] at longer
  rw [lexemes]
  exact writesFollower_last (stmtsLexemes_nested body) (body_written.inside (by omega) (level + 1))

theorem Branches.follow_link (isElif : Bool) (condition : Name)
    (body_written : WritesStmts settings yields newline body)
    (others_follow : others.Follow settings yields newline) :
    (Branches.link isElif condition body others).Follow settings yields newline := by
  intro level more ends n longer
  have front : ∃ front, front ≠ [] ∧ (∀ tail id start, ∃ next id' start',
      branchFollower (place id start (newline.lexeme :: (front ++ tail))) =
        pure (.elseIf next (place id' start' tail))) ∧
      (Branches.link isElif condition body others).lexemes newline = front ++ (condition.header ++
        braced newline (stmtsLexemes newline body) (others.lexemes newline)) := by
    cases isElif with
    | true => exact ⟨_, List.cons_ne_nil _ _, branchFollower_elif newline, rfl⟩
    | false => exact ⟨_, List.cons_ne_nil _ _, branchFollower_elseIf newline, rfl⟩
  obtain ⟨front, front_ne, found, lexemes⟩ := front
  rw [lexemes, List.length_append, List.length_append, length_braced, Name.length_header] at longer
  rw [lexemes, List.append_assoc, List.append_assoc, braced_append]
  exact writesFollower_link (convertsNames_inside (by omega)) (stmtsLexemes_nested body)
    (body_written.inside (by omega) (level + 1))
    (others_follow level more ends n (by omega)) front_ne found

/-! ### Lists of statements -/

theorem Stmt.one_lt_length_lexemes (newline : Newline) (stmt : Stmt) : 1 < (stmt.lexemes newline).length := by
  cases stmt <;> simp [Stmt.lexemes]

theorem walk_writes {σ α : Type} {round : σ → Token → List Token → Draft (Step σ α)}
    {finish : σ → Draft α} {state state' : σ} {value : α}
    (first : (round state t ts).Writes settings (.next state' rest) none text middle)
    (shorter : rest.length ≤ ts.length)
    (others : Draft.Writes settings (walk round finish state' rest) value middle text' none) :
    Draft.Writes settings (walk round finish state (t :: ts)) value none (text ++ text') none := by
  rw [walk_cons]
  have shorter : rest.length < (t :: ts).length := Nat.lt_succ_of_le shorter
  refine first.bind ?_
  simpa only [if_pos shorter] using others

/-- The line break in front of the statements of a block writes nothing. -/
theorem convertBlockRound_lineBreak (starts : ∀ t ∈ ts.head?, t.isBlank = false) :
    (convertBlockRound inner state (newline.lexeme.tokenAt id start) ts).Writes settings
      (.next state ts) none "" none := by
  have none_blank : ts.takeWhile isBlank = [] ∧ ts.dropWhile isBlank = ts := by
    cases ts with
    | nil => exact ⟨rfl, rfl⟩
    | cons t ts => simp [starts t rfl]
  simp only [convertBlockRound, category_tokenAt, newline.category_lexeme, blankLines, none_blank]
  exact Draft.Writes.cast (.bind (.emit .nil) (.pure _)) (by simp)

theorem convertBlockRound_meaning (meaning : t.category = .identifier ∨ t.category = .keyword) :
    convertBlockRound inner state t rest = (do
      let statement ← inner.statementFrom state.scope state.pending t rest
      return .next ⟨statement.value.scopeAfter state.scope, statement.value.pending⟩
        (skipSemicolons statement.rest)) := by
  rcases meaning with meaning | meaning <;> simp only [convertBlockRound, meaning]

theorem convertBlockRound_statement (meaning : t.category = .identifier ∨ t.category = .keyword)
    (written : (inner.statementFrom scope pending t rest).Writes settings ⟨{}, next :: after⟩ none text none)
    (other : next.isOp ";" = false) :
    (convertBlockRound inner ⟨scope, pending⟩ t rest).Writes settings
      (.next { scope } (next :: after)) none text none := by
  have kept : skipSemicolons (next :: after) = next :: after := by
    simp [skipSemicolons, other]
  rw [convertBlockRound_meaning meaning]
  refine Draft.Writes.cast (.bind written ?_) (String.append_empty ..)
  rw [kept]
  exact .pure _

theorem writesStmts_nil : WritesStmts settings yields newline [] := by
  intro level rank _ id start
  rw [convertBlock, stmtsLexemes, place]
  refine Draft.Writes.cast (walk_writes (convertBlockRound_lineBreak (by simp [place])) (Nat.le_refl _) ?_)
    (String.append_empty ..)
  rw [place, walk_nil]
  exact .pure ()

theorem writesStmts_cons (converts : stmt.Converts settings yields newline)
    (written : WritesStmts settings yields newline stmts) :
    WritesStmts settings yields newline (stmt :: stmts) := by
  intro level rank above id start
  obtain ⟨first, rest, id', start', placed, meaning, statement⟩ := converts level
    (stmtsLexemes newline stmts) (stmtsLexemes_endsBranches stmts) (id + 1)
    (start + byteLength newline.lexeme.source)
  have length_rest : rest.length + 1 = (stmt.lexemes newline).length + (stmtsLexemes newline stmts).length := by
    simpa using (congrArg List.length placed).symm
  have several := stmt.one_lt_length_lexemes newline
  rw [stmtsLexemes, List.length_append] at above
  rw [blockRank] at above
  have solid : first.isBlank = false := by
    rcases meaning with meaning | meaning <;> simp [isBlank, meaning]
  have statement : ((standard.converters rank).statementFrom ⟨.fnBody, level, yields⟩ {} first
      rest).Writes settings ⟨{}, place id' start' (newline.lexeme :: stmtsLexemes newline stmts)⟩ none
      (stmt.reference settings yields level) none := by
    rwa [converters_statementFrom (by rw [statementRank]; omega)]
  rw [convertBlock, stmtsLexemes, place, placed]
  refine Draft.Writes.cast (walk_writes (convertBlockRound_lineBreak (by simpa using solid))
    (Nat.le_refl _) (walk_writes (convertBlockRound_statement meaning statement rfl) ?_
      (written level rank ?_ id' start'))) (by simp [stmtsReference])
  · simp only [List.length_cons, length_place]
    omega
  · rw [blockRank]
    omega

/-! ### The trees -/

mutual

theorem Stmt.converts : (stmt : Stmt) → stmt.Converts settings yields newline
  | .call f => Stmt.converts_call f
  | .leave => Stmt.converts_leave
  | .give x => Stmt.converts_give x
  | .branch condition body others =>
    Stmt.converts_branch condition (writesStmts body) others.follow
  | .loop condition body => Stmt.converts_loop condition (writesStmts body)
  | .each element collection body => Stmt.converts_each element collection (writesStmts body)
  | .attempt body cleanup => Stmt.converts_attempt (writesStmts body) (writesStmts cleanup)

theorem Branches.follow : (branches : Branches) → branches.Follow settings yields newline
  | .nothing => fun _ _ ends _ _ => writesFollower_nothing ends
  | .last body => Branches.follow_last (writesStmts body)
  | .link isElif condition body others =>
    Branches.follow_link isElif condition (writesStmts body) others.follow

theorem writesStmts : (stmts : List Stmt) → WritesStmts settings yields newline stmts
  | [] => writesStmts_nil
  | stmt :: stmts => writesStmts_cons stmt.converts (writesStmts stmts)

end

end Trees

/-! ## Functions -/

section Functions

variable {settings : LayoutSettings}

open Layers

theorem readFnHeader_name (named : significant header = [f]) (isName : f.category = .identifier) :
    readFnHeader scope t header = .done ⟨f.text, [], [], .normal "void", []⟩ [⟨f, .name .fn⟩] := by
  simp [readFnHeader, named, isNameLike, isName, note, Logged.tell, Logged.after, Log.append, Log.none,
    readGenericsHeader, splitAtMark, splitTop, splitTopAt, readWholeSignature, readMemberAccess]

/-- A function without parameters at the top level: its header, and its body in braces. -/
theorem convertFn_name (held : pending.forFn .topLevel = .ok ⟨none, false, yields, false⟩)
    (named : significant header = [f])
    (isName : f.category = .identifier) (opens : opening.isOp "\x7b" = true) (t : Token) (rest : List Token) :
    convertFn inner .root pending t (header ++ opening :: rest) = (do
      (Logged.done () [⟨f, .name .fn⟩] : Reading Unit)
      emit [.raw ("void " ++ f.text ++ "()")]
      convertBraced inner 0 ⟨.fnBody, 1, yields⟩ opening rest) := by
  have plain : ∀ t ∈ header, t.isOpener = false ∧ t.isCloser = false ∧ t.isOpIn ["\x7b", ";"] = false := by
    intro t member
    have other : t.category ≠ .operator := by
      intro operator
      have kept : t ∈ significant header := List.mem_filter.2 ⟨member, by simp [isTrivia, operator]⟩
      rw [named, List.mem_singleton] at kept
      rw [kept, isName] at operator
      cases operator
    simp [isOpener, isCloser, isOp, isOpIn, other]
  have text : FnHeader.text ⟨f.text, [], [], .normal "void", []⟩ ⟨none, false, yields, false⟩ =
      "void " ++ f.text ++ "()" := by
    have nothing : TypeExpr.render .returned (.normal "void") = "void" := by decide
    rw [← String.toList_inj]
    simp [FnHeader.text, accessText, FnModifiers.text, nothing, genericsText, commaSeparated]
  have container : Scope.root.container = .topLevel := rfl
  obtain ⟨category, brace⟩ := isOp_iff.1 opens
  have goes_on : opening.isOp ";" = false := by simp [isOp, brace]
  rw [convertFn, splitTop_header plain (by simp [isOpIn, category, brace])]
  simp only [container, held, Logged.ofExcept, pure_bind, readFnHeader_name named isName, goes_on,
    Bool.false_eq_true, if_false]
  rw [← text]
  rfl

theorem convertBraced_endsLine : (convertBraced inner outer scope opening ts).EndsLine "\x7d" := by
  rw [convertBraced]
  split
  · rintro _ _ ⟨⟩
  · exact .bind fun _ => .bind fun _ => .bind_pure (.emit _)

theorem convertFn_writes {body : List Lexeme} (nested : Nested body)
    (written : WritesBlock settings inner ⟨.fnBody, 1, yields⟩ newline body text)
    (held : pending.forFn .topLevel = .ok ⟨none, false, yields, false⟩) (t : Token) (name : Name)
    (id start : Nat) :
    ∃ id' start', (convertFn inner .root pending t
        (place id start (name.header ++ braced newline body []))).Writes settings
        (place id' start' [newline.lexeme]) none
        (blockReference settings 0 ("void " ++ name.text ++ "()") text) none ∧
      (convertFn inner .root pending t
        (place id start (name.header ++ braced newline body []))).EndsLine "\x7d" := by
  obtain ⟨id₁, start₁, id₂, start₂, id₃, start₃, id₄, start₄, placed⟩ :=
    exists_place_header newline name.header body [] id start
  refine ⟨id₄, start₄, ?_⟩
  have named : significant (place id start name.header) =
      [name.lexeme.tokenAt (id + 1) (start + byteLength spaceLexeme.source)] := by
    simp [significant, Name.header, place, isTrivia]
  rw [placed, convertFn_name held named (by simp) rfl]
  refine ⟨Draft.Writes.cast (.bind (.ofReading rfl) (.bind (.emit (lays_raw (by simp)))
    (convertBraced_writes nested written rfl))) ?_, .bind fun _ => .bind fun _ =>
      convertBraced_endsLine⟩
  rw [← String.toList_inj]
  simp [blockReference, lineAt]

theorem convertStatement_fn (t_is : t.Is .keyword "fn") :
    convertStatement inner scope pending t rest = plainStatement (convertFn inner scope pending t rest) := by
  obtain ⟨category, text⟩ := t_is
  simp [convertStatement, convertKeywordStatement, isOp, category, text]

/-- The rest of a block. -/
def convertStatements (inner : Converters) (state : BlockState) (ts : List Token) : Draft Unit :=
  walk (convertBlockRound inner) (fun state => Logged.ofExcept state.pending.ensureEmpty) state ts

theorem convertStatements_lineBreak (inner : Converters) (scope : Scope) (id start : Nat) :
    convertStatements inner { scope } (place id start [newline.lexeme]) = pure () := by
  simp [convertStatements, place, walk_cons, convertBlockRound, blankLines, emit, Logged.tell,
    Logged.after, Log.append, Log.none, Modifiers.ensureEmpty, Logged.ofExcept]

theorem convertStatements_fn (t_is : t.Is .keyword "fn") (above : statementRank rest.length < rank) :
    convertStatements (standard.converters rank) ⟨.root, pending⟩ (t :: rest) = (do
      let after ← convertFn (standard.converters (statementRank rest.length)) .root pending t rest
      if (skipSemicolons after).length < (t :: rest).length then
        convertStatements (standard.converters rank) { scope := .root } (skipSemicolons after)
      else .fail (.outside t)) := by
  have statement : (standard.converters rank).statementFrom .root pending t rest = plainStatement
      (convertFn (standard.converters (statementRank rest.length)) .root pending t rest) := by
    rw [converters_statementFrom above]
    exact convertStatement_fn t_is
  rw [convertStatements, walk_cons, convertBlockRound_meaning (.inr t_is.1)]
  simp only [statement, plainStatement, bind_assoc, pure_bind]
  rfl

/-- The draft writes the text, the last of it on a line of its own. -/
def WritesProgram (settings : LayoutSettings) (draft : Draft Unit) (text : String) : Prop :=
  ∃ front last notes, draft = .done () ⟨front ++ [Piece.line last], notes⟩ ∧
    Lays settings none (front ++ [Piece.line last]) text none

theorem WritesProgram.bind {α : Type} {draft : Draft α} {next : α → Draft Unit} {a : α} {text : String}
    {notes : List Note} (silent : draft = .done a ⟨[], notes⟩)
    (written : WritesProgram settings (next a) text) :
    WritesProgram settings (draft >>= next) text := by
  obtain ⟨front, last, notes', done, laid⟩ := written
  exact ⟨front, last, notes ++ notes', by rw [silent, Logged.done_bind, done]; rfl, laid⟩

theorem convertStatements_fnLexemes (held : pending.forFn .topLevel = .ok ⟨none, false, yields, false⟩)
    (name : Name)
    (body : List Stmt)
    (above : statementRank (fnLexemes newline name body).tail.length < rank) (id start : Nat) :
    WritesProgram settings (convertStatements (standard.converters rank) ⟨.root, pending⟩
      (place id start (fnLexemes newline name body))) (fnReference settings yields name body) := by
  let tail := name.header ++ braced newline (stmtsLexemes newline body) []
  have lexemes : fnLexemes newline name body = word "fn" :: tail := rfl
  have longer : (stmtsLexemes newline body).length < tail.length := by
    simp only [tail, List.length_append, length_braced]
    omega
  have fn_is : ((word "fn").tokenAt id start).Is .keyword "fn" :=
    ⟨category_word (by decide), text_word _⟩
  obtain ⟨id', start', written, ends⟩ := convertFn_writes (stmtsLexemes_nested body)
    ((writesStmts body).inside longer 1) held ((word "fn").tokenAt id start) name (id + 1)
    (start + byteLength (word "fn").source)
  obtain ⟨output, converted, laid⟩ := written
  obtain ⟨front, pieces⟩ := ends _ _ converted
  have shorter : (skipSemicolons (place id' start' [newline.lexeme])).length < ((word "fn").tokenAt id start ::
        place (id + 1) (start + byteLength (word "fn").source) tail).length := by
    have one : (skipSemicolons (place id' start' [newline.lexeme])).length = 1 := rfl
    rw [one, List.length_cons, length_place]
    omega
  have last : skipSemicolons (place id' start' [newline.lexeme]) = place id' start' [newline.lexeme] :=
    rfl
  refine ⟨front, "\x7d", output.notes, ?_, pieces ▸ laid⟩
  rw [lexemes, place, convertStatements_fn fn_is (by rwa [length_place]), length_place, converted,
    Logged.done_bind, if_pos shorter, last, convertStatements_lineBreak]
  rw [← pieces]
  exact congrArg (Logged.done ()) (Log.append_none output)

/-- The modifier `yield` waits for the function after it. -/
theorem convertStatements_yield (t_is : t.Is .keyword "yield") (space_is : space.category = .space)
    (starts : isAllTrivia (space :: rest) = false)
    (above : statementRank (space :: rest).length < rank) :
    convertStatements (standard.converters rank) { scope := .root } (t :: space :: rest) = (do
      (note t (.modifier .other) : Reading Unit)
      convertStatements (standard.converters rank) ⟨.root, { yields := some t, latest := some t }⟩ rest) := by
  obtain ⟨category, text⟩ := t_is
  have role : t.vocabularyRole? = some (.modifier .other) := by
    simp only [vocabularyRole?, category, text]
    decide
  have statement : (standard.converters rank).statementFrom .root {} t (space :: rest) =
      holdModifier {} t (space :: rest) := by
    rw [converters_statementFrom above]
    simp [all, standard, convertStatement, convertKeywordStatement, convertOther, isOp, category,
      text, controlFlowWords, modifierRole?, role, starts]
  have applied : (Logged.ofExcept (Modifiers.apply {} t) : Draft Modifiers) =
      pure { yields := some t, latest := some t } := by
    simp only [Modifiers.apply, Modifiers.add, text]
    rfl
  have kept : skipSemicolons (space :: rest) = space :: rest := by
    simp [skipSemicolons, isOp, space_is]
  have spaced (state : BlockState) : walk (convertBlockRound (standard.converters rank))
        (fun state => Logged.ofExcept state.pending.ensureEmpty) state (space :: rest) =
      convertStatements (standard.converters rank) state rest := by
    rw [walk_cons]
    simp only [convertBlockRound, space_is, pure_bind]
    exact if_pos (by simp)
  rw [convertStatements, walk_cons, convertBlockRound_meaning (.inr category)]
  simp only [statement, holdModifier, modifierRole?, role, applied, bind_assoc, pure_bind, kept,
    spaced, List.length_cons, Nat.lt_succ_self, if_true]
  rfl

theorem convertStatements_fnSourceLexemes (name : Name) (body : List Stmt)
    (above : statementRank (fnSourceLexemes newline yields name body).tail.length < rank)
    (id start : Nat) :
    WritesProgram settings (convertStatements (standard.converters rank) { scope := .root }
      (place id start (fnSourceLexemes newline yields name body)))
      (fnReference settings yields name body) := by
  cases yields with
  | false => exact convertStatements_fnLexemes rfl name body above id start
  | true =>
    have lexemes : fnSourceLexemes newline true name body =
        word "yield" :: spaceLexeme :: fnLexemes newline name body := rfl
    rw [lexemes, List.tail_cons, List.length_cons, statementRank] at above
    have starts (id start id' start' : Nat) : isAllTrivia (spaceLexeme.tokenAt id start ::
        place id' start' (fnLexemes newline name body)) = false := by
      simp [isAllTrivia, significant, fnLexemes, place, isTrivia]
    rw [lexemes, place, place, convertStatements_yield ⟨category_word (by decide), text_word _⟩ rfl (starts _ _ _ _)
      (by rwa [statementRank, List.length_cons, length_place])]
    refine .bind rfl (convertStatements_fnLexemes rfl name body ?_ _ _)
    rw [statementRank, List.length_tail]
    omega

theorem all_block_place {lexemes : List Lexeme} (nonempty : lexemes ≠ []) :
    standard.all.block scope (place id start lexemes) =
      convertStatements (standard.converters (blockRank lexemes.tail.length)) { scope }
        (place id start lexemes) := by
  cases lexemes with
  | nil => exact absurd rfl nonempty
  | cons lexeme lexemes =>
    rw [List.tail_cons, ← length_place (id + 1) (start + byteLength lexeme.source) lexemes]
    rfl

end Functions

open Layers in
/-- A function whose body is made of structured statements is converted to its reference layout. -/
theorem convert_fnSource (settings : LayoutSettings) (newline : Newline) (yields : Bool) (name : Name)
    (body : List Stmt) :
    convert settings (fnSource newline yields name body) = .ok (fnReference settings yields name body) := by
  have written : WritesProgram settings
      (standard.all.block .root (place 0 0 (fnSourceLexemes newline yields name body)))
      (fnReference settings yields name body) := by
    rw [all_block_place (by cases yields <;> exact List.cons_ne_nil _ _)]
    exact convertStatements_fnSourceLexemes name body (Nat.lt_succ_self _) 0 0
  obtain ⟨front, last, notes, done, laid⟩ := written
  have text := render_layout_line laid
  simp only [convert, Program.ofSource, Layers.program, tokenize_fnSource, bind, Except.bind, done,
    Program.text, text, pure, Except.pure]

end Sharp
