import Sharp.Proofs.Brackets
import Sharp.Proofs.Enclosing
import Sharp.Proofs.ExpressionRounds

/-!
# Assignments

A statement `name = ..;` is converted by the rounds of what is assigned.  It may be the whole source or
the body of a function.

* `convert_of_assigned`, `gives_of_convert`: an assignment in a function, from its rounds and back.
-/

namespace Sharp

open Token

variable {pieces : List Piece} {tokens : List Token} {source : String} {settings : LayoutSettings}

/-- The tokens are `name = ts;`, with blanks and comments after the name. -/
def Assigns (name : String) (ts tokens : List Token) : Prop :=
  ∃ (x : Token) (gap : List Token) (equals semicolon : Token),
    tokens = x :: (gap ++ equals :: (ts ++ [semicolon])) ∧
    x.category = .identifier ∧ x.text = name ∧ (∀ t ∈ gap, t.isTrivia = true) ∧
    equals.isOp "=" = true ∧ semicolon.isOp ";" = true

/-- The frame in front of what is assigned to a name. -/
def Frame.assigned (name : String) (ts : List Token) : Frame :=
  { pieces := [.word name, .code "=" .binary], isConst := false, segment := 2, params := ts, paramsMark := 2 }

section Assignment

variable {inner : Converters} {place : Place} {x equals : Token} {gap ts : List Token}

section

variable (isName : x.category = .identifier) (blank : ∀ t ∈ gap, t.isTrivia = true) (isEquals : equals.isOp "=" = true)
  (whole ts : List Token)
include isName blank isEquals

theorem walk_assigned {finish : Frame → Reading (Parsed Expression)} :
    walk (convertToken inner place) finish (Frame.start whole) (x :: (gap ++ equals :: ts)) =
      note equals (.operator .assignment) >>= fun _ =>
        walk (convertToken inner place) finish (Frame.assigned x.text ts) ts := by
  have name : convertToken inner place (Frame.start whole) x (gap ++ equals :: ts) =
      return .next ((Frame.start whole).word x.text).vary (gap ++ equals :: ts) := by
    simp only [convertToken, isName]
  have assigns : convertToken inner place ((Frame.start whole).word x.text).vary equals ts =
      note equals (.operator .assignment) >>= fun _ => return .next (Frame.assigned x.text ts) ts := by
    rw [isOp_iff] at isEquals
    have isAssignment : equals.isAssignment = true := by
      simp only [Token.isAssignment, isOpIn, isEquals]
      decide
    simp only [convertToken, isEquals.1, convertOperator, isEquals.2, convertPlainOperator, isAssignment, if_true]
    rfl
  rw [walk_cons_of_next name (Nat.le_refl _), walk_trivia_append blank, walk_cons, assigns, bind_assoc]
  refine bind_congr fun _ => ?_
  rw [pure_bind]
  exact if_pos (Nat.lt_succ_self _)

theorem Frame.leadsTo_assigned : LeadsTo inner place (Frame.start whole) (x :: (gap ++ equals :: ts))
      (Frame.assigned x.text ts) ts := by
  intro finish e
  rw [walk_assigned isName blank isEquals]
  constructor
  · intro gives
    obtain ⟨_, -, rest⟩ := gives.of_bind
    exact rest
  · exact fun gives => .note_bind gives

end

end Assignment

/-! ## Statements -/

/-- Blanks that hold no blank line. -/
def IsGap (gap : List Token) : Prop := (∀ t ∈ gap, t.isBlank = true) ∧ gap.countP isLineBreak ≤ 1

instance (gap : List Token) : Decidable (IsGap gap) := inferInstanceAs (Decidable (_ ∧ _))

section Statement

open Layers

variable {inner : Converters} {t semicolon : Token} {gap ts rest after : List Token} {e : Expression}
  {scope : Scope} {rank : Nat}

theorem isGap_nil : IsGap [] := ⟨List.forall_mem_nil _, Nat.zero_le _⟩

/-- Nothing is written for a gap. -/
theorem convertStatements_gap (isGap : IsGap gap) (meaning : ∀ t ∈ ts.head?, t.isBlank = false)
    (state : BlockState) :
    convertStatements inner state (gap ++ ts) = convertStatements inner state ts := by
  obtain ⟨blank, few⟩ := isGap
  induction gap with
  | nil => rfl
  | cons t gap ih =>
    obtain ⟨first, others⟩ := List.forall_mem_cons.1 blank
    rw [List.countP_cons] at few
    rw [List.cons_append, convertStatements, walk_cons]
    simp only [isBlank, Bool.or_eq_true, beq_iff_eq] at first
    rcases first with lineBreak | space
    · have single : gap.countP isLineBreak = 0 := by
        simp only [isLineBreak, lineBreak, beq_self_eq_true, if_true] at few
        omega
      have taken : (gap ++ ts).takeWhile isBlank = gap := by
        rw [List.takeWhile_append_of_pos others]
        cases ts with
        | nil => simp
        | cons next ts => simp [meaning next rfl]
      have dropped : (gap ++ ts).dropWhile isBlank = ts := by
        rw [List.dropWhile_append_of_pos others]
        cases ts with
        | nil => rfl
        | cons next ts => simp [meaning next rfl]
      have shorter : ts.length < (t :: (gap ++ ts)).length := by
        simp only [List.length_append, List.length_cons]
        omega
      have silent : emit (blankLines (gap ++ ts)) = pure () := by
        rw [blankLines, taken, single]
        rfl
      simp only [convertBlockRound, lineBreak, silent, dropped, pure_bind, if_pos shorter]
      rfl
    · have others_few : gap.countP isLineBreak ≤ 1 := Nat.le_trans (Nat.le_add_right _ _) few
      simp only [convertBlockRound, space, pure_bind, List.length_cons, Nat.lt_succ_self, if_true]
      exact ih others others_few

section

variable (isName : t.category = .identifier) (above : statementRank rest.length < rank)
include isName above

theorem convertBlockRound_name :
    convertBlockRound (standard.converters rank) { scope } t rest = (do
      let after ← convertExpressionStatement (standard.converters (statementRank rest.length)) scope t rest
      return .next { scope } (skipSemicolons after)) := by
  have statement : (standard.converters rank).statementFrom scope {} t rest =
      unmodified {} (convertExpressionStatement (standard.converters (statementRank rest.length)) scope t
        rest) := by
    rw [converters_statementFrom above]
    exact convertStatement_name isName
  have held : (Logged.ofExcept ({} : Modifiers).ensureEmpty : Draft Unit) = pure () := rfl
  rw [convertBlockRound_meaning (.inl isName), statement]
  simp only [unmodified, plainStatement, held, bind_assoc, pure_bind]
  rfl

theorem statements_of_expression
    (converted : (standard.all.expression { mode := .statement, scope } (t :: rest)).Gives ⟨e, semicolon :: after⟩)
    (ends : semicolon.isOp ";" = true) (nonempty : e.pieces ≠ []) (last : IsGap after)
    (shorter : after.length ≤ rest.length) :
    (convertStatements (standard.converters rank) { scope } (t :: rest)).Produces ()
      (Piece.indents scope.level ++ (e.pieces ++ [Piece.raw ";", .lineBreak])) := by
  have lower : expressionRank rest.length < statementRank rest.length := Nat.lt_succ_self _
  have inside : ((standard.converters (statementRank rest.length)).expression
      { mode := .statement, scope } (t :: rest)).Gives ⟨e, semicolon :: after⟩ := by
    rw [Converters.expression, converters_expressionFrom lower]
    exact converted
  have kept : skipSemicolons after = after := by
    cases after with
    | nil => rfl
    | cons next after =>
      have blank := last.1 next List.mem_cons_self
      simp only [isBlank, Bool.or_eq_true, beq_iff_eq] at blank
      rcases blank with blank | blank <;> simp [skipSemicolons, isOp, blank]
  have finished : convertStatements (standard.converters rank) { scope } after = pure () := by
    have gap := @convertStatements_gap (standard.converters rank) after [] last (by simp) { scope }
    rw [List.append_nil] at gap
    rw [gap, convertStatements, walk_nil]
    rfl
  have line := @convertRightSide_of_gives _ _ t _ _ _ _ inside ends nonempty
  rw [convertStatements, walk_cons, convertBlockRound_name isName above, convertExpressionStatement]
  simp only [bind_assoc, pure_bind]
  rw [← List.append_nil (e.pieces ++ _)]
  refine .bind (.emit _) (.bind line ?_)
  have fewer : after.length < (t :: rest).length := Nat.lt_succ_of_le shorter
  rw [kept, if_pos fewer]
  show Draft.Produces (convertStatements _ _ _) _ _
  rw [finished]
  exact .pure ()

end

/-- What is written on a right side is what the expression gives. -/
theorem convertRightSide_emits_given {before : Token} :
    (convertRightSide inner scope before ts).Emits fun _ pieces => ∃ e,
      (inner.expression { mode := .statement, scope } ts).Gives e ∧
        pieces = e.value.pieces ++ [Piece.raw ";", .lineBreak] := by
  unfold convertRightSide
  refine .reading_bind (Q := (inner.expression { mode := .statement, scope } ts).Gives)
    (fun e notes done => ⟨notes, done⟩) fun e gives => ?_
  split
  · exact .fail _
  · refine .ite (fun _ => .fail _) fun _ => .ite (fun _ => .fail _) fun _ => ?_
    exact .emit_bind (.pure ⟨e, gives, by simp⟩)

/-- What starts with a name and is converted as statements starts with an expression. -/
theorem gives_of_statements (isName : t.category = .identifier) (above : statementRank rest.length < rank)
    (converted : (convertStatements (standard.converters rank) { scope } (t :: rest)).Produces () pieces) :
    ∃ e more, (standard.all.expression { mode := .statement, scope } (t :: rest)).Gives e ∧
      pieces = Piece.indents scope.level ++ (e.value.pieces ++ more) := by
  have lower : expressionRank rest.length < statementRank rest.length := Nat.lt_succ_self _
  have emits : (convertStatements (standard.converters rank) { scope } (t :: rest)).Emits fun _ pieces =>
      ∃ e more, (standard.all.expression { mode := .statement, scope } (t :: rest)).Gives e ∧
        pieces = Piece.indents scope.level ++ (e.value.pieces ++ more) := by
    rw [convertStatements, walk_cons, convertBlockRound_name isName above, convertExpressionStatement]
    simp only [bind_assoc, pure_bind]
    refine .emit_bind (.bind convertRightSide_emits_given fun value front written => ?_)
    obtain ⟨e, gives, rfl⟩ := written
    rw [Converters.expression, converters_expressionFrom lower] at gives
    exact fun _ output _ => ⟨e, _, gives, by rw [List.append_assoc e.value.pieces]⟩
  obtain ⟨notes, done⟩ := converted
  exact emits _ _ done

/-- Statements that assign to a name are converted to the pieces that the walk comes to in front of
the `;`. -/
theorem statements_of_assigned {name : String} {n : Nat} {tokens : List Token} {pieces : List Piece}
    (assigned : Assigns name ts tokens) (last : IsGap after) (nonempty : pieces ≠ [])
    (fits : (tokens ++ after).length ≤ n + 1)
    (leads : ∀ n semicolon, ts.length < n → ∃ frame,
      (Frame.assigned name (ts ++ semicolon :: after)).LeadsTo (standard.converters (expressionRank n))
        { mode := .statement, scope } (ts ++ semicolon :: after) frame (semicolon :: after) ∧
      (frame.finish { mode := .statement, scope }).pieces = pieces) :
    (convertStatements (standard.converters (blockRank n)) { scope } (tokens ++ after)).Produces ()
      (Piece.indents scope.level ++ (pieces ++ [Piece.raw ";", .lineBreak])) := by
  obtain ⟨x, gap, equals, semicolon, rfl, isName, rfl, blank, isEquals, ends⟩ := assigned
  simp only [List.cons_append, List.append_assoc, List.nil_append] at fits ⊢
  generalize whole : gap ++ equals :: (ts ++ semicolon :: after) = rest at fits ⊢
  have longer : ts.length + after.length < rest.length := by
    rw [← whole]
    simp only [List.length_append, List.length_cons]
    omega
  obtain ⟨frame, reached, written⟩ := leads rest.length semicolon (by omega)
  have walked := (Frame.leadsTo_assigned isName blank isEquals (x :: rest) (ts ++ semicolon :: after)).trans reached
  rw [whole] at walked
  have stop : (convertToken (standard.converters (expressionRank rest.length))
      { mode := .statement, scope } frame semicolon after).Gives
        (frame.stopAt { mode := .statement, scope } (semicolon :: after)) := by
    rw [convertToken_semicolon ends rfl]
    exact .pure _
  rw [← written] at nonempty ⊢
  refine statements_of_expression isName ?_ (walked.stop stop) ends nonempty last (by omega)
  simp only [List.length_cons, statementRank, blockRank] at fits ⊢
  omega

theorem block_of_assigned {name : String} (assigned : Assigns name ts tokens) (nonempty : pieces ≠ [])
    (leads : ∀ n semicolon, ts.length < n → ∃ frame,
      (Frame.assigned name (ts ++ [semicolon])).LeadsTo (standard.converters (expressionRank n))
        { mode := .statement, scope } (ts ++ [semicolon]) frame [semicolon] ∧
      (frame.finish { mode := .statement, scope }).pieces = pieces) :
    (standard.all.block scope tokens).Produces ()
      (Piece.indents scope.level ++ (pieces ++ [Piece.raw ";", .lineBreak])) := by
  obtain ⟨first, rest, rfl⟩ : ∃ first rest, tokens = first :: rest := by
    obtain ⟨x, gap, equals, semicolon, rfl, -⟩ := assigned
    exact ⟨_, _, rfl⟩
  have converted := statements_of_assigned assigned isGap_nil nonempty
    (show (first :: rest ++ []).length ≤ rest.length + 1 by simp) leads
  rw [List.append_nil] at converted
  exact converted

/-- A source is converted to the pieces of its block. -/
theorem ofSource_of_block (read : tokenize source = .ok tokens)
    (block : (standard.all.block .root tokens).Produces () pieces) :
    ∃ program, Program.ofSource source = .ok program ∧ program.pieces = pieces := by
  obtain ⟨notes, block⟩ := block
  refine ⟨⟨annotate notes tokens, pieces⟩, ?_, rfl⟩
  simp only [Program.ofSource, Layers.program, read, bind, Except.bind, block]

theorem convert_eq_ok_iff {text : String} (read : tokenize source = .ok tokens) :
    convert settings source = .ok text ↔ ∃ pieces,
      (standard.all.block .root tokens).Produces () pieces ∧ render settings (layout pieces) = text := by
  simp only [convert, Program.ofSource, Layers.program, read, bind, Except.bind]
  cases block : standard.all.block .root tokens with
  | fail fault => simp [Draft.Produces]
  | done _ output =>
    simp only [Draft.Produces, Logged.done.injEq, true_and, pure, Except.pure, Except.ok.injEq, Program.text]
    constructor
    · rintro rfl
      exact ⟨_, ⟨output.notes, rfl⟩, rfl⟩
    · rintro ⟨_, ⟨notes, rfl⟩, rfl⟩
      rfl

end Statement

/-! ## Functions -/

/-- The tokens are `fn name { body }`. -/
def InFunction (name : String) (body tokens : List Token) : Prop :=
  ∃ (fn : Token) (gap : List Token) (f : Token) (gap' : List Token) (opening : Token)
    (front back : List Token) (closing : Token),
    tokens = fn :: (gap ++ f :: gap' ++ opening :: (front ++ body ++ back ++ [closing])) ∧
    fn.Is .keyword "fn" ∧ (∀ t ∈ gap, t.isTrivia = true) ∧ f.category = .identifier ∧ f.text = name ∧
    (∀ t ∈ gap', t.isTrivia = true) ∧ opening.isOp "\x7b" = true ∧ IsGap front ∧ IsGap back ∧
    closing.isOp "\x7d" = true

def functionPieces (name : String) (body : List Piece) : List Piece :=
  .raw ("void " ++ name ++ "()") :: .line " \x7b" :: (body ++ [Piece.line "\x7d"])

section Function

open Layers

variable {inner : Converters} {name : String} {fn f opening closing : Token}
  {gap gap' content body tokens : List Token}

theorem significant_name (blank : ∀ t ∈ gap, t.isTrivia = true) (isName : f.category = .identifier)
    (blank' : ∀ t ∈ gap', t.isTrivia = true) : significant (gap ++ f :: gap') = [f] := by
  have nothing {ts : List Token} (blank : ∀ t ∈ ts, t.isTrivia = true) : significant ts = [] := by
    simpa [significant] using blank
  have meaning : f.isTrivia = false := by simp [isTrivia, isName]
  have front := nothing blank
  have back := nothing blank'
  simp only [significant] at front back ⊢
  simp [front, back, meaning]

theorem convertFn_blanks (blank : ∀ t ∈ gap, t.isTrivia = true) (isName : f.category = .identifier)
    (blank' : ∀ t ∈ gap', t.isTrivia = true) (opens : opening.isOp "\x7b" = true)
    (bracketed : WellBracketed content) (closes : closing.isOp "\x7d" = true) (t : Token) :
    convertFn inner .root {} t (gap ++ f :: gap' ++ opening :: (content ++ [closing])) = (do
      (Logged.done () [⟨f, .name .fn⟩] : Reading Unit)
      emit [.raw ("void " ++ f.text ++ "()")]
      emit [.line " \x7b"]
      inner.block ⟨.fnBody, 1, false⟩ content
      emit [.line "\x7d"]
      return []) := by
  have held : ({} : Modifiers).forFn .topLevel = .ok ⟨none, false, false, false⟩ := rfl
  have split : splitClose .brace (content ++ [closing]) = some ⟨content, closing, []⟩ :=
    bracketed.splitClose_append closes []
  rw [convertFn_name held (significant_name blank isName blank') isName opens, convertBraced, split]
  rfl

/-- A function is converted exactly if its body is. -/
theorem block_of_function {t : Token} (within : InFunction name (t :: body) tokens)
    (meaning : t.isBlank = false) (bracketed : WellBracketed (t :: body)) :
    ∃ back n, IsGap back ∧ (t :: body ++ back).length ≤ n + 1 ∧ ∀ pieces,
      (standard.all.block .root tokens).Produces () pieces ↔
        ∃ inside, (convertStatements (standard.converters (blockRank n)) { scope := ⟨.fnBody, 1, false⟩ }
          (t :: body ++ back)).Produces () inside ∧ pieces = functionPieces name inside := by
  obtain ⟨fn, gap, f, gap', opening, front, back, closing, rfl, isFn, blank, isName, rfl, blank', opens,
    isFront, isBack, closes⟩ := within
  have gap_bracketed {ts : List Token} (isGap : IsGap ts) : WellBracketed ts := by
    refine .of_plain fun t member => plain_of_category fun operator => ?_
    simpa [isBlank, operator] using isGap.1 t member
  rw [List.append_assoc front]
  have content_bracketed : WellBracketed (front ++ (t :: body ++ back)) :=
    (gap_bracketed isFront).append (bracketed.append (gap_bracketed isBack))
  obtain ⟨first, others, parts⟩ : ∃ first others, front ++ (t :: body ++ back) = first :: others :=
    List.exists_cons_of_ne_nil (by simp)
  have count := congrArg List.length parts
  simp only [List.length_append, List.length_cons] at count
  refine ⟨back, others.length, isBack, by simp only [List.length_append, List.length_cons]; omega, fun pieces => ?_⟩
  generalize tail : gap ++ f :: gap' ++ opening :: (front ++ (t :: body ++ back) ++ [closing]) = rest
  have longer : others.length < rest.length := by
    rw [← tail]
    simp only [List.length_append, List.length_cons]
    omega
  have inside : (standard.converters (statementRank rest.length)).block ⟨.fnBody, 1, false⟩
      (front ++ (t :: body ++ back)) =
        convertStatements (standard.converters (blockRank others.length)) { scope := ⟨.fnBody, 1, false⟩ }
          (t :: body ++ back) := by
    have below : blockRank others.length < statementRank rest.length := by
      simp only [blockRank, statementRank]
      omega
    rw [parts, Converters.block, converters_blockFrom below]
    show convertStatements (standard.converters (blockRank others.length)) _ (first :: others) = _
    rw [← parts]
    exact convertStatements_gap isFront (by simpa using meaning) _
  have whole := @convertFn_blanks (standard.converters (statementRank rest.length)) f opening closing gap gap'
    _ blank isName blank' opens content_bracketed closes fn
  rw [tail, inside] at whole
  have above : statementRank rest.length < blockRank rest.length := Nat.lt_succ_self _
  rw [block_eq_statements, convertStatements_fn isFn above, whole]
  generalize convertStatements (standard.converters (blockRank others.length))
    { scope := ⟨.fnBody, 1, false⟩ } (t :: body ++ back) = converted
  have finished : (if (skipSemicolons []).length < (fn :: rest).length then convertStatements
      (standard.converters (blockRank rest.length)) { scope := .root } (skipSemicolons [])
        else Logged.fail (.outside fn)) = pure () := by
    rw [if_pos (by simp [skipSemicolons]), skipSemicolons, List.dropWhile_nil, convertStatements, walk_nil]
    rfl
  simp only [bind_assoc, pure_bind, finished]
  constructor
  · rintro ⟨notes, done⟩
    have emits : Draft.Emits (do
        (Logged.done () [⟨f, .name .fn⟩] : Reading Unit)
        emit [.raw ("void " ++ f.text ++ "()")]
        emit [.line " \x7b"]
        converted
        emit [.line "\x7d"]
        pure ()) fun _ pieces =>
          ∃ inside, converted.Produces () inside ∧ pieces = functionPieces f.text inside := by
      refine .skip fun _ => .emit_bind (.emit_bind (.bind (Q := fun _ front => converted.Produces () front)
        (fun _ output done => ⟨output.notes, done⟩) fun _ inside produced => .emit_bind (.pure ?_)))
      exact ⟨inside, produced, rfl⟩
    exact emits _ _ done
  · rintro ⟨inside, produced, rfl⟩
    exact @Draft.Produces.bind _ _ _ _ [] _ _ _ (.ofReading ⟨_, rfl⟩) (.bind (.emit _) (.bind (.emit _)
      (.bind produced (.bind (.emit _) (.pure ())))))

theorem Assigns.bracketed {ts : List Token} (assigned : Assigns name ts tokens) (bracketed : WellBracketed ts) :
    WellBracketed tokens := by
  obtain ⟨x, gap, equals, semicolon, rfl, isName, -, blank, isEquals, ends⟩ := assigned
  have first := plain_of_category (show x.category ≠ .operator by simp [isName])
  have second : equals.isOpener = false ∧ equals.isCloser = false := by
    simp [isOpener, isCloser, isOp_of_isOp isEquals]
  have last : semicolon.isOpener = false ∧ semicolon.isCloser = false := by
    simp [isOpener, isCloser, isOp_of_isOp ends]
  exact .cons first.1 first.2 (.append (.of_plain fun t member => plain_of_isTrivia (blank t member))
    (.cons second.1 second.2 (bracketed.append (.cons last.1 last.2 .nil))))

theorem Assigns.exists_cons {ts : List Token} (assigned : Assigns name ts tokens) :
    ∃ x more, tokens = x :: more ∧ x.category = .identifier ∧ x.text = name := by
  obtain ⟨x, gap, equals, semicolon, rfl, isName, text, -⟩ := assigned
  exact ⟨x, _, rfl, isName, text⟩

variable {x text : String} {ts : List Token}

section

variable (read : tokenize source = .ok tokens) (within : InFunction name body tokens) (assigned : Assigns x ts body)
  (bracketed : WellBracketed ts)
include read within assigned bracketed

/-- An assignment in a function is converted to what its rounds come to. -/
theorem convert_of_assigned (nonempty : pieces ≠ []) (leads : ∀ n semicolon after, ts.length < n → ∃ frame,
      (Frame.assigned x (ts ++ semicolon :: after)).LeadsTo (standard.converters (expressionRank n))
        { mode := .statement, scope := ⟨.fnBody, 1, false⟩ } (ts ++ semicolon :: after) frame
        (semicolon :: after) ∧
      (frame.finish { mode := .statement, scope := ⟨.fnBody, 1, false⟩ }).pieces = pieces) :
    convert settings source = .ok (render settings (layout (functionPieces name
      (Piece.indents 1 ++ (pieces ++ [Piece.raw ";", .lineBreak]))))) := by
  obtain ⟨first, more, rfl, isName, -⟩ := assigned.exists_cons
  obtain ⟨back, n, isBack, fits, block⟩ := block_of_function within (by simp [isBlank, isName])
    (assigned.bracketed bracketed)
  have inside := @statements_of_assigned ts back ⟨.fnBody, 1, false⟩ x n (first :: more) pieces assigned isBack
    nonempty fits fun n semicolon short => leads n semicolon back short
  exact (convert_eq_ok_iff read).2 ⟨_, (block _).2 ⟨_, inside, rfl⟩, rfl⟩

/-- Where a function that assigns is converted, the rounds of what is assigned come to an end, and what
they come to is written first. -/
theorem gives_of_convert (converted : convert settings source = .ok text) :
    ∃ inner finish, ∃ semicolon : Token, ∃ after e more, semicolon.isOp ";" = true ∧
      Reading.Gives (walk (convertToken inner { mode := .statement, scope := ⟨.fnBody, 1, false⟩ }) finish
        (Frame.assigned x (ts ++ semicolon :: after)) (ts ++ semicolon :: after)) e ∧
      text = render settings (layout (functionPieces name (Piece.indents 1 ++ (e.value.pieces ++ more)))) := by
  obtain ⟨first, more, rfl, isName, -⟩ := assigned.exists_cons
  obtain ⟨back, n, isBack, fits, block⟩ := block_of_function within (by simp [isBlank, isName])
    (assigned.bracketed bracketed)
  obtain ⟨pieces, produced, rfl⟩ := (convert_eq_ok_iff read).1 converted
  obtain ⟨inside, statements, rfl⟩ := (block pieces).1 produced
  have above : statementRank (more ++ back).length < blockRank n := by
    simp only [List.cons_append, List.length_cons, statementRank, blockRank] at fits ⊢
    omega
  obtain ⟨e, others, gives, rfl⟩ := gives_of_statements isName above statements
  obtain ⟨x, gap, equals, semicolon, parts, -, rfl, blank, isEquals, ends⟩ := assigned
  obtain ⟨rfl, rfl⟩ := List.cons.inj parts
  simp only [List.append_assoc, List.cons_append, List.nil_append] at gives
  have walked := (Frame.leadsTo_assigned isName blank isEquals _ (ts ++ semicolon :: back) _ e).1 gives
  exact ⟨_, _, semicolon, back, e, others, ends, walked, rfl⟩

end

end Function

end Sharp
