import Sharp.Proofs.Assignments

/-!
# Tuples

The elements of a tuple are converted one after another in the frame of the whole expression.  What
is added for an element is what the element is converted to on its own: the frame matters to it only
through the question whether an operand comes before, and none does.

* `convert_tuple`: the assignment of a tuple, with and without parentheses.
-/

namespace Sharp

open Token

variable {e : Parsed Expression}

/-! ## Tokens that are copied -/

/-- Does the token, outside all brackets, mean more than itself? -/
def Token.splitsElement (t : Token) : Bool :=
  t.isOpIn ["~", ",", ";", "=>", "#", "@"] || t.isAssignment || (t.category == .keyword && !t.isLiteral)

/-- The words that are reserved here and there only are those of the vocabulary. -/
def Token.ContextListed (t : Token) : Prop :=
  t.category = .contextKeyword → contextKeywordRole? t.text ≠ none

theorem contextListed_of_tokenize {source : String} {tokens : List Token}
    (read : tokenize source = .ok tokens) : ∀ t ∈ tokens, t.ContextListed := by
  intro t member category
  have given := givenRole_of_tokenize read t member
  rw [category] at given
  exact given.1 ▸ given.2

/-- What a token that means no more than itself is converted to. -/
def Token.copied (afterOperand : Bool) (t : Token) : List Piece :=
  match t.category with
  | .lineBreak | .space | .comment => []
  | .operator => [.code t.text (operatorSpacing t.text afterOperand)]
  | .stringLiteral | .rawStringLiteral | .charLiteral | .numberLiteral => [.literal t.text]
  | .identifier | .keyword | .contextKeyword => [.word t.text]

section Copied

variable {inner : Converters} {place : Place} {frame : Frame} {t : Token} {rest : List Token}

theorem convertOperator_copied (free : t.splitsElement = false) (no_opener : t.isOpener = false)
    (no_closer : t.isCloser = false) (operator : t.category = .operator) :
    convertOperator inner place frame t rest = convertPlainOperator place frame t rest := by
  have others : t.text ∉ ["~", ",", ";", "=>", "#", "@"] ∧ t.text ∉ ["(", "\x7b"] ∧ t.text ∉ [")", "\x7d"] := by
    simp only [splitsElement, isOpIn, isOpener, isCloser, isOp, operator,
      beq_self_eq_true, Bool.true_and, Bool.or_eq_false_iff] at free no_opener no_closer
    refine ⟨by simpa using free.1.1, by simpa using no_opener, by simpa using no_closer⟩
  simp only [List.mem_cons, List.not_mem_nil, or_false, not_or] at others
  unfold convertOperator
  split <;> simp_all

/-- The keywords with a conversion of their own. -/
def convertedWords : List String :=
  statementWords ++ methodWords ++ spacedWords ++ ["fn", "switch", "new", "async", "static"]

/-- A keyword without a conversion of its own is written as it is. -/
theorem convertKeyword_word (noLiteral : t.isLiteral = false) (other : t.text ∉ convertedWords)
    (role : t.keywordRole? ∉ [some .expr, some .blockWithExpr, some .blockWithoutExpr]) :
    convertKeyword inner place frame t rest = pure (.next (frame.vary.word t.text) rest) := by
  have notYield : t.text ≠ "yield" := fun text => other (by rw [text]; decide)
  simp only [convertedWords, List.mem_append, List.mem_cons, List.not_mem_nil, or_false, not_or] at other role
  simp [convertKeyword, convertPlainKeyword, startsStatement, noLiteral, notYield, role, other]

/-- The words of the vocabulary that are reserved here and there only are names in an expression. -/
theorem convertKeyword_context (context : t.category = .contextKeyword) (listed : t.ContextListed) :
    convertKeyword inner place frame t rest = pure (.next (frame.vary.word t.text) rest) := by
  obtain ⟨role, found⟩ := Option.ne_none_iff_exists'.1 (listed context)
  obtain ⟨group, first, rfl⟩ := Option.map_eq_some_iff.1 found
  have member : t.text ∈ group.words := by simpa using List.find?_some first
  have known : ∀ group ∈ contextKeywordGroups,
      (group.role = .keyword .accessor ∨ group.role = .keyword .var ∨ group.role = .keyword .other) ∧
        ∀ word ∈ group.words, word ∉ convertedWords := by decide
  obtain ⟨role, other⟩ := known group (List.mem_of_find?_eq_some first)
  have vocabulary : t.vocabularyRole? = some group.role := by
    rw [vocabularyRole?, context]
    exact found
  refine convertKeyword_word ?_ (other t.text member) ?_
  · rcases role with role | role | role <;>
      simp [isLiteral, isCopiedLiteral, context, vocabulary, role]
  · rcases role with role | role | role <;> simp [Token.keywordRole?, vocabulary, role]

theorem convertToken_copied (free : t.splitsElement = false) (no_opener : t.isOpener = false)
    (no_closer : t.isCloser = false) (listed : t.ContextListed) :
    ∃ frame', (convertToken inner place frame t rest).Gives (.next frame' rest) ∧
      frame'.pieces = frame.pieces ++ t.copied (frame.endsOperand place) ∧
      frame'.segment = frame.segment ∧ frame'.tuple = frame.tuple := by
  cases category : t.category with
  | lineBreak | space | comment =>
    refine ⟨frame, ?_, by simp [Token.copied, category], rfl, rfl⟩
    simp only [convertToken, category]
    exact .pure _
  | stringLiteral | rawStringLiteral | charLiteral | numberLiteral =>
    refine ⟨frame.push (.literal t.text), ?_, by simp [Token.copied, category, Frame.push], rfl, rfl⟩
    simp only [convertToken, category]
    exact .pure _
  | identifier =>
    refine ⟨(frame.word t.text).vary, ?_, by simp [Token.copied, category, Frame.vary, Frame.word,
      Frame.push], rfl, rfl⟩
    simp only [convertToken, category]
    exact .pure _
  | contextKeyword =>
    refine ⟨frame.vary.word t.text, ?_, by simp [Token.copied, category, Frame.vary, Frame.word,
      Frame.push], rfl, rfl⟩
    simp only [convertToken, category, convertKeyword_context category listed]
    exact .pure _
  | keyword =>
    have literal : t.isLiteral = true := by
      simpa [splitsElement, isAssignment, isOpIn, category] using free
    refine ⟨frame.word t.text, ?_, by simp [Token.copied, category, Frame.word, Frame.push], rfl, rfl⟩
    simp only [convertToken, category, convertKeyword, literal, if_true]
    exact .pure _
  | operator =>
    have noAssignment : t.isAssignment = false := by
      simp only [splitsElement, Bool.or_eq_false_iff] at free
      exact free.1.2
    simp only [convertToken, category, convertOperator_copied free no_opener no_closer category,
      convertPlainOperator, noAssignment, Bool.false_eq_true, if_false, Token.copied]
    refine ⟨_, .pure _, ?_, ?_, ?_⟩ <;> split <;> rfl

end Copied

/-! ## An element in a frame -/

/-- The frame `frame` holds what `base` held at the start of an element, and then what `alone` holds,
in which the element is converted on its own. -/
structure Frame.Extends (base alone frame : Frame) : Prop where
  pieces : frame.pieces = base.pieces ++ alone.pieces
  segment : frame.segment = base.segment
  tuple : frame.tuple = base.tuple
  noTuple : alone.tuple = .none

section Element

open Layers

variable {base alone frame : Frame} {place place' : Place} {rank n : Nat} {opening closing : Token}
  {inside ts rest rest' : List Token}

section

variable (extended : base.Extends alone frame) (start : base.endsOperand place' = place.afterOperand)
include extended start

theorem Frame.Extends.endsOperand : frame.endsOperand place' = alone.endsOperand place := by
  rw [Frame.endsOperand, extended.pieces, List.getLast?_append, Frame.endsOperand]
  cases last : alone.pieces.getLast? with
  | none =>
    rw [Frame.endsOperand] at start
    simpa using start
  | some piece => rfl

/-- Groups inside an element stand at the same place in both frames. -/
theorem Frame.Extends.innerPlace (scopes : place.scope = place'.scope) (mode : Mode) (fence : Option Token) :
    frame.innerPlace place' mode fence = alone.innerPlace place mode fence := by
  rw [Frame.innerPlace, Frame.innerPlace, extended.endsOperand start, scopes]

theorem Frame.Extends.operator (text : String) :
    base.Extends (alone.operator place text) (frame.operator place' text) := by
  refine ⟨?_, extended.segment, extended.tuple, extended.noTuple⟩
  simp only [Frame.operator, Frame.push, extended.endsOperand start, extended.pieces, List.append_assoc]

end

theorem Frame.Extends.addInner (extended : base.Extends alone frame) (e : Expression) :
    base.Extends (alone.addInner e) (frame.addInner e) := by
  refine ⟨?_, extended.segment, extended.tuple, extended.noTuple⟩
  simp only [Frame.addInner, Frame.append, extended.pieces, List.append_assoc]

theorem Frame.Extends.vary (extended : base.Extends alone frame) : base.Extends alone.vary frame.vary :=
  ⟨extended.pieces, extended.segment, extended.tuple, extended.noTuple⟩

theorem converters_expression_of_length (short : ts.length ≤ n) (place : Place) :
    (standard.converters (expressionRank n)).expression place ts = standard.all.expression place ts := by
  cases ts with
  | nil => rfl
  | cons t rest =>
    refine converters_expressionFrom ?_ place t
    simp only [List.length_cons, expressionRank] at short ⊢
    omega

/-- What is converted below some rank is converted the same at any rank above it. -/
theorem expression_of_gives {place : Place}
    (gives : ((standard.converters rank).expression place ts).Gives e) (short : ts.length ≤ n) :
    ((standard.converters (expressionRank n)).expression place ts).Gives e := by
  rw [converters_expression_of_length short]
  cases ts with
  | nil => exact gives
  | cons t ts =>
    obtain ⟨notes, done⟩ := gives
    exact ⟨notes, result_all_of_done (.expression place t ts) done⟩

/-- What is written for `(ts)`, where `closing` is the parenthesis after the tokens. -/
def groupedExpression (inner : Converters) (scope : Scope) (afterOperand : Bool) (closing : Token)
    (ts : List Token) : Reading Expression :=
  if isDoubled ts then do
    let e ← inner.expression { mode := .group, scope, fence := some closing, afterOperand } ts
    return e.value
  else do
    let e ← inner.expression { mode := .group, scope, fence := some closing, lendsParens := holdsOneTuple ts } ts
    return ⟨Piece.code "(" .opening :: e.value.pieces ++ [Piece.code ")" .closing], e.value.isConst⟩

theorem convertToken_group {inner : Converters} (bracketed : WellBracketed ts) (opens : opening.isOp "(" = true)
    (closes : closing.isOp ")" = true) :
    convertToken inner place frame opening (ts ++ closing :: rest) =
      groupedExpression inner place.scope (frame.endsOperand place) closing ts >>= fun e =>
        return .next (frame.addInner e) rest := by
  have split : splitClose .parenthesis (ts ++ closing :: rest) = some ⟨ts, closing, rest⟩ :=
    bracketed.splitClose_append closes rest
  rw [isOp_iff] at opens
  simp only [convertToken, opens.1, convertOperator, opens.2, convertGroup, split, groupedExpression]
  by_cases doubled : isDoubled ts = true
  · simp only [if_pos doubled, bind_assoc, pure_bind]
    rfl
  · have starts : (frame.operator place "(").endsOperand place = false :=
      @endsOperand_of_pieces place _ frame.pieces (.code "(" .opening) rfl
    simp only [if_neg doubled, bind_assoc, pure_bind, Frame.innerPlace, starts]
    refine bind_congr fun e => ?_
    simp [Frame.operator, Frame.push, Frame.addInner, Frame.append, operatorSpacing]

theorem groupedExpression_of_gives {scope : Scope} {afterOperand : Bool} {e : Expression}
    (gives : (groupedExpression (standard.converters rank) scope afterOperand closing ts).Gives e)
    (short : ts.length ≤ n) :
    (groupedExpression (standard.converters (expressionRank n)) scope afterOperand closing ts).Gives e := by
  unfold groupedExpression at gives ⊢
  split at gives
  · next doubled =>
    obtain ⟨e, converted, rest⟩ := gives.of_bind
    rw [if_pos doubled]
    exact .bind (expression_of_gives converted short) rest
  · next single =>
    obtain ⟨e, converted, rest⟩ := gives.of_bind
    rw [if_neg single]
    exact .bind (expression_of_gives converted short) rest

theorem convertBraces_extends (extended : base.Extends alone frame)
    (start : base.endsOperand place' = place.afterOperand) (scopes : place.scope = place'.scope)
    (within : WellBracketed inside) (closes : closing.isOp "\x7d" = true) (short : inside.length ≤ n)
    {step : Flow} (gives : (convertBraces (standard.converters rank) place alone opening
      (inside ++ closing :: rest)).Gives step) :
    ∃ alone' frame', step = .next alone' rest ∧ base.Extends alone' frame' ∧
      (convertBraces (standard.converters (expressionRank n)) place' frame opening
        (inside ++ closing :: rest')).Gives (.next frame' rest') := by
  have split (rest : List Token) : splitClose .brace (inside ++ closing :: rest) =
      some ⟨inside, closing, rest⟩ := within.splitClose_append closes rest
  rw [convertBraces, split] at gives
  rw [convertBraces, split]
  dsimp only at gives ⊢
  have opened := extended.operator start "\x7b"
  obtain ⟨e, converted, ⟨_, ⟨⟩⟩⟩ := gives.of_bind
  rw [opened.innerPlace start scopes]
  exact ⟨_, _, rfl, ((opened.addInner e.value).operator start "\x7d").vary,
    .bind (expression_of_gives converted short) (.pure _)⟩

theorem convertToken_extends (form : BracketForm) (extended : base.Extends alone frame)
    (start : base.endsOperand place' = place.afterOperand) (scopes : place.scope = place'.scope)
    (opens : opening.isOp form.opener = true) (within : WellBracketed inside)
    (closes : closing.isOp form.closer = true) (short : inside.length ≤ n)
    {step : Flow} (gives : (convertToken (standard.converters rank) place alone opening
      (inside ++ closing :: rest)).Gives step) :
    ∃ alone' frame', step = .next alone' rest ∧ base.Extends alone' frame' ∧
      (convertToken (standard.converters (expressionRank n)) place' frame opening
        (inside ++ closing :: rest')).Gives (.next frame' rest') := by
  cases form with
  | parenthesis =>
    rw [convertToken_group within opens closes] at gives ⊢
    obtain ⟨e, converted, ⟨_, ⟨⟩⟩⟩ := gives.of_bind
    rw [extended.endsOperand start, ← scopes]
    exact ⟨_, _, rfl, extended.addInner e, .bind (groupedExpression_of_gives converted short) (.pure _)⟩
  | brace =>
    rw [isOp_iff] at opens
    simp only [convertToken, opens.1, convertOperator, opens.2, BracketForm.opener] at gives ⊢
    exact convertBraces_extends extended start scopes within closes short gives

/-- An element adds to any frame what it is converted to on its own.  The induction follows the
brackets, and the two frames stay in step. -/
theorem Frame.leadsTo_element (bracketed : WellBracketed ts) (free : hasTop splitsElement ts = false)
    (listed : ∀ t ∈ ts, t.ContextListed) (short : ts.length ≤ n + 1)
    (start : base.endsOperand place' = place.afterOperand) (scopes : place.scope = place'.scope)
    (extended : base.Extends alone frame)
    (gives : Reading.Gives (walk (convertToken (standard.converters rank) place)
      (fun frame => return ⟨frame.finish place, []⟩) alone ts) e) (rest : List Token) :
    ∃ frame', LeadsTo (standard.converters (expressionRank n)) place' frame (ts ++ rest) frame' rest ∧
      frame'.pieces = base.pieces ++ e.value.pieces ∧ frame'.segment = base.segment ∧
      frame'.tuple = base.tuple := by
  induction bracketed generalizing alone frame with
  | nil =>
    rw [walk_nil] at gives
    obtain ⟨_, ⟨⟩⟩ := gives
    refine ⟨frame, .refl _ _, ?_, extended.segment, extended.tuple⟩
    simp only [Frame.finish, Frame.closeTuple, extended.noTuple, extended.pieces]
  | @cons t ts no_opener no_closer _ ih =>
    obtain ⟨first_listed, listed⟩ := List.forall_mem_cons.1 listed
    rw [hasTop_cons_of_plain no_opener no_closer, Bool.or_eq_false_iff] at free
    obtain ⟨alone', round, pieces, -, tuple⟩ := @convertToken_copied (standard.converters rank) place
      alone t ts free.1 no_opener no_closer first_listed
    obtain ⟨frame', round', pieces', segment', tuple'⟩ := @convertToken_copied
      (standard.converters (expressionRank n)) place' frame t (ts ++ rest) free.1 no_opener no_closer
      first_listed
    have extended' : base.Extends alone' frame' := by
      refine ⟨?_, segment'.trans extended.segment, tuple'.trans extended.tuple, tuple.trans extended.noTuple⟩
      rw [pieces', pieces, extended.pieces, extended.endsOperand start, List.append_assoc]
    obtain ⟨frame'', leads, result⟩ := ih free.2 listed (Nat.le_of_succ_le short) extended' (gives.of_walk round)
    exact ⟨frame'', (LeadsTo.next round' (Nat.le_refl _)).trans leads, result⟩
  | @group form opening closing inside ts opens within closes _ _ ih =>
    rw [within.hasTop_group opens closes, Bool.or_eq_false_iff] at free
    have inside_short : inside.length ≤ n := by
      simp only [List.length_cons, List.length_append] at short
      omega
    have listed' : ∀ t ∈ ts, t.ContextListed := fun t member => listed t (by simp [member])
    have first := gives
    rw [walk_cons] at first
    obtain ⟨step, round, -⟩ := first.of_bind
    obtain ⟨alone', frame', rfl, extended', round'⟩ := @convertToken_extends _ _ _ _ _ _ _ _ _ _ _
      (ts ++ rest) form extended start scopes opens within closes inside_short _ round
    obtain ⟨frame'', leads, result⟩ := ih free.2 listed' (by simp only [List.length_cons, List.length_append] at short; omega) extended'
      (gives.of_walk round)
    refine ⟨frame'', ?_, result⟩
    rw [List.cons_append, List.append_assoc, List.cons_append]
    exact (LeadsTo.next round' (by simp only [List.length_append, List.length_cons]; omega)).trans leads

end Element

/-! ## Several elements -/

open Layers in
/-- Tokens that are an element of a tuple as they stand, and what they are converted to on their
own. -/
structure IsElement (scope : Scope) (ts : List Token) (pieces : List Piece) : Prop where
  nonempty : ts ≠ []
  bracketed : WellBracketed ts
  free : hasTop splitsElement ts = false
  converted : ∃ e, (standard.all.expression { mode := .statement, scope } ts).Gives e ∧ e.value.pieces = pieces

theorem isElement_iff {scope : Scope} {ts : List Token} {pieces : List Piece} :
    (ts ≠ [] ∧ WellBracketed ts ∧ hasTop splitsElement ts = false ∧
      (Layers.standard.all.expression { mode := .statement, scope } ts).toExcept.toOption.map
        (fun e => e.value.pieces) = some pieces) ↔ IsElement scope ts pieces := by
  constructor
  · rintro ⟨nonempty, bracketed, free, converted⟩
    exact ⟨nonempty, bracketed, free, Reading.exists_gives converted⟩
  · intro element
    obtain ⟨e, ⟨notes, converted⟩, rfl⟩ := element.converted
    exact ⟨element.nonempty, element.bracketed, element.free, by rw [converted]; rfl⟩

instance (scope : Scope) (ts : List Token) (pieces : List Piece) : Decidable (IsElement scope ts pieces) :=
  decidable_of_iff _ isElement_iff

/-- Elements with `~` between them, and what each is converted to on its own. -/
abbrev Elements (scope : Scope) : List Token → List (List Piece) → Prop :=
  Separated "~" (IsElement scope)

section Elements

open Layers

variable {inner : Converters} {place : Place} {scope : Scope} {base : Frame} {n : Nat}
  {connector : Token} {ts rest : List Token} {pieces : List Piece} {elements : List (List Piece)}

/-- An element in any frame in which no operand comes before it. -/
theorem IsElement.leadsTo (element : IsElement scope ts pieces) (listed : ∀ t ∈ ts, t.ContextListed)
    (short : ts.length ≤ n + 1) (start : base.endsOperand place = false) (same : place.scope = scope)
    (rest : List Token) :
    ∃ frame, base.LeadsTo (standard.converters (expressionRank n)) place (ts ++ rest) frame rest ∧
      frame.pieces = base.pieces ++ pieces ∧ frame.segment = base.segment ∧ frame.tuple = base.tuple := by
  obtain ⟨e, converted, rfl⟩ := element.converted
  obtain ⟨t, more, rfl⟩ := List.exists_cons_of_ne_nil element.nonempty
  exact Frame.leadsTo_element element.bracketed element.free listed short start same.symm
    ⟨by simp [Frame.start], rfl, rfl, rfl⟩ converted rest

theorem convertToken_connector (connects : connector.isOp "~" = true) (frame : Frame) (rest : List Token) :
    (convertToken inner place frame connector rest).Gives
      (.next (((frame.vary.openTuple place).operator place ",").markParams rest) rest) := by
  rw [isOp_iff] at connects
  simp only [convertToken, connects.1, convertOperator, connects.2, convertConnector]
  exact .note_bind (.pure _)

theorem openTuple_of_ne_none {frame : Frame} (opened : frame.tuple ≠ .none) : frame.openTuple place = frame := by
  unfold Frame.openTuple
  split
  · next none => exact absurd none opened
  · rfl

theorem openTuple_tuple_ne_none (frame : Frame) : (frame.openTuple place).tuple ≠ .none := by
  unfold Frame.openTuple
  split
  · split <;> simp
  · next opened => exact opened

/-- To open a tuple in front of its first element, when this has been converted, is to open it
before. -/
theorem openTuple_append {frame : Frame} (ready : base.tuple ≠ .none ∨ base.segment = base.pieces.length)
    (added : frame.pieces = base.pieces ++ pieces) (segment : frame.segment = base.segment)
    (tuple : frame.tuple = base.tuple) :
    (frame.openTuple place).pieces = (base.openTuple place).pieces ++ pieces ∧
      (frame.openTuple place).tuple = (base.openTuple place).tuple := by
  by_cases opened : base.tuple = .none
  · have marked := ready.resolve_left fun other => other opened
    rw [opened] at tuple
    simp only [Frame.openTuple, tuple, opened, segment]
    split
    · exact ⟨added, rfl⟩
    · refine ⟨?_, rfl⟩
      simp [Frame.insertOpening, added, marked]
  · rw [openTuple_of_ne_none opened, openTuple_of_ne_none (by rwa [tuple])]
    exact ⟨added, tuple⟩

/-- An element and the connector after it, which opens the tuple if it is not open yet. -/
theorem IsElement.leadsTo_connector (element : IsElement scope ts pieces)
    (connects : connector.isOp "~" = true) (listed : ∀ t ∈ ts, t.ContextListed)
    (short : ts.length ≤ n + 1) (start : base.endsOperand place = false) (same : place.scope = scope)
    (ready : base.tuple ≠ .none ∨ base.segment = base.pieces.length) (rest : List Token) :
    ∃ frame, base.LeadsTo (standard.converters (expressionRank n)) place (ts ++ connector :: rest) frame rest ∧
      frame.pieces = (base.openTuple place).pieces ++ (pieces ++ [Piece.code "," .trailing]) ∧
      frame.tuple = (base.openTuple place).tuple ∧ frame.endsOperand place = false := by
  obtain ⟨frame, leads, added, segment, tuple⟩ := element.leadsTo listed short start same (connector :: rest)
  obtain ⟨opened, opened_tuple⟩ := @openTuple_append place base pieces frame.vary ready added segment tuple
  have round := @convertToken_connector (standard.converters (expressionRank n)) place connector connects frame rest
  have written : (((frame.vary.openTuple place).operator place ",").markParams rest).pieces =
      (base.openTuple place).pieces ++ pieces ++ [Piece.code "," .trailing] := by
    simp [Frame.markParams, Frame.operator, Frame.push, opened, operatorSpacing]
  refine ⟨_, leads.trans (.next round (Nat.le_refl _)), ?_, opened_tuple, endsOperand_of_pieces written⟩
  rw [written, List.append_assoc]

/-- The elements of a tuple that is open, or that the connector after its first element opens. -/
theorem Elements.leadsTo (isTuple : Elements scope ts elements) (listed : ∀ t ∈ ts, t.ContextListed)
    (short : ts.length ≤ n + 1) (start : base.endsOperand place = false) (same : place.scope = scope)
    (ready : base.tuple ≠ .none ∨ 2 ≤ elements.length ∧ base.segment = base.pieces.length) (rest : List Token) :
    ∃ frame, base.LeadsTo (standard.converters (expressionRank n)) place (ts ++ rest) frame rest ∧
      frame.pieces = (base.openTuple place).pieces ++ withCommas elements ∧
      frame.tuple = (base.openTuple place).tuple := by
  induction isTuple generalizing base with
  | single element =>
    obtain ⟨frame, leads, pieces, -, tuple⟩ := element.leadsTo listed short start same rest
    rw [openTuple_of_ne_none (ready.resolve_right (by simp))]
    exact ⟨frame, leads, by simpa [withCommas] using pieces, tuple⟩
  | @cons ts more connector pieces others element connects following ih =>
    obtain ⟨listed, listed_others⟩ := List.forall_mem_append.1 listed
    simp only [List.length_append, List.length_cons] at short
    obtain ⟨frame, leads, added, tuple, start⟩ := element.leadsTo_connector connects listed
      (show ts.length ≤ n + 1 by omega) start same (ready.imp_right And.right) (more ++ rest)
    have opened : frame.tuple ≠ .none := tuple ▸ openTuple_tuple_ne_none base
    obtain ⟨frame', leads', added', tuple'⟩ := ih (List.forall_mem_cons.1 listed_others).2
      (show more.length ≤ n + 1 by omega) start (.inl opened)
    rw [openTuple_of_ne_none opened] at added' tuple'
    refine ⟨frame', ?_, ?_, tuple'.trans tuple⟩
    · rw [List.append_assoc, List.cons_append]
      exact leads.trans leads'
    · rw [added', added, withCommas_cons pieces following.values_ne_nil]
      simp

end Elements

/-! ## Parentheses around the elements -/

section Parentheses

variable {scope : Scope} {connector : Token} {ts : List Token} {elements : List (List Piece)}

theorem connector_plain (connects : connector.isOp "~" = true) :
    connector.isOpener = false ∧ connector.isCloser = false := by
  simp [isOpener, isCloser, isOp_of_isOp connects]

theorem Elements.bracketed (isTuple : Elements scope ts elements) : WellBracketed ts := by
  induction isTuple with
  | single element => exact element.bracketed
  | cons element connects _ ih =>
    obtain ⟨no_opener, no_closer⟩ := connector_plain connects
    exact element.bracketed.append (.cons no_opener no_closer ih)

theorem Elements.holdsOneTuple (isTuple : Elements scope ts elements) (several : 2 ≤ elements.length) :
    holdsOneTuple ts = true := by
  have connected : hasTop (·.isOp "~") ts = true := by
    cases isTuple with
    | single element => simp at several
    | cons element connects following =>
      obtain ⟨no_opener, no_closer⟩ := connector_plain connects
      rw [element.bracketed.hasTop_append, hasTop_cons_of_plain no_opener no_closer, connects, Bool.true_or,
        Bool.or_true]
  have unseparated : hasTop (fun t => t.isOp "," || t.isAssignment) ts = false := by
    have weaker (t : Token) (separates : (t.isOp "," || t.isAssignment) = true) : t.splitsElement = true := by
      simp only [Bool.or_eq_true] at separates
      rcases separates with comma | assigns
      · rw [isOp_iff] at comma
        simp [splitsElement, isOpIn, comma]
      · simp [splitsElement, assigns]
    clear several connected
    induction isTuple with
    | single element => exact element.bracketed.hasTop_mono weaker element.free
    | @cons ts more connector _ _ element connects _ ih =>
      obtain ⟨no_opener, no_closer⟩ := connector_plain connects
      have other : (connector.isOp "," || connector.isAssignment) = false := by
        have text := connects
        rw [isOp_iff] at text
        simp only [isOp_of_isOp connects, isAssignment, isOpIn, text]
        decide
      rw [element.bracketed.hasTop_append, hasTop_cons_of_plain no_opener no_closer, ih, other,
        element.bracketed.hasTop_mono weaker element.free]
      rfl
  rw [Sharp.holdsOneTuple, connected, unseparated]
  rfl

/-- Where one group is all there is, nothing is outside of it. -/
theorem hasTop_of_isDoubled (bracketed : WellBracketed ts) (doubled : isDoubled ts = true) :
    hasTop (·.isOp "~") ts = false := by
  induction bracketed with
  | nil => rfl
  | @cons t ts no_opener no_closer _ ih =>
    by_cases trivia : t.isTrivia = true
    · have skipped : isDoubled (t :: ts) = isDoubled ts := by simp [isDoubled, skipTrivia, trivia]
      rw [hasTop_cons_of_plain no_opener no_closer, isOp_of_isTrivia trivia, ih (skipped ▸ doubled)]
      rfl
    · simp only [isOpener, Bool.or_eq_false_iff] at no_opener
      simp [isDoubled, skipTrivia, trivia, no_opener] at doubled
  | @group form opening closing inside ts opens within closes _ _ _ =>
    have meaning : opening.isTrivia = false :=
      Bool.eq_false_iff.2 fun trivia => by simp [isOp_of_isTrivia trivia] at opens
    have kept : skipTrivia (opening :: (inside ++ closing :: ts)) = opening :: (inside ++ closing :: ts) := by
      simp [skipTrivia, meaning]
    simp only [isDoubled, kept, Bool.and_eq_true] at doubled
    cases form with
    | brace => simp [isOp_of_isOp opens, BracketForm.opener] at doubled
    | parenthesis =>
      rw [within.splitClose_append closes] at doubled
      have blank : ∀ t ∈ ts, t.isOp "~" = false := by
        intro t member
        simp only [Option.any_some, Bool.and_eq_true, List.isEmpty_iff] at doubled
        have none : significant ts = [] := doubled.2.1
        have trivia : t.isTrivia = true := by simpa [significant] using List.filter_eq_nil_iff.1 none t member
        exact isOp_of_isTrivia trivia _
      rw [within.hasTop_group opens closes, isOp_of_isOp opens, hasTop, splitTop,
        splitTopAt_eq_none blank 0]
      rfl

end Parentheses

/-! ## Assignments of tuples -/

/-- The tokens are `(ts)`, with blanks and comments around them. -/
def Groups (ts group : List Token) : Prop :=
  ∃ (front : List Token) (opening closing : Token) (back : List Token),
    group = front ++ opening :: (ts ++ closing :: back) ∧
    (∀ t ∈ front, t.isTrivia = true) ∧ opening.isOp "(" = true ∧ closing.isOp ")" = true ∧
    ∀ t ∈ back, t.isTrivia = true

/-- What the assignment of a tuple is converted to. -/
def tuplePieces (name : String) (elements : List (List Piece)) : List Piece :=
  [Piece.word name, .code "=" .binary, .code "(" .opening] ++ withCommas elements ++ [Piece.code ")" .closing] ++
    [Piece.raw ";", .lineBreak]

section Assignment

open Layers

variable {scope : Scope} {name : String} {ts group tokens : List Token} {elements : List (List Piece)}
  {place : Place} {opening closing : Token}

/-- A tuple that stands alone is assigned in parentheses of its own. -/
theorem block_of_tuple (isTuple : Elements scope ts elements) (several : 2 ≤ elements.length)
    (listed : ∀ t ∈ ts, t.ContextListed) (assigned : Assigns name ts tokens) :
    (standard.all.block scope tokens).Produces () (Piece.indents scope.level ++ tuplePieces name elements) := by
  refine block_of_assigned assigned (by simp) fun n semicolon short => ?_
  obtain ⟨frame, leads, pieces, tuple⟩ := @Elements.leadsTo { mode := .statement, scope } scope
    (Frame.assigned name (ts ++ [semicolon])) n ts elements isTuple listed
    (Nat.le_succ_of_le (Nat.le_of_lt short)) rfl rfl (.inr ⟨several, rfl⟩) [semicolon]
  have own : frame.tuple = .own := tuple
  have opened : frame.pieces = [Piece.word name, .code "=" .binary, .code "(" .opening] ++ withCommas elements :=
    pieces
  refine ⟨frame, leads, ?_⟩
  simp [Frame.finish, Frame.closeTuple, own, opened, Frame.operator, Frame.push, operatorSpacing]

/-- In parentheses that it may use, a tuple is converted to its elements. -/
theorem expression_of_tuple (isTuple : Elements scope ts elements) (several : 2 ≤ elements.length)
    (listed : ∀ t ∈ ts, t.ContextListed) (same : place.scope = scope) (start : place.afterOperand = false)
    (lends : place.lendsParens = true) :
    ∃ isConst, (standard.all.expression place ts).Gives ⟨⟨withCommas elements, isConst⟩, []⟩ := by
  obtain ⟨t, more, rfl⟩ := List.exists_cons_of_ne_nil (isTuple.ne_nil fun _ _ => IsElement.nonempty)
  obtain ⟨frame, leads, pieces, tuple⟩ := @Elements.leadsTo place scope (Frame.start (t :: more))
    more.length (t :: more) elements isTuple listed (Nat.le_refl _) start same (.inr ⟨several, rfl⟩) []
  have opened : (Frame.start (t :: more)).openTuple place = { Frame.start (t :: more) with tuple := .lent } := by
    simp [Frame.openTuple, Frame.start, lends]
  rw [opened] at pieces tuple
  have lent : frame.tuple = .lent := tuple
  have written : frame.pieces = withCommas elements := pieces
  rw [List.append_nil] at leads
  have finished : frame.finish place = ⟨withCommas elements, frame.isConst⟩ := by
    simp [Frame.finish, Frame.closeTuple, lent, written]
  refine ⟨frame.isConst, (leads _ _).2 ?_⟩
  rw [walk_nil, finished]
  exact .pure _

theorem convertToken_of_tuple (isTuple : Elements scope ts elements) (several : 2 ≤ elements.length)
    (listed : ∀ t ∈ ts, t.ContextListed) (same : place.scope = scope) (opens : opening.isOp "(" = true)
    (closes : closing.isOp ")" = true) {n : Nat} (short : ts.length ≤ n) (frame : Frame)
    (rest : List Token) :
    ∃ frame', (convertToken (standard.converters (expressionRank n)) place frame opening
        (ts ++ closing :: rest)).Gives (.next frame' rest) ∧
      frame'.pieces = frame.pieces ++ (.code "(" .opening :: withCommas elements ++ [Piece.code ")" .closing]) ∧
      frame'.tuple = frame.tuple := by
  have single : isDoubled ts = false := by
    refine Bool.eq_false_iff.2 fun doubled => ?_
    have holds := isTuple.holdsOneTuple several
    rw [holdsOneTuple, hasTop_of_isDoubled isTuple.bracketed doubled] at holds
    cases holds
  obtain ⟨isConst, converted⟩ := @expression_of_tuple scope ts elements
    { mode := .group, scope := place.scope, fence := some closing, lendsParens := true } isTuple several listed
    same rfl rfl
  rw [convertToken_group isTuple.bracketed opens closes, groupedExpression, if_neg (by simp [single]),
    isTuple.holdsOneTuple several, converters_expression_of_length short]
  exact ⟨_, .bind (.bind converted (.pure _)) (.pure _), rfl, rfl⟩

/-- A tuple in parentheses uses them. -/
theorem block_of_grouped_tuple (isTuple : Elements scope ts elements) (several : 2 ≤ elements.length)
    (listed : ∀ t ∈ ts, t.ContextListed) (grouped : Groups ts group)
    (assigned : Assigns name group tokens) :
    (standard.all.block scope tokens).Produces () (Piece.indents scope.level ++ tuplePieces name elements) := by
  obtain ⟨front, opening, closing, back, rfl, blank, opens, closes, blank'⟩ := grouped
  refine block_of_assigned assigned (by simp) fun n semicolon short => ?_
  simp only [List.length_append, List.length_cons] at short
  obtain ⟨frame, round, pieces, tuple⟩ := @convertToken_of_tuple scope ts elements { mode := .statement, scope }
    opening closing isTuple several listed rfl opens closes n (by omega)
    (Frame.assigned name (front ++ opening :: (ts ++ closing :: (back ++ [semicolon])))) (back ++ [semicolon])
  have none : frame.tuple = .none := tuple
  refine ⟨frame, ?_, ?_⟩
  · simp only [List.append_assoc, List.cons_append]
    exact (Frame.LeadsTo.trivia blank _ _).trans
      ((Frame.LeadsTo.next round (by simp only [List.length_append, List.length_cons]; omega)).trans (.trivia blank' _ _))
  · simp [Frame.finish, Frame.closeTuple, none, pieces, Frame.assigned]

/-- What is assigned to a name is a tuple wherever `~` stands between elements.  The elements are
written as they are on their own, with commas between them and one pair of parentheses around them,
whether the tuple stands in parentheses or not. -/
theorem convert_tuple {source source' : String} {tokens' ts' : List Token}
    (several : 2 ≤ elements.length) (bare : Elements .root ts elements)
    (inside : Elements .root ts' elements) (grouped : Groups ts' group)
    (read : tokenize source = .ok tokens) (assigned : Assigns name ts tokens)
    (read' : tokenize source' = .ok tokens') (assigned' : Assigns name group tokens') :
    (∃ program, Program.ofSource source = .ok program ∧ program.pieces = tuplePieces name elements) ∧
      (∃ program, Program.ofSource source' = .ok program ∧ program.pieces = tuplePieces name elements) ∧
      ∀ settings, convert settings source = .ok (render settings (layout (tuplePieces name elements))) ∧
        convert settings source' = convert settings source := by
  have listed : ∀ t ∈ ts, t.ContextListed := by
    obtain ⟨x, gap, equals, semicolon, rfl, -⟩ := assigned
    exact fun t member => contextListed_of_tokenize read t (by simp [member])
  have listed' : ∀ t ∈ ts', t.ContextListed := by
    obtain ⟨x, gap, equals, semicolon, rfl, -⟩ := assigned'
    obtain ⟨front, opening, closing, back, rfl, -⟩ := grouped
    exact fun t member => contextListed_of_tokenize read' t (by simp [member])
  obtain ⟨program, converted, pieces⟩ := ofSource_of_block read (block_of_tuple bare several listed assigned)
  obtain ⟨program', converted', pieces'⟩ := ofSource_of_block read'
    (block_of_grouped_tuple inside several listed' grouped assigned')
  refine ⟨⟨program, converted, pieces⟩, ⟨program', converted', pieces'⟩, fun settings => ?_⟩
  constructor
  · rw [convert, converted]
    exact congrArg (fun pieces => Except.ok (render settings (layout pieces))) pieces
  · rw [convert, convert, converted, converted']
    exact congrArg (fun pieces => Except.ok (render settings (layout pieces))) (pieces'.trans pieces.symm)

end Assignment

theorem convert_tuple_of_call : ∃ tokens tokens' ts ts' group elements,
      tokenize "x=f(a~1,c)~-b;" = .ok tokens ∧ tokenize "x=(f(a~1,c)~-b);" = .ok tokens' ∧
      elements.length = 2 ∧ Elements .root ts elements ∧ Elements .root ts' elements ∧ Groups ts' group ∧
      Assigns "x" ts tokens ∧ Assigns "x" group tokens' ∧
      convert {} "x=f(a~1,c)~-b;" = .ok "x = (f((a, 1), c), -b);\r\n" ∧
      convert {} "x=(f(a~1,c)~-b);" = .ok "x = (f((a, 1), c), -b);\r\n" := by
  let call : List Piece := [.word "f", .code "(" .opening, .code "(" .opening, .word "a",
    .code "," .trailing, .literal "1", .code ")" .closing, .code "," .trailing, .word "c",
    .code ")" .closing]
  let negated : List Piece := [.code "-" .leadingOperator, .word "b"]
  let tokens := (tokenize "x=f(a~1,c)~-b;").toOption.getD []
  let tokens' := (tokenize "x=(f(a~1,c)~-b);").toOption.getD []
  let token (i : Nat) : Token := tokens.getD i ⟨0, "", 0, 0, .space, none⟩
  let token' (i : Nat) : Token := tokens'.getD i ⟨0, "", 0, 0, .space, none⟩
  let ts := (tokens.drop 2).take 8 ++ token 10 :: (tokens.drop 11).take 2
  let ts' := (tokens'.drop 3).take 8 ++ token' 11 :: (tokens'.drop 12).take 2
  let group := [] ++ token' 2 :: (ts' ++ token' 14 :: [])
  obtain ⟨read, read'⟩ : tokenize "x=f(a~1,c)~-b;" = .ok tokens ∧ tokenize "x=(f(a~1,c)~-b);" = .ok tokens' := by
    decide +kernel +zetaReduce
  have bare : Elements .root ts [call, negated] := .cons (by decide +kernel +zetaReduce)
    (by decide +kernel +zetaReduce) (.single (by decide +kernel +zetaReduce))
  have inside : Elements .root ts' [call, negated] := .cons (by decide +kernel +zetaReduce)
    (by decide +kernel +zetaReduce) (.single (by decide +kernel +zetaReduce))
  have assigned : Assigns "x" ts tokens := ⟨token 0, [], token 1, token 13, by decide +kernel +zetaReduce⟩
  have assigned' : Assigns "x" group tokens' := ⟨token' 0, [], token' 1, token' 15, by decide +kernel +zetaReduce⟩
  have grouped : Groups ts' group := ⟨_, _, _, _, rfl, by decide +kernel +zetaReduce⟩
  obtain ⟨converted, same⟩ := (convert_tuple (by decide) bare inside grouped read assigned read' assigned').2.2 {}
  have text : render {} (layout (tuplePieces "x" [call, negated])) = "x = (f((a, 1), c), -b);\r\n" := by
    decide +kernel
  rw [text] at converted
  rw [converted] at same
  exact ⟨tokens, tokens', ts, ts', group, _, read, read', rfl, bare, inside, grouped, assigned, assigned',
    converted, same⟩

end Sharp
