import Sharp.Proofs.LambdaParameters

/-!
# Arrows

At the arrow of a lambda its parameters are put in parentheses, or written anew.  They are found from
where the parameters may start, so this goes wrong where `ref`, `in` or `out` moved that place.

* `convert_lambda_iff`: lambdas with parentheses around their parameters, and without.
-/

namespace Sharp

open Token

/-! ## The parameters at the arrow -/

def paramList (texts : List String) : List Piece :=
  .code "(" .opening :: (withCommas (texts.map fun text => [.word text]) ++ [Piece.code ")" .closing])

section Params

variable {place : Place} {frame frame' : Frame} {head : Token} {more sig : List Token}
  {params : LambdaParams} {front : List Piece}

theorem addSlots_adds {slots : List Slot} (frame : Frame) (several : slots ≠ []) :
    (frame.addSlots place slots).pieces = frame.pieces ++ withCommas (slots.map fun slot => [.word slot.render]) ∧
      (frame.addSlots place slots).tuple = frame.tuple := by
  fun_induction Frame.addSlots frame place slots with
  | case1 frame => exact absurd rfl several
  | case2 frame slot => exact ⟨by simp [withCommas_singleton, Frame.word, Frame.push], rfl⟩
  | case3 frame slot slots others ih =>
    have nonempty : slots ≠ [] := others
    obtain ⟨pieces, tuple⟩ := ih nonempty
    refine ⟨?_, tuple⟩
    rw [pieces, List.map_cons, withCommas_cons _ (by simpa using nonempty)]
    simp [Frame.operator, Frame.word, Frame.push, operatorSpacing]

/-- The parameters are put in parentheses, unless they stand in parentheses already, and those with
types are written anew. -/
theorem convertParams_spelled (spelled : params.Spelled sig) (listed : ∀ t ∈ sig, t.ContextListed)
    (inside : ((paramGroup? head more).map Split.before).getD (head :: more) = sig)
    (pieces : frame.pieces = front ++ if (paramGroup? head more).isSome then
      .code "(" .opening :: (sig.flatMap paramPieces ++ [Piece.code ")" .closing])
        else sig.flatMap paramPieces)
    (mark : frame.paramsMark = front.length) :
    ∃ frame', (convertParams place frame head more).Gives frame' ∧
      frame'.pieces = front ++ paramList params.texts ∧ frame'.tuple = frame.tuple := by
  have before : frame.pieces.take frame.paramsMark = front := by rw [mark, pieces, List.take_left]
  have behind : frame.pieces.drop frame.paramsMark = if (paramGroup? head more).isSome then
      .code "(" .opening :: (sig.flatMap paramPieces ++ [Piece.code ")" .closing])
        else sig.flatMap paramPieces := by rw [mark, pieces, List.drop_left]
  simp only [convertParams, inside, spelled.hasTop_colon]
  cases params with
  | typed params =>
    have several : params.map TypedParam.slot ≠ [] := by simpa using Separated.values_ne_nil spelled
    obtain ⟨added, tuple⟩ := @addSlots_adds place (params.map TypedParam.slot)
      ((frame.truncate frame.paramsMark).operator place "(") several
    refine ⟨_, .bind (readSlots_typed spelled listed) (.pure _), ?_, tuple⟩
    have opened : ((frame.truncate frame.paramsMark).operator place "(").pieces =
        front ++ [Piece.code "(" .opening] := congrArg (· ++ [Piece.code "(" .opening]) before
    show _ ++ [Piece.code ")" .closing] = _
    rw [added, opened]
    simp [paramList, LambdaParams.texts, Function.comp_def, TypedParam.render_slot]
  | plain names =>
    rw [spelled.flatMap_paramPieces] at pieces behind
    simp only [LambdaParams.isTyped, Bool.false_eq_true, if_false]
    by_cases grouped : (paramGroup? head more).isSome = true
    · refine ⟨frame, by rw [if_pos grouped]; exact .pure _, ?_, rfl⟩
      rw [pieces, if_pos grouped]
      rfl
    · refine ⟨(frame.insertOpening frame.paramsMark).operator place ")",
        by rw [if_neg grouped]; exact .pure _, ?_, rfl⟩
      rw [if_neg grouped] at behind
      simp [Frame.operator, Frame.push, Frame.insertOpening, before, behind, paramList, operatorSpacing,
        LambdaParams.texts]

/-- What stands in front of the parameters is kept. -/
theorem convertParams_keeps {n : Nat} (gives : (convertParams place frame head more).Gives frame')
    (kept : n ≤ frame.paramsMark) : frame.pieces.take n <+: frame'.pieces := by
  have front : frame.pieces.take n <+: frame.pieces.take frame.paramsMark := List.take_prefix_take_left kept
  unfold convertParams at gives
  dsimp only at gives
  split at gives
  · obtain ⟨slots, -, ⟨_, ⟨⟩⟩⟩ := gives.of_bind
    have added : ((frame.truncate frame.paramsMark).operator place "(").pieces <+:
        (((frame.truncate frame.paramsMark).operator place "(").addSlots place slots).pieces := by
      cases slots with
      | nil => exact List.prefix_rfl
      | cons slot slots =>
        rw [(addSlots_adds _ (List.cons_ne_nil slot slots)).1]
        exact List.prefix_append _ _
    exact ((front.trans (List.prefix_append _ _)).trans added).trans (List.prefix_append _ _)
  · split at gives
    · obtain ⟨_, ⟨⟩⟩ := gives
      exact List.take_prefix _ _
    · obtain ⟨_, ⟨⟩⟩ := gives
      exact (front.trans (List.prefix_append _ _)).trans (List.prefix_append _ _)

end Params

/-! ## The rounds of a lambda -/

/-- The tokens are `params => result`, with blanks and comments around the result. -/
def Returns (result : String) (params ts : List Token) : Prop :=
  ∃ (arrow : Token) (gap : List Token) (e : Token) (back : List Token),
    ts = params ++ arrow :: (gap ++ e :: back) ∧ arrow.isOp "=>" = true ∧
    (∀ t ∈ gap, t.isTrivia = true) ∧ e.category = .identifier ∧ e.text = result ∧
    ∀ t ∈ back, t.isTrivia = true

section Rounds

variable {inner : Converters} {place : Place} {frame frame' : Frame} {arrow e : Token}
  {front gap back rest : List Token}

theorem nextSignificant?_gap (blank : ∀ t ∈ gap, t.isTrivia = true) (isName : e.category = .identifier) :
    nextSignificant? (gap ++ e :: rest) = some e := by
  have nothing : significant gap = [] := by simpa [significant] using blank
  have meaning : e.isTrivia = false := by simp [isTrivia, isName]
  rw [nextSignificant?_append, nothing]
  simp [nextSignificant?, skipTrivia, meaning]

/-- The round of an arrow, which a name follows. -/
theorem convertToken_arrow (isArrow : arrow.isOp "=>" = true) (blank : ∀ t ∈ gap, t.isTrivia = true)
    (isName : e.category = .identifier) {step : Flow} :
    (convertToken inner place frame arrow (gap ++ e :: rest)).Gives step ↔ ∃ front head more frame',
        (tokensBefore arrow frame.params (arrow :: (gap ++ e :: rest))).Gives front ∧
        significant front = head :: more ∧ (convertParams place frame.vary head more).Gives frame' ∧
        step = .next ((frame'.operator place "=>").markSegment.markParams (gap ++ e :: rest))
          (gap ++ e :: rest) := by
  rw [isOp_iff] at isArrow
  have noBrace : e.isOp "\x7b" = false := by simp [isOp, isName]
  obtain ⟨body, next⟩ : ∃ body, skipTrivia (gap ++ e :: rest) = e :: body := by
    have found := @nextSignificant?_gap e gap rest blank isName
    exact List.head?_eq_some_iff.1 found
  simp only [convertToken, isArrow.1, convertOperator, isArrow.2, convertLambda, next, noBrace,
    Bool.not_false, if_true]
  constructor
  · intro gives
    obtain ⟨_, -, gives⟩ := gives.of_bind
    obtain ⟨front, before, gives⟩ := gives.of_bind
    cases meaning : significant front with
    | nil =>
      rw [meaning] at gives
      obtain ⟨_, ⟨⟩⟩ := gives
    | cons head more =>
      rw [meaning] at gives
      obtain ⟨frame', converted, ⟨_, ⟨⟩⟩⟩ := gives.of_bind
      exact ⟨front, head, more, frame', before, meaning, converted, rfl⟩
  · rintro ⟨front, head, more, frame', before, meaning, converted, rfl⟩
    refine .note_bind (.bind before ?_)
    simp only [meaning]
    exact .bind converted (.pure _)

theorem Frame.leadsTo_arrow (isArrow : arrow.isOp "=>" = true) (blank : ∀ t ∈ gap, t.isTrivia = true)
    (isName : e.category = .identifier) (blank' : ∀ t ∈ back, t.isTrivia = true)
    (before : (tokensBefore arrow frame.params (arrow :: (gap ++ e :: (back ++ rest)))).Gives front)
    {head : Token} {more : List Token} (meaning : significant front = head :: more)
    (converted : (convertParams place frame.vary head more).Gives frame') :
    ∃ frame'', LeadsTo inner place frame (arrow :: (gap ++ e :: (back ++ rest))) frame'' rest ∧
      frame''.pieces = frame'.pieces ++ [Piece.code "=>" .binary, .word e.text] ∧ frame''.tuple = frame'.tuple := by
  have round := (@convertToken_arrow inner place frame arrow e gap (back ++ rest) isArrow blank isName _).2
    ⟨front, head, more, frame', before, meaning, converted, rfl⟩
  generalize arrowed : ((frame'.operator place "=>").markSegment.markParams (gap ++ e :: (back ++ rest))) =
    frame₁ at round
  have result : (convertToken inner place frame₁ e (back ++ rest)).Gives
      (.next (frame₁.word e.text).vary (back ++ rest)) := by
    simp only [convertToken, isName]
    exact .pure _
  refine ⟨(frame₁.word e.text).vary, ?_, ?_, ?_⟩
  · exact (LeadsTo.next round (Nat.le_refl _)).trans ((LeadsTo.trivia blank _ _).trans
      ((LeadsTo.next result (Nat.le_refl _)).trans (LeadsTo.trivia blank' _ _)))
  · subst arrowed
    simp [Frame.vary, Frame.word, Frame.push, Frame.markParams, Frame.markSegment, Frame.operator, operatorSpacing]
  · subst arrowed
    rfl

end Rounds

/-! ## Assignments of lambdas -/

/-- What the assignment of a lambda is converted to, in front of the `;`. -/
def lambdaPieces (name : String) (params : LambdaParams) (result : String) : List Piece :=
  [Piece.word name, .code "=" .binary] ++ paramList params.texts ++ [Piece.code "=>" .binary, .word result]

section Assignment

open Layers

variable {inner : Converters} {scope : Scope} {place : Place} {frame : Frame} {opening closing : Token}
  {name result : String} {params : LambdaParams} {n : Nat} {ps group ts rest : List Token}

theorem nextSignificant?_eq_head? (ts : List Token) : nextSignificant? ts = (significant ts).head? := by
  have found := nextSignificant?_append ts []
  rw [List.append_nil] at found
  rw [found]
  exact Option.or_none

theorem nextSignificant?_arrow {arrow : Token} (isArrow : arrow.isOp "=>" = true) :
    ∀ next ∈ nextSignificant? (arrow :: rest), next.isOpIn ["#", ",", "=>"] = true := by
  rw [isOp_iff] at isArrow
  have meaning : arrow.isTrivia = false := by simp [isTrivia, isArrow]
  simp [nextSignificant?, skipTrivia, meaning, isOpIn, isArrow]

/-- Parameters without parentheses, of which none is passed by `ref`, `in` or `out`. -/
theorem leadsTo_bare (spelled : params.Spelled (significant ps)) (listed : ∀ t ∈ ps, t.ContextListed)
    (returns : Returns result ps ts) (keeps : params.keepsStart = true) (rest : List Token) :
    ∃ frame, (Frame.assigned name (ts ++ rest)).LeadsTo inner { mode := .statement, scope } (ts ++ rest) frame
        rest ∧ (frame.finish { mode := .statement, scope }).pieces = lambdaPieces name params result := by
  obtain ⟨arrow, gap, e, back, rfl, isArrow, blank, isName, rfl, blank'⟩ := returns
  simp only [List.append_assoc, List.cons_append]
  obtain ⟨frame, leads, taken⟩ := @Frame.leadsTo_params inner { mode := .statement, scope }
    (Frame.assigned name (ps ++ arrow :: (gap ++ e :: (back ++ rest)))) (arrow :: (gap ++ e :: (back ++ rest)))
    ps (spelled.paramTokens listed) (by simp) (nextSignificant?_arrow isArrow) rfl
  have start := taken.start rfl
  rw [spelled.any_movesStart, keeps] at start
  obtain ⟨head, more, meaning, -⟩ := spelled.exists_cons
  have noGroup : paramGroup? head more = none := by
    have plain := (spelled.known head (by simp [meaning])).plain.1
    simp only [isOpener, Bool.or_eq_false_iff] at plain
    simp [paramGroup?, plain]
  obtain ⟨frame', converted, pieces, tuple⟩ := @convertParams_spelled { mode := .statement, scope } frame.vary head
    more (significant ps) params [.word name, .code "=" .binary] spelled
    (fun t member => listed t (List.mem_of_mem_filter member)) (by simp [noGroup, meaning])
    (by simpa [noGroup, Frame.vary, Frame.assigned] using taken.pieces) start.2
  have before : (tokensBefore arrow frame.params (arrow :: (gap ++ e :: (back ++ rest)))).Gives ps := by
    rw [start.1, Frame.assigned, tokensBefore_append]
    exact .pure _
  obtain ⟨frame'', leads', pieces', tuple'⟩ := @Frame.leadsTo_arrow inner { mode := .statement, scope } frame frame'
    arrow e ps gap back rest isArrow blank isName blank' before head more meaning converted
  have none : frame''.tuple = .none := tuple'.trans (tuple.trans taken.tuple)
  refine ⟨frame'', leads.trans leads', ?_⟩
  simp [Frame.finish, Frame.closeTuple, none, pieces', pieces, lambdaPieces]

theorem LambdaParams.Spelled.bracketed (spelled : params.Spelled (significant ps)) :
    WellBracketed ps ∧ WellBracketed (significant ps) := by
  have plain : ∀ t ∈ significant ps, t.isOpener = false ∧ t.isCloser = false := fun t member =>
    (spelled.known t member).plain
  refine ⟨.of_plain fun t member => ?_, .of_plain plain⟩
  by_cases trivia : t.isTrivia = true
  · exact plain_of_isTrivia trivia
  · exact plain t (List.mem_filter.2 ⟨member, by simpa using trivia⟩)

theorem convertToken_paramGroup (spelled : params.Spelled (significant ps))
    (listed : ∀ t ∈ ps, t.ContextListed) (opens : opening.isOp "(" = true) (closes : closing.isOp ")" = true)
    (short : ps.length ≤ n) (frame : Frame) (rest : List Token) :
    ∃ frame', (convertToken (standard.converters (expressionRank n)) place frame opening
        (ps ++ closing :: rest)).Gives (.next frame' rest) ∧
      frame'.pieces = frame.pieces ++
        .code "(" .opening :: ((significant ps).flatMap paramPieces ++ [Piece.code ")" .closing]) ∧
      frame'.tuple = frame.tuple ∧ frame'.params = frame.params ∧ frame'.paramsMark = frame.paramsMark := by
  have single : isDoubled ps = false := by
    obtain ⟨head, more, meaning, -⟩ := spelled.exists_cons
    have plain := (spelled.known head (by simp [meaning])).plain.1
    simp only [isOpener, Bool.or_eq_false_iff] at plain
    have next : nextSignificant? ps = some head := by rw [nextSignificant?_eq_head?, meaning]; rfl
    obtain ⟨others, skipped⟩ := List.head?_eq_some_iff.1 next
    simp [isDoubled, skipped, plain]
  obtain ⟨t, more, rfl⟩ : ∃ t more, ps = t :: more := by
    refine List.exists_cons_of_ne_nil ?_
    rintro rfl
    simpa [significant] using spelled.exists_cons
  let place' : Place :=
    { mode := .group, scope := place.scope, fence := some closing, lendsParens := holdsOneTuple (t :: more) }
  obtain ⟨inside, leads, taken⟩ := @Frame.leadsTo_params (standard.converters (expressionRank more.length))
    place' (Frame.start (t :: more)) [] (t :: more) (spelled.paramTokens listed) (by simp [place'])
    (by simp [nextSignificant?, skipTrivia]) rfl
  rw [List.append_nil] at leads
  have converted : (standard.all.expression place' (t :: more)).Gives ⟨inside.finish place', []⟩ := by
    refine (leads _ _).2 ?_
    rw [walk_nil]
    exact .pure _
  have written : (inside.finish place').pieces = (significant (t :: more)).flatMap paramPieces := by
    simp [Frame.finish, Frame.closeTuple, taken.tuple, taken.pieces, Frame.start]
  rw [convertToken_group spelled.bracketed.1 opens closes, groupedExpression, if_neg (by simp [single]),
    converters_expression_of_length short]
  refine ⟨_, .bind (.bind converted (.pure _)) (.pure _), ?_, rfl, rfl, rfl⟩
  simp [Frame.addInner, Frame.append, written]

theorem leadsTo_grouped (spelled : params.Spelled (significant ps)) (listed : ∀ t ∈ ps, t.ContextListed)
    (grouped : Groups ps group) (returns : Returns result group ts) (short : ts.length < n)
    (rest : List Token) :
    ∃ frame, (Frame.assigned name (ts ++ rest)).LeadsTo (standard.converters (expressionRank n))
        { mode := .statement, scope } (ts ++ rest) frame rest ∧
      (frame.finish { mode := .statement, scope }).pieces = lambdaPieces name params result := by
  obtain ⟨front, opening, closing, after, rfl, isFront, opens, closes, isAfter⟩ := grouped
  obtain ⟨arrow, gap, e, back, rfl, isArrow, blank, isName, rfl, blank'⟩ := returns
  simp only [List.length_append, List.length_cons] at short
  simp only [List.append_assoc, List.cons_append]
  let whole := front ++ opening :: (ps ++ closing :: (after ++ arrow :: (gap ++ e :: (back ++ rest))))
  obtain ⟨frame, round, pieces, tuple, start, mark⟩ := @convertToken_paramGroup { mode := .statement, scope }
    opening closing params n ps spelled listed opens closes (by omega) (Frame.assigned name whole)
    (after ++ arrow :: (gap ++ e :: (back ++ rest)))
  have meaning : significant (front ++ opening :: (ps ++ closing :: after)) =
      opening :: (significant ps ++ [closing]) := by
    have nothing {ts : List Token} (blank : ∀ t ∈ ts, t.isTrivia = true) : ts.filter (!·.isTrivia) = [] := by
      simpa using blank
    have kept {t : Token} {text : String} (isOp : t.isOp text = true) : t.isTrivia = false :=
      Bool.eq_false_iff.2 fun trivia => by simp [isOp_of_isTrivia trivia] at isOp
    simp [significant, nothing isFront, nothing isAfter, kept opens, kept closes]
  have group : paramGroup? opening (significant ps ++ [closing]) = some ⟨significant ps, closing, []⟩ := by
    have split : splitClose .parenthesis (significant ps ++ [closing]) = some ⟨significant ps, closing, []⟩ :=
      spelled.bracketed.2.splitClose_append closes []
    simp [paramGroup?, opens, split]
  obtain ⟨frame', converted, pieces', tuple'⟩ := @convertParams_spelled { mode := .statement, scope } frame.vary
    opening (significant ps ++ [closing]) (significant ps) params [.word name, .code "=" .binary] spelled
    (fun t member => listed t (List.mem_of_mem_filter member)) (by simp [group])
    (by simpa [group, Frame.vary, Frame.assigned] using pieces) mark
  have before : (tokensBefore arrow frame.params (arrow :: (gap ++ e :: (back ++ rest)))).Gives
      (front ++ opening :: (ps ++ closing :: after)) := by
    have parts : whole = (front ++ opening :: (ps ++ closing :: after)) ++ arrow :: (gap ++ e :: (back ++ rest)) :=
      by simp [whole]
    rw [start, Frame.assigned, parts, tokensBefore_append]
    exact .pure _
  obtain ⟨frame'', leads, pieces'', tuple''⟩ := @Frame.leadsTo_arrow (standard.converters (expressionRank n))
    { mode := .statement, scope } frame frame' arrow e (front ++ opening :: (ps ++ closing :: after)) gap back rest
    isArrow blank isName blank' before _ _ meaning converted
  have none : frame''.tuple = .none := tuple''.trans (tuple'.trans tuple)
  refine ⟨frame'', ?_, ?_⟩
  · exact (Frame.LeadsTo.trivia isFront _ _).trans ((Frame.LeadsTo.next round (by simp only [List.length_append, List.length_cons]; omega)).trans
      ((Frame.LeadsTo.trivia isAfter _ _).trans leads))
  · simp [Frame.finish, Frame.closeTuple, none, pieces'', pieces', lambdaPieces]

theorem prefix_finish (frame : Frame) (place : Place) : frame.pieces <+: (frame.finish place).pieces := by
  unfold Frame.finish Frame.closeTuple
  split
  · exact List.prefix_append _ _
  · exact List.prefix_rfl

/-- Parameters without parentheses, of which one is passed by `ref`, `in` or `out`: the first word stays
where it is. -/
theorem prefix_of_bare {semicolon : Token} (spelled : params.Spelled (significant ps))
    (listed : ∀ t ∈ ps, t.ContextListed) (returns : Returns result ps ts) (moves : params.keepsStart = false)
    (ends : semicolon.isOp ";" = true) {e : Parsed Expression}
    {finish : Frame → Reading (Parsed Expression)}
    (gives : Reading.Gives (walk (convertToken inner { mode := .statement, scope }) finish
      (Frame.assigned name (ts ++ semicolon :: rest)) (ts ++ semicolon :: rest)) e) :
    ∃ t ∈ ps, t.isWord = true ∧ ∃ spacing ∈ [Spacing.word, .keyword],
      [.word name, .code "=" .binary, .code t.text spacing] <+: e.value.pieces := by
  obtain ⟨arrow, gap, result, back, rfl, isArrow, blank, isName, rfl, blank'⟩ := returns
  simp only [List.append_assoc, List.cons_append] at gives
  obtain ⟨frame, leads, taken⟩ := @Frame.leadsTo_params inner { mode := .statement, scope }
    (Frame.assigned name (ps ++ arrow :: (gap ++ result :: (back ++ semicolon :: rest))))
    (arrow :: (gap ++ result :: (back ++ semicolon :: rest))) ps (spelled.paramTokens listed) (by simp)
    (nextSignificant?_arrow isArrow) rfl
  have start := taken.start rfl
  rw [spelled.any_movesStart, moves] at start
  have later : 3 ≤ frame.vary.paramsMark := start
  have walked := (leads finish e).1 gives
  have round := walked
  rw [walk_cons] at round
  obtain ⟨step, round, -⟩ := round.of_bind
  obtain ⟨front, head, more, frame', before, meaning, converted, -⟩ :=
    (convertToken_arrow isArrow blank isName).1 round
  obtain ⟨frame'', leads', pieces, tuple⟩ := @Frame.leadsTo_arrow inner { mode := .statement, scope } frame frame'
    arrow result front gap back (semicolon :: rest) isArrow blank isName blank' before head more meaning converted
  have last := (leads' finish e).1 walked
  rw [walk_cons, convertToken_semicolon ends rfl] at last
  obtain ⟨_, ⟨⟩⟩ := last
  obtain ⟨t, others, first, isWord⟩ := spelled.exists_cons
  obtain ⟨spacing, member, piece⟩ : ∃ spacing ∈ [Spacing.word, .keyword], t.paramPieces = [.code t.text spacing] := by
    by_cases moved : t.movesStart = true
    · exact ⟨.keyword, by simp, by simp [paramPieces, moved, Piece.keyword]⟩
    · exact ⟨.word, by simp, by simp [paramPieces, moved, isWord, Piece.word]⟩
  have front : frame.vary.pieces.take 3 = [.word name, .code "=" .binary, .code t.text spacing] := by
    show frame.pieces.take 3 = _
    rw [taken.pieces, first, List.flatMap_cons, piece]
    rfl
  have kept := convertParams_keeps converted later
  rw [front] at kept
  refine ⟨t, List.mem_of_mem_filter (first ▸ List.mem_cons_self), isWord, spacing, member, ?_⟩
  refine kept.trans (List.IsPrefix.trans ?_ (prefix_finish frame'' _))
  rw [pieces]
  exact List.prefix_append _ _

end Assignment

/-! ## The text -/

section Text

variable {settings : LayoutSettings} {before : Option Spacing}

theorem lays_spacedWord {text gap : String} (nonempty : text ≠ "")
    (spaced : (if before.any (needsSpace · .word) then " " else "") = gap) :
    Lays settings before [.word text] (gap ++ text) (some .word) := by
  refine lays_piece (by simpa [Piece.word, Piece.isBlank] using nonempty) ?_
  show (if before.any (needsSpace · .word) then " " else "") ++ (text ++ "") = gap ++ text
  rw [spaced, String.append_empty]

/-- Words with commas between them, the first of which is spaced from what comes before. -/
theorem lays_withCommas {texts : List String} {gap : String} (several : texts ≠ [])
    (nonempty : ∀ text ∈ texts, text ≠ "")
    (spaced : (if before.any (needsSpace · .word) then " " else "") = gap) :
    Lays settings before (withCommas (texts.map fun text => [.word text])) (gap ++ commaSeparated texts)
      (some .word) := by
  induction texts generalizing before gap with
  | nil => exact absurd rfl several
  | cons text texts ih =>
    obtain ⟨first, others⟩ := List.forall_mem_cons.1 nonempty
    cases texts with
    | nil => simpa [withCommas_singleton, commaSeparated] using lays_spacedWord first spaced
    | cons next texts =>
      have comma : Lays settings (some .word) [.code "," .trailing] "," (some .trailing) := lays_piece rfl rfl
      have following := @ih (some .trailing) " " (List.cons_ne_nil _ _) others rfl
      have laid := (lays_spacedWord first spaced).append (comma.append following)
      rw [List.map_cons, withCommas_cons _ (by simp)]
      convert laid using 1
      · rfl
      · rw [← String.toList_inj]
        simp [commaSeparated]

def lambdaText (settings : LayoutSettings) (f name : String) (params : LambdaParams) (result : String) : String :=
  blockReference settings 0 ("void " ++ f ++ "()")
    (lineAt settings 1 (name ++ " = (" ++ commaSeparated params.texts ++ ") => " ++ result ++ ";"))

variable {f name result : String} {params : LambdaParams}

theorem lays_wordLike {text : String} {spacing : Spacing} (nonempty : text ≠ "")
    (known : spacing ∈ [Spacing.word, .keyword]) :
    Lays settings (some .binary) [.code text spacing] (" " ++ text) (some spacing) := by
  refine lays_piece (by simpa [Piece.isBlank] using nonempty) ?_
  simp only [List.mem_cons, List.not_mem_nil, or_false] at known
  rcases known with rfl | rfl <;> simp [Piece.spacing, Piece.items, needsSpace, concat, Item.render]

/-- The first line of a function, and the indentation of the next one. -/
theorem lays_header (f : String) :
    Lays settings none (.raw ("void " ++ f ++ "()") :: .line " \x7b" :: Piece.indents 1)
      ("void " ++ f ++ "()" ++ (" \x7b" ++ settings.lineEnding.text ++ indentation settings 1)) none :=
  (lays_raw (by simp)).append ((lays_line _).append (lays_indents 1))

/-- The name that is assigned to, up to the `=`. -/
theorem lays_assigned (nonempty : name ≠ "") :
    Lays settings none [.word name, .code "=" .binary] (name ++ " =") (some .binary) := by
  have equals : Lays settings (some .word) [.code "=" .binary] " =" (some .binary) := lays_piece rfl rfl
  simpa using (@lays_spacedWord settings none name "" nonempty rfl).append equals

theorem render_lambda (name_nonempty : name ≠ "") (result_nonempty : result ≠ "") (several : params.texts ≠ [])
    (nonempty : ∀ text ∈ params.texts, text ≠ "") (f : String) :
    render settings (layout (functionPieces f (Piece.indents 1 ++
      (lambdaPieces name params result ++ [Piece.raw ";", .lineBreak])))) =
      lambdaText settings f name params result := by
  have opening : Lays settings (some .binary) [.code "(" .opening] " (" (some .opening) := lays_piece rfl rfl
  have closing : Lays settings (some .word) [.code ")" .closing] ")" (some .closing) := lays_piece rfl rfl
  have arrow : Lays settings (some .closing) [.code "=>" .binary] " =>" (some .binary) := lays_piece rfl rfl
  have semicolon : Lays settings (some .word) [.raw ";"] ";" none := lays_raw (by decide)
  have laid := (lays_header f).append ((lays_assigned name_nonempty).append (opening.append
    ((@lays_withCommas _ _ _ "" several nonempty rfl).append (closing.append (arrow.append
      ((@lays_spacedWord _ _ _ " " result_nonempty rfl).append
        (semicolon.append (lays_lineBreak.append (lays_line "\x7d")))))))))
  have parts : functionPieces f (Piece.indents 1 ++ (lambdaPieces name params result ++ [Piece.raw ";", .lineBreak])) =
      (.raw ("void " ++ f ++ "()") :: .line " \x7b" :: (Piece.indents 1 ++
        (lambdaPieces name params result ++ [Piece.raw ";", .lineBreak]))) ++ [Piece.line "\x7d"] := rfl
  rw [parts]
  apply render_layout_line
  convert laid using 1
  · simp [lambdaPieces, paramList]
  · rw [← String.toList_inj]
    simp [lambdaText, blockReference, lineAt, indentation]

/-- The text starts with the text of the first pieces. -/
theorem exists_render_append {front : List Piece} {text : String} {after : Option Spacing}
    (laid : Lays settings none front text after) (back : List Piece) (last : String) :
    ∃ more, render settings (layout (front ++ back ++ [Piece.line last])) = text ++ more := by
  obtain ⟨items, same, rfl⟩ := laid (back ++ [Piece.line last])
  obtain ⟨items', layout_eq⟩ := exists_layoutAfter_line after back last
  rw [layout, List.append_assoc, same, layout_eq, render]
  refine ⟨concat ((items' ++ [Item.fragment last]).map (Item.render settings)) ++ settings.lineEnding.text, ?_⟩
  simp [List.dropWhile_cons, Item.isBreak, Item.render, concat, String.append_assoc]

end Text

/-! ## Lambdas in functions -/

section Source

open Layers

variable {settings : LayoutSettings} {source source' f name result : String} {params : LambdaParams}
  {tokens tokens' body body' ts ts' ps ps' group : List Token}

theorem text_ne_empty_of_scan {cs rest : List Char} {lexeme : Lexeme} {id start : Nat}
    (scanned : scan cs = .ok (some (lexeme, rest))) (isWord : (lexeme.tokenAt id start).isWord = true) :
    lexeme.text ≠ "" := by
  cases scanned_of_scan scanned with
  | word nonempty =>
    intro empty
    rw [text_wordLexeme, ← String.toList_inj, String.toList_ofList] at empty
    exact nonempty empty
  | _ => cases isWord

theorem text_ne_empty_of_tokenize (read : tokenize source = .ok tokens) :
    ∀ t ∈ tokens, t.isWord = true → t.text ≠ "" :=
  (tokenize_eq_ok_iff.1 read).forall_mem fun _ _ scanned _ _ => text_ne_empty_of_scan scanned

theorem Token.Regular.not_mem_opening {t : Token} (regular : t.Regular) (isWord : t.isWord = true) :
    '(' ∉ t.text.toList := by
  intro member
  have plain : isPlainChar '(' = true := by
    unfold Token.Regular RegularText at regular
    unfold Token.isWord at isWord
    cases category : t.category <;> simp_all
  exact absurd plain (by decide)

/-- Names and parameters with types are not empty. -/
theorem LambdaParams.Spelled.texts_nonempty (spelled : params.Spelled ts)
    (words : ∀ t ∈ ts, t.isWord = true → t.text ≠ "") :
    params.texts ≠ [] ∧ ∀ text ∈ params.texts, text ≠ "" := by
  cases params with
  | plain names =>
    refine ⟨Separated.values_ne_nil spelled, ?_⟩
    have from_parts : ∀ {ts names}, Separated "," IsName ts names →
        (∀ t ∈ ts, t.isWord = true → t.text ≠ "") → ∀ text ∈ names, text ≠ "" := by
      intro ts names parts words
      induction parts with
      | single first =>
        obtain ⟨t, rfl, isName, rfl⟩ := first
        simpa [isWord, isName] using words
      | cons first _ _ ih =>
        obtain ⟨t, rfl, isName, rfl⟩ := first
        obtain ⟨first, others⟩ := List.forall_mem_cons.1 words
        exact List.forall_mem_cons.2 ⟨first (by simp [isWord, isName]), ih (List.forall_mem_cons.1 others).2⟩
    exact from_parts spelled words
  | typed params =>
    refine ⟨by simpa [texts] using Separated.values_ne_nil spelled, fun text member => ?_⟩
    obtain ⟨param, -, rfl⟩ := List.mem_map.1 member
    intro empty
    have spaced := congrArg String.toList empty
    simp [TypedParam.text] at spaced

theorem Returns.bracketed (returns : Returns result ps ts) (bracketed : WellBracketed ps) : WellBracketed ts := by
  obtain ⟨arrow, gap, e, back, rfl, isArrow, blank, isName, -, blank'⟩ := returns
  have plain : arrow.isOpener = false ∧ arrow.isCloser = false := by
    simp [isOpener, isCloser, isOp_of_isOp isArrow]
  have word := plain_of_category (show e.category ≠ .operator by simp [isName])
  exact bracketed.append (.cons plain.1 plain.2 (.append
    (.of_plain fun t member => plain_of_isTrivia (blank t member)) (.cons word.1 word.2
      (.of_plain fun t member => plain_of_isTrivia (blank' t member)))))

theorem Groups.bracketed (grouped : Groups ps group) (bracketed : WellBracketed ps) : WellBracketed group := by
  obtain ⟨front, opening, closing, back, rfl, blank, opens, closes, blank'⟩ := grouped
  exact .append (.of_plain fun t member => plain_of_isTrivia (blank t member))
    (.group .parenthesis opens bracketed closes (.of_plain fun t member => plain_of_isTrivia (blank' t member)))

theorem Returns.exists_result (returns : Returns result ps ts) :
    ps ⊆ ts ∧ ∃ e ∈ ts, e.isWord = true ∧ e.text = result := by
  obtain ⟨arrow, gap, e, back, rfl, -, -, isName, text, -⟩ := returns
  exact ⟨List.subset_append_left _ _, e, by simp, by simp [isWord, isName], text⟩

theorem Groups.subset (grouped : Groups ps group) : ps ⊆ group := by
  obtain ⟨front, opening, closing, back, rfl, -⟩ := grouped
  intro t member
  simp [member]

theorem Assigns.subset (assigned : Assigns name ts body) : ts ⊆ body := by
  obtain ⟨x, gap, equals, semicolon, rfl, -⟩ := assigned
  intro t member
  simp [member]

theorem InFunction.subset (within : InFunction f body tokens) : body ⊆ tokens := by
  obtain ⟨fn, gap, name, gap', opening, front, back, closing, rfl, -⟩ := within
  intro t member
  simp [member]

/-- A lambda in a function, whose rounds come to the right pieces. -/
theorem convert_of_lambda (spelled : params.Spelled (significant ps)) (subset : ps ⊆ ts)
    (bracketed : WellBracketed ts) (returned : ∃ e ∈ ts, e.isWord = true ∧ e.text = result)
    (assigned : Assigns name ts body) (within : InFunction f body tokens) (read : tokenize source = .ok tokens)
    (leads : ∀ n semicolon after, ts.length < n → ∃ frame,
      (Frame.assigned name (ts ++ semicolon :: after)).LeadsTo (standard.converters (expressionRank n))
        { mode := .statement, scope := ⟨.fnBody, 1, false⟩ } (ts ++ semicolon :: after) frame
        (semicolon :: after) ∧
      (frame.finish { mode := .statement, scope := ⟨.fnBody, 1, false⟩ }).pieces =
        lambdaPieces name params result) :
    convert settings source = .ok (lambdaText settings f name params result) := by
  have words := text_ne_empty_of_tokenize read
  obtain ⟨several, nonempty⟩ := spelled.texts_nonempty fun t member isWord =>
    words t (within.subset (assigned.subset (subset (List.mem_of_mem_filter member)))) isWord
  obtain ⟨e, member, isWord, rfl⟩ := returned
  obtain ⟨x, more, rfl, isName, rfl⟩ := assigned.exists_cons
  have result_nonempty := words e (within.subset (assigned.subset member)) isWord
  have name_nonempty := words x (within.subset List.mem_cons_self) (by simp [Token.isWord, isName])
  rw [convert_of_assigned read within assigned bracketed (by simp [lambdaPieces]) leads,
    render_lambda name_nonempty result_nonempty several nonempty]

/-- Text with another word behind the `=` is no lambda. -/
theorem lambdaText_ne {word more : String} (nonempty : word ≠ "") (other : '(' ∉ word.toList) :
    "void " ++ f ++ "()" ++ (" \x7b" ++ settings.lineEnding.text ++ indentation settings 1) ++
      (name ++ " =" ++ (" " ++ word)) ++ more ≠ lambdaText settings f name params result := by
  intro same
  have characters := congrArg String.toList same
  simp [lambdaText, blockReference, lineAt, indentation] at characters
  cases letters : word.toList with
  | nil => exact nonempty (String.toList_inj.1 letters)
  | cons c cs =>
    rw [letters] at characters other
    simp only [List.cons_append, List.cons.injEq] at characters
    exact other (characters.1 ▸ List.mem_cons_self)

/-- The parameters of a lambda need no parentheses, unless one of them is passed by `ref`, `in` or
`out`.  With parentheses, and without them in all other cases, a lambda that is assigned to a name is
written with its parameters in parentheses. -/
theorem convert_lambda_iff (spelled : params.Spelled (significant ps)) (bare : Returns result ps ts)
    (assigned : Assigns name ts body) (within : InFunction f body tokens) (read : tokenize source = .ok tokens)
    (spelled' : params.Spelled (significant ps')) (grouped : Groups ps' group) (inside : Returns result group ts')
    (assigned' : Assigns name ts' body') (within' : InFunction f body' tokens')
    (read' : tokenize source' = .ok tokens') (settings : LayoutSettings) :
    convert settings source' = .ok (lambdaText settings f name params result) ∧
      (convert settings source = .ok (lambdaText settings f name params result) ↔ params.keepsStart = true) := by
  obtain ⟨subset, returned⟩ := bare.exists_result
  obtain ⟨subset', returned'⟩ := inside.exists_result
  have bracketed := bare.bracketed spelled.bracketed.1
  have listed : ∀ t ∈ ps, t.ContextListed := fun t member =>
    contextListed_of_tokenize read t (within.subset (assigned.subset (subset member)))
  have listed' : ∀ t ∈ ps', t.ContextListed := fun t member =>
    contextListed_of_tokenize read' t (within'.subset (assigned'.subset (subset' (grouped.subset member))))
  refine ⟨?_, fun converted => ?_, fun keeps => ?_⟩
  · exact convert_of_lambda spelled' (fun t member => subset' (grouped.subset member))
      (inside.bracketed (grouped.bracketed spelled'.bracketed.1)) returned' assigned' within' read'
      fun n semicolon after short => leadsTo_grouped spelled' listed' grouped inside short _
  · -- The first word of the parameters would stand where the parenthesis should.
    by_contra moves
    obtain ⟨inner, finish, semicolon, after, e, more, ends, gives, text⟩ :=
      gives_of_convert read within assigned bracketed converted
    obtain ⟨t, member, isWord, spacing, known, others, pieces⟩ :=
      prefix_of_bare spelled listed bare (Bool.eq_false_iff.2 moves) ends gives
    have member : t ∈ tokens := within.subset (assigned.subset (subset member))
    have nonempty := text_ne_empty_of_tokenize read t member isWord
    obtain ⟨x, body, rfl, isName, rfl⟩ := assigned.exists_cons
    have name_nonempty := text_ne_empty_of_tokenize read x (within.subset List.mem_cons_self)
      (by simp [Token.isWord, isName])
    have laid := (lays_header f).append ((lays_assigned name_nonempty).append
      (@lays_wordLike settings t.text spacing nonempty known))
    obtain ⟨tail, rendered⟩ := exists_render_append laid (others ++ more) "\x7d"
    refine lambdaText_ne nonempty ((regular_of_tokenize read t member).not_mem_opening isWord)
      (rendered.symm.trans (Eq.trans ?_ text.symm))
    rw [← pieces]
    simp [functionPieces]
  · exact convert_of_lambda spelled subset bracketed returned assigned within read
      fun n semicolon after _ => leadsTo_bare spelled listed bare keeps _

end Source

theorem convert_lambda_iff_array : ∃ tokens tokens' body body' ts ts' ps ps' group, ∃ params : LambdaParams,
      tokenize "fn F\x7bx=params a:int#,b:T=>e;\x7d" = .ok tokens ∧
      tokenize "fn F\x7bx=(params a:int#,b:T)=>e;\x7d" = .ok tokens' ∧
      params.Spelled (significant ps) ∧ Returns "e" ps ts ∧ Assigns "x" ts body ∧ InFunction "F" body tokens ∧
      params.Spelled (significant ps') ∧ Groups ps' group ∧ Returns "e" group ts' ∧ Assigns "x" ts' body' ∧
      InFunction "F" body' tokens' ∧
      convert {} "fn F\x7bx=(params a:int#,b:T)=>e;\x7d" =
        .ok "void F() \x7b\r\n  x = (params int[] a, T b) => e;\r\n\x7d\r\n" ∧
      convert {} "fn F\x7bx=params a:int#,b:T=>e;\x7d" =
        .ok "void F() \x7b\r\n  x = (params int[] a, T b) => e;\r\n\x7d\r\n" := by
  let params : List TypedParam := [⟨some .asParams, "a", "int", 1⟩, ⟨none, "b", "T", 0⟩]
  let header := lexemeOf "fn" :: spaceLexeme :: ["F", "\x7b", "x", "="].map lexemeOf
  let list := lexemeOf "params" :: spaceLexeme :: ["a", ":", "int", "#", ",", "b", ":", "T"].map lexemeOf
  let tokens := place 0 0 (header ++ list ++ ["=>", "e", ";", "\x7d"].map lexemeOf)
  let tokens' := place 0 0 (header ++ lexemeOf "(" :: list ++ [")", "=>", "e", ";", "\x7d"].map lexemeOf)
  let token (i : Nat) : Token := tokens.getD i ⟨0, "", 0, 0, .space, none⟩
  let token' (i : Nat) : Token := tokens'.getD i ⟨0, "", 0, 0, .space, none⟩
  let ps := (tokens.drop 6).take 10
  let ts := ps ++ token 16 :: ([] ++ token 17 :: [])
  let body := token 4 :: ([] ++ token 5 :: (ts ++ [token 18]))
  have spelled : (LambdaParams.typed params).Spelled (significant ps) := by
    have parts : significant ps = ([token 6] ++ token 8 :: token 9 :: token 10 :: [token 11]) ++
      token 12 :: ([] ++ token 13 :: token 14 :: token 15 :: []) := by decide +kernel +zetaReduce
    rw [parts]
    exact .cons ⟨_, _, _, _, _, rfl, by decide +kernel +zetaReduce⟩ (by decide +kernel +zetaReduce)
      (.single ⟨_, _, _, _, _, rfl, by decide +kernel +zetaReduce⟩)
  have returns : Returns "e" ps ts := ⟨_, _, _, _, rfl, by decide +kernel +zetaReduce⟩
  have assigned : Assigns "x" ts body := ⟨_, _, _, _, rfl, by decide +kernel +zetaReduce⟩
  have within : InFunction "F" body tokens :=
    ⟨token 0, [token 1], token 2, [], token 3, [], [], token 19, by decide +kernel +zetaReduce⟩
  -- The same tokens with parentheses around the parameters.
  let ps' := (tokens'.drop 7).take 10
  let group := [] ++ token' 6 :: (ps' ++ token' 17 :: [])
  let ts' := group ++ token' 18 :: ([] ++ token' 19 :: [])
  let body' := token' 4 :: ([] ++ token' 5 :: (ts' ++ [token' 20]))
  have spelled' : (LambdaParams.typed params).Spelled (significant ps') := by
    have parts : significant ps' = ([token' 7] ++ token' 9 :: token' 10 :: token' 11 :: [token' 12]) ++
      token' 13 :: ([] ++ token' 14 :: token' 15 :: token' 16 :: []) := by decide +kernel +zetaReduce
    rw [parts]
    exact .cons ⟨_, _, _, _, _, rfl, by decide +kernel +zetaReduce⟩ (by decide +kernel +zetaReduce)
      (.single ⟨_, _, _, _, _, rfl, by decide +kernel +zetaReduce⟩)
  have grouped : Groups ps' group := ⟨_, _, _, _, rfl, by decide +kernel +zetaReduce⟩
  have returns' : Returns "e" group ts' := ⟨_, _, _, _, rfl, by decide +kernel +zetaReduce⟩
  have assigned' : Assigns "x" ts' body' := ⟨_, _, _, _, rfl, by decide +kernel +zetaReduce⟩
  have within' : InFunction "F" body' tokens' :=
    ⟨token' 0, [token' 1], token' 2, [], token' 3, [], [], token' 21, by decide +kernel +zetaReduce⟩
  obtain ⟨read, read'⟩ : tokenize "fn F\x7bx=params a:int#,b:T=>e;\x7d" = .ok tokens ∧
      tokenize "fn F\x7bx=(params a:int#,b:T)=>e;\x7d" = .ok tokens' := by decide +kernel +zetaReduce
  obtain ⟨converted', converted⟩ := convert_lambda_iff spelled returns assigned within read spelled' grouped
    returns' assigned' within' read' {}
  exact ⟨tokens, tokens', body, body', ts, ts', ps, ps', group, .typed params, read, read', spelled, returns,
    assigned, within, spelled', grouped, returns', assigned', within', converted', converted.2 rfl⟩

/-- A parameter that is passed by `ref`, and a `_` where the name of a parameter should be. -/
theorem convert_lambda_ref :
    convert {} "fn F \x7b x = (ref a: int) => e; \x7d" =
        .ok "void F() \x7b\r\n  x = (ref int a) => e;\r\n\x7d\r\n" ∧
      convert {} "fn F \x7b x = ref a: int => e; \x7d" =
        .ok "void F() \x7b\r\n  x = ref (int a) => e;\r\n\x7d\r\n" ∧
      (convert {} "fn F \x7b x = (_: int) => e; \x7d").toOption = none := by
  decide +kernel

end Sharp
