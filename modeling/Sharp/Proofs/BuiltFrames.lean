import Sharp.Proofs.Enclosing

/-!
# What a round does to a frame

A round of converting an expression changes the frame in a few ways.  They are collected here once, so that
what rounds preserve is shown by looking at each of these ways.

* `convertToken_follows`: what a round comes to.
-/

namespace Sharp

open Source Token
open Logged (Ensures)

variable {inner : Converters} {place : Place} {t semicolon : Token} {frame base : Frame}
  {ts rest : List Token} {parts : SwitchParts}

/-! ## Ends of tokens -/

theorem skipTrivia_suffix (ts : List Token) : skipTrivia ts <:+ ts := List.dropWhile_suffix _

theorem eq_of_splitSwitch (split : splitSwitch t ts = .ok parts) :
    ts = parts.subject ++ parts.opening :: (parts.inside ++ parts.closing :: parts.after) := by
  unfold splitSwitch at split
  cases opened : splitTop (·.isOp "\x7b") ts with
  | none =>
    rw [opened] at split
    cases split
  | some head =>
    rw [opened] at split
    dsimp only at split
    split at split
    · cases split
    · cases closed : splitClose .brace head.after with
      | none =>
        rw [closed] at split
        cases split
      | some body =>
        rw [closed] at split
        cases split
        rw [eq_of_splitTop opened, eq_of_splitClose closed]

theorem suffix_of_splitSwitch (split : splitSwitch t ts = .ok parts) : parts.after <:+ ts :=
  ⟨parts.subject ++ parts.opening :: (parts.inside ++ [parts.closing]), by simp [eq_of_splitSwitch split]⟩

theorem dropSignificant_suffix (count : Nat) (ts : List Token) : dropSignificant count ts <:+ ts := by
  fun_induction dropSignificant count ts with
  | case1 | case2 => exact List.suffix_rfl
  | case3 _ _ _ _ ih | case4 _ _ _ _ ih => exact ih.trans (List.suffix_cons _ _)

/-! ## Frames -/

/-- What is left after an expression is the end of its tokens. -/
def Converters.Shortens (inner : Converters) : Prop :=
  ∀ place ts, (inner.expression place ts).Ensures fun e => e.rest <:+ ts

section Frames

variable (inner : Converters) (place : Place) (t : Token) (frame : Frame)

/-- The frames that a round at the token `t` can make of `frame`.  The flag tells whether something has
been written. -/
inductive Frame.Builds : Bool → Frame → Prop
  | start : Builds false frame
  | operator {b frame' text} (before : Builds b frame') (other : text ≠ ";") :
    Builds true (frame'.operator place text)
  | word {b frame'} (before : Builds b frame') (text : String) : Builds true (frame'.word text)
  | literal {b frame'} (before : Builds b frame') (text : String) : Builds true (frame'.push (.literal text))
  | keyword {b frame'} (before : Builds b frame')
    (isKeyword : t.category = .keyword ∨ t.category = .contextKeyword) : Builds true (frame'.keyword t.text)
  /-- The parentheses around others are left out. -/
  | doubled {b frame' place' ts e notes first more} (before : Builds b frame')
    (asked : inner.expression place' ts = .done e notes) (group : place'.mode = .group)
    (starts : skipTrivia ts = first :: more) (opener : first.isOp "(" = true) : Builds true (frame'.addInner e.value)
  | addInner {frame' place' ts e notes} (before : Builds true frame')
    (asked : inner.expression place' ts = .done e notes) : Builds true (frame'.addInner e.value)
  | argument {frame' place' ts e notes} (before : Builds true frame')
    (asked : inner.expression place' ts = .done e notes) : Builds true (frame'.append e.value.pieces)
  | vary {b frame'} (before : Builds b frame') : Builds b frame'.vary
  | closeTuple {b frame'} (before : Builds b frame') : Builds b (frame'.closeTuple place)
  | markSegment {frame'} (before : Builds true frame') : Builds true frame'.markSegment
  | markParams {frame'} (before : Builds true frame') (ts : List Token) : Builds true (frame'.markParams ts)
  | connect {b frame'} (before : Builds b frame') (ts : List Token) :
    Builds true (((frame'.openTuple place).operator place ",").markParams ts)
  /-- The parameters of a lambda are written anew. -/
  | typed {b frame'} (before : Builds b frame') (slots : List Slot) : Builds true
      ((((frame'.truncate frame'.paramsMark).operator place "(").addSlots place slots).operator place ")")
  | opened {b frame'} (before : Builds b frame') :
    Builds true ((frame'.insertOpening frame'.paramsMark).operator place ")")
  | block {frame' ts pieces notes} (before : Builds true frame')
    (asked : (inner.block (place.scope.enterFn false) ts).capture = .done pieces notes) : Builds true
      ((((frame'.push (.line " \x7b")).append pieces).append (Piece.indents place.scope.level)).push (.raw "\x7d"))
  /-- A switch is written behind its subject. -/
  | switch {b frame' frame'' place' ts e notes closing arms notes'} (before : Builds b frame')
    (isKeyword : t.category = .keyword ∨ t.category = .contextKeyword) (named : t.text = "switch")
    (asked : inner.expression place' ts = .done e notes)
    (armed : convertArms inner place closing
      (((frame'.append e.value.pieces).keyword "switch").push (.line " \x7b")) arms = .done frame'' notes') :
    Builds true ((frame''.append (Piece.indents place.scope.level)).push (.raw "\x7d"))

/-- The round at `t` goes on with a frame made of `frame`, or it ends the expression with one. -/
def Flow.Builds (rest : List Token) : Flow → Prop
  | .next frame' rest' => frame.Builds inner place t true frame' ∧ (inner.Shortens → rest' <:+ rest)
  | .stop e => place.mode ≠ .group ∧ (inner.Shortens → e.rest <:+ rest) ∧
    ∃ frame', frame.Builds inner place t true frame' ∧ e.value = frame'.finish place

end Frames

/-- What is known of a value is that it was given. -/
theorem Logged.Ensures.bind_run {ω α β : Type} [Log ω] {x : Logged ω α} {f : α → Logged ω β} {P : β → Prop}
    (second : ∀ a u, x = .done a u → (f a).Ensures P) : (x >>= f).Ensures P :=
  .bind (Q := fun a => ∃ u, x = .done a u) (fun _ u done => ⟨u, done⟩) fun a given =>
    given.elim fun u done => second a u done

/-! ## Rounds -/

section Rounds

theorem convertGroup_builds :
    (convertGroup inner place frame t rest).Ensures (Flow.Builds inner place t frame rest) := by
  unfold convertGroup
  cases split : splitClose .parenthesis rest with
  | none => exact .fail _
  | some s =>
    have suffix := suffix_of_split (eq_of_splitClose split)
    refine .ite (fun doubled => .bind_run fun e notes asked => .pure ⟨?_, fun _ => suffix⟩) fun _ =>
      .bind_run fun e notes asked => .pure ⟨?_, fun _ => suffix⟩
    · unfold isDoubled at doubled
      cases starts : skipTrivia s.before with
      | nil => simp [starts] at doubled
      | cons first more =>
        simp only [starts, Bool.and_eq_true] at doubled
        exact .doubled .start asked rfl starts doubled.1
    · exact .operator (.addInner (.operator .start (by decide)) asked) (by decide)

theorem convertBraces_builds :
    (convertBraces inner place frame t rest).Ensures (Flow.Builds inner place t frame rest) := by
  unfold convertBraces
  cases split : splitClose .brace rest with
  | none => exact .fail _
  | some s =>
    refine .bind_run fun e notes asked => .pure ⟨.vary ?_, fun _ => suffix_of_split (eq_of_splitClose split)⟩
    exact .operator (.addInner (.operator .start (by decide)) asked) (by decide)

theorem convertPlainOperator_builds (other : t.text ≠ ";") :
    (convertPlainOperator place frame t rest).Ensures (Flow.Builds inner place t frame rest) := by
  unfold convertPlainOperator
  refine .ite (fun _ => .next fun _ => .pure ⟨?_, fun _ => List.suffix_rfl⟩) fun _ => .pure ⟨?_, fun _ => List.suffix_rfl⟩
  · exact .markParams (.markSegment (.operator (.closeTuple .start) other)) rest
  · split
    · exact .operator .start other
    · exact .markParams (.operator .start other) rest

theorem convertComma_builds : frame.Builds inner place t true (convertComma place frame rest) := by
  unfold convertComma
  dsimp only
  split
  · exact .markParams (.markSegment (.operator (.closeTuple .start) (by decide))) rest
  · exact .markSegment (.operator (.closeTuple .start) (by decide))

theorem convertConnector_builds :
    (convertConnector place frame t rest).Ensures (Flow.Builds inner place t frame.vary rest) :=
  .next fun _ => .pure ⟨.connect .start rest, fun _ => List.suffix_rfl⟩

theorem convertAt_builds (other : t.text ≠ ";") :
    (convertAt place frame t rest).Ensures (Flow.Builds inner place t frame rest) := by
  unfold convertAt
  cases rest with
  | nil => exact convertPlainOperator_builds other
  | cons word after =>
    refine .ite (fun _ => .pure ⟨.vary (.word .start _), fun _ => List.suffix_cons _ _⟩) fun _ => ?_
    exact convertPlainOperator_builds other

theorem afterArguments_builds (built : base.Builds inner place t true frame)
    (suffix : inner.Shortens → semicolon :: ts <:+ rest) :
    Flow.Builds inner place t base rest (afterArguments place frame semicolon ts) := by
  have later (shortens : inner.Shortens) : ts <:+ rest := (List.suffix_cons _ _).trans (suffix shortens)
  unfold afterArguments
  split
  · exact ⟨.operator built (by decide), later⟩
  · split
    case isTrue ends => exact ⟨by simp [ends.1], suffix, frame, built, rfl⟩
    case isFalse => exact ⟨built, later⟩

theorem convertArgument_builds (kind : ArgumentKind) {state : ArgumentState}
    (built : base.Builds inner place t true state.frame) (first : Token) (more : List Token) :
    (convertArgument inner kind place state first more).Ensures fun arg =>
      base.Builds inner place t true arg.value ∧ (inner.Shortens → arg.rest <:+ first :: more) := by
  cases kind with
  | type keyword =>
    unfold convertArgument
    cases split : splitTop (fun t => t.isOp "," || t.isOp ";") (first :: more) with
    | some s =>
      refine .next fun type => .pure ⟨.word built _, fun _ => ?_⟩
      rw [eq_of_splitTop split]
      exact List.suffix_append _ _
    | none => exact .next fun type => .pure ⟨.word built _, fun _ => List.nil_suffix⟩
  | expression =>
    refine .bind_run fun arg notes asked => .ite (fun _ => .fail _) fun _ => .pure ⟨?_, fun shortens => ?_⟩
    · exact @Frame.Builds.argument _ _ _ _ _ _ (first :: more) _ _ built asked
    · exact shortens _ (first :: more) arg notes asked

theorem convertArguments_builds (kind : ArgumentKind) {closer : String} (other : closer ≠ ";") (before : Token)
    (built : base.Builds inner place t true frame) :
    (convertArguments inner kind closer place frame before rest).Ensures (Flow.Builds inner place t base rest) := by
  unfold convertArguments
  refine .walk_tokens (fun state ts => base.Builds inner place t true state.frame ∧
    (inner.Shortens → ts <:+ rest)) ?_
    (fun _ _ => .fail _) ⟨built, fun _ => List.suffix_rfl⟩
  rintro state first more ⟨built, suffix⟩
  refine .bind (convertArgument_builds kind built first more) fun arg converted => ?_
  obtain ⟨frame', rest'⟩ := arg
  obtain ⟨built, taken⟩ := converted
  have left (shortens : inner.Shortens) : rest' <:+ rest := (taken shortens).trans (suffix shortens)
  cases rest' with
  | nil => exact .pure ⟨.operator built other, left⟩
  | cons next rest' =>
    refine .ite (fun _ => .pure ⟨.operator built (by decide), fun shortens => ?_⟩) fun _ => .pure ?_
    · exact (List.suffix_cons _ _).trans (left shortens)
    · exact afterArguments_builds (.operator built other) left

theorem convertIndexer_builds :
    (convertIndexer inner place frame t rest).Ensures (Flow.Builds inner place t frame.vary rest) := by
  unfold convertIndexer
  refine .next fun _ => ?_
  cases emptyParens? rest with
  | some opening => exact .fail _
  | none =>
    have opened : frame.vary.Builds inner place t true (frame.vary.operator place "[") := .operator .start (by decide)
    refine .ite (fun _ => .pure ⟨.operator opened (by decide), fun _ => List.suffix_rfl⟩) fun _ => ?_
    exact convertArguments_builds .expression (by decide) t opened

theorem convertMethodKeyword_builds :
    (convertMethodKeyword inner place frame t rest).Ensures (Flow.Builds inner place t frame rest) := by
  have alone : frame.Builds inner place t true (frame.word t.text) := .word .start t.text
  unfold convertMethodKeyword
  refine .ite (fun _ => .pure ⟨alone, fun _ => List.suffix_rfl⟩) fun _ =>
    .ite (fun _ => .pure ⟨alone, fun _ => List.suffix_rfl⟩) fun _ => .next fun _ => ?_
  exact convertArguments_builds _ (by decide) t (.operator alone (by decide))

theorem convertNewType_builds (built : base.Builds inner place t true frame) :
    (convertNewType frame t rest).Ensures (Flow.Builds inner place t base rest) := by
  have started := skipTrivia_suffix rest
  unfold convertNewType
  cases starts : skipTrivia rest with
  | nil => exact .pure ⟨built, fun _ => List.suffix_rfl⟩
  | cons first more =>
    rw [starts] at started
    refine .ite (fun _ => .pure ⟨built, fun _ => List.suffix_rfl⟩) fun _ => ?_
    cases split : splitTop (·.isOpIn newTypeEnds) (first :: more) with
    | some s =>
      rw [eq_of_splitTop split] at started
      exact .next fun type => .pure ⟨.word built _, fun _ => (List.suffix_append _ _).trans started⟩
    | none => exact .next fun type => .pure ⟨.word built _, fun _ => List.nil_suffix⟩

theorem convertFunctionType_builds :
    (convertFunctionType frame t rest).Ensures (Flow.Builds inner place t frame rest) := by
  unfold convertFunctionType
  refine .next fun type => .next fun used => ?_
  cases used with
  | nil => exact .fail _
  | cons _ used => exact .pure ⟨.word .start _, fun _ => (skipTrivia_suffix _).trans (dropSignificant_suffix _ _)⟩

theorem convertParams_builds (head : Token) (more : List Token) :
    (convertParams place frame head more).Ensures fun frame' => ∃ b, frame.Builds inner place t b frame' := by
  unfold convertParams
  refine .ite (fun _ => .next fun slots => .pure ⟨true, .typed .start slots⟩) fun _ =>
    .ite (fun _ => .pure ⟨false, .start⟩) fun _ => .pure ⟨true, .opened .start⟩

theorem convertLambda_builds :
    (convertLambda inner place frame t rest).Ensures (Flow.Builds inner place t frame.vary rest) := by
  have started := skipTrivia_suffix rest
  unfold convertLambda
  refine .next fun _ => .next fun params => ?_
  cases significant params with
  | nil => exact .fail _
  | cons head more =>
    refine .bind (@convertParams_builds inner place t _ head more) fun frame' built => ?_
    obtain ⟨b, built⟩ := built
    have arrow : frame.vary.Builds inner place t true (frame'.operator place "=>") := .operator built (by decide)
    have goesOn := arrow.markSegment.markParams rest
    cases starts : skipTrivia rest with
    | nil => exact .pure ⟨goesOn, fun _ => List.suffix_rfl⟩
    | cons first body =>
      refine .ite (fun _ => .pure ⟨goesOn, fun _ => List.suffix_rfl⟩) fun _ => ?_
      cases split : splitClose .brace body with
      | none => exact .fail _
      | some s =>
        rw [starts] at started
        refine .bind_run fun pieces notes asked => .pure ⟨(arrow.block asked).markParams s.after, fun _ => ?_⟩
        exact (suffix_of_split (eq_of_splitClose split)).trans ((List.suffix_cons _ _).trans started)

section Keywords

variable (isKeyword : t.category = .keyword ∨ t.category = .contextKeyword)
include isKeyword

theorem convertSwitchExpression_builds (named : t.text = "switch") :
    (convertSwitchExpression inner place frame t rest).Ensures (Flow.Builds inner place t frame rest) := by
  unfold convertSwitchExpression
  refine .next fun _ => ?_
  cases split : splitSwitch t rest with
  | error fault => exact .fail _
  | ok parts =>
    refine .bind_run fun subject notes asked => .next fun arms => .bind_run fun frame' notes' armed => .pure ?_
    exact ⟨.switch .start isKeyword named asked armed, fun _ => suffix_of_splitSwitch split⟩

theorem convertPlainKeyword_builds :
    (convertPlainKeyword frame t rest).Ensures (Flow.Builds inner place t frame rest) := by
  have spaced : frame.Builds inner place t true (frame.keyword t.text) := .keyword .start isKeyword
  unfold convertPlainKeyword
  refine .ite (fun _ => .next fun _ => .pure ⟨spaced.markSegment.markParams rest, fun _ => List.suffix_rfl⟩) fun _ => ?_
  refine .ite (fun _ => .pure ⟨spaced.markParams rest, fun _ => List.suffix_rfl⟩) fun _ => ?_
  exact .pure ⟨.word .start t.text, fun _ => List.suffix_rfl⟩

/-- A literal is a word.  Any other keyword makes the value vary. -/
theorem convertKeyword_builds (other : t.isLiteral = false) :
    (convertKeyword inner place frame t rest).Ensures (Flow.Builds inner place t frame.vary rest) := by
  have spaced : frame.vary.Builds inner place t true (frame.vary.keyword t.text) := .keyword .start isKeyword
  unfold convertKeyword
  refine .ite (fun literal => absurd literal (by simp [other])) fun _ => .ite (fun _ => .fail _) fun _ =>
    .ite (fun _ => convertMethodKeyword_builds) fun _ => ?_
  split
  · exact convertFunctionType_builds
  · next named => exact convertSwitchExpression_builds isKeyword named
  · exact convertNewType_builds (.word .start "new")
  · exact .pure ⟨spaced.markParams rest, fun _ => List.suffix_rfl⟩
  · exact .pure ⟨spaced.markParams rest, fun _ => List.suffix_rfl⟩
  · exact convertPlainKeyword_builds isKeyword

end Keywords

/-- What a round comes to, from the frame or from the frame that varies. -/
def Flow.Follows (inner : Converters) (place : Place) (t : Token) (frame : Frame) (rest : List Token) (flow : Flow) :
    Prop :=
  (flow = .next frame rest ∧ t.isTrivia = true) ∨
    (flow = frame.stopAt place (t :: rest) ∧ (t.isOp ";" = true ∨ place.mode = .args)) ∨
    ∃ base, (base = frame ∨ base = frame.vary) ∧ flow.Builds inner place t base rest

theorem convertToken_follows :
    (convertToken inner place frame t rest).Ensures (Flow.Follows inner place t frame rest) := by
  have built {x : Reading Flow} (builds : x.Ensures (Flow.Builds inner place t frame rest)) :
      x.Ensures (Flow.Follows inner place t frame rest) :=
    fun flow notes done => .inr (.inr ⟨frame, .inl rfl, builds flow notes done⟩)
  have varied {x : Reading Flow} (builds : x.Ensures (Flow.Builds inner place t frame.vary rest)) :
      x.Ensures (Flow.Follows inner place t frame rest) :=
    fun flow notes done => .inr (.inr ⟨frame.vary, .inr rfl, builds flow notes done⟩)
  have keywords (isKeyword : t.category = .keyword ∨ t.category = .contextKeyword) :
      (convertKeyword inner place frame t rest).Ensures (Flow.Follows inner place t frame rest) := by
    by_cases literal : t.isLiteral = true
    · rw [convertKeyword, if_pos literal]
      exact built (.pure ⟨.word .start t.text, fun _ => List.suffix_rfl⟩)
    · exact varied (convertKeyword_builds isKeyword (by simpa using literal))
  have operators (operator : t.category = .operator) :
      (convertOperator inner place frame t rest).Ensures (Flow.Follows inner place t frame rest) := by
    unfold convertOperator
    split
    · next text =>
      refine .ite (fun _ => .fail _) fun _ => .pure (.inr (.inl ⟨rfl, .inl ?_⟩))
      simp [isOp, operator, text]
    · refine .ite (fun args => .pure (.inr (.inl ⟨rfl, .inr args⟩))) fun _ => built (.pure ?_)
      exact ⟨convertComma_builds, fun _ => List.suffix_rfl⟩
    · exact built convertGroup_builds
    · exact built convertBraces_builds
    · exact .fail _
    · exact .fail _
    · exact varied convertIndexer_builds
    · exact varied convertConnector_builds
    · exact varied convertLambda_builds
    · next text => exact built (convertAt_builds (by simp [text]))
    · next other _ _ _ _ _ _ _ _ _ => exact built (convertPlainOperator_builds other)
  unfold convertToken
  cases category : t.category with
  | lineBreak | space | comment => exact .pure (.inl ⟨rfl, by simp [isTrivia, category]⟩)
  | keyword => exact keywords (.inl category)
  | contextKeyword => exact keywords (.inr category)
  | identifier => exact built (.pure ⟨.vary (.word .start t.text), fun _ => List.suffix_rfl⟩)
  | stringLiteral | rawStringLiteral | charLiteral | numberLiteral =>
    exact built (.pure ⟨.literal .start t.text, fun _ => List.suffix_rfl⟩)
  | operator => exact operators category

end Rounds

end Sharp
