import Sharp.ControlFlow.Branch
import Sharp.ControlFlow.Loop
import Sharp.ControlFlow.Try
import Sharp.Proofs.Arms
import Sharp.Proofs.StatementParts
import Sharp.Switch.Statement

/-!
# Control flow

What holds of the statements of control flow, given that it holds of what they contain: every one of
them takes the tokens it converts, and closes the lines and brackets it opens.
-/

namespace Sharp

open Source Token

variable {text words : String} {arm : Arm} {source : Source} {q : LineState} {opened : List Bracket}
  {spot : Spot} {used : Multiset String}

section Texts

variable {opened' : List Bracket}

theorem leads_start (level : Nat) (nonempty : text ≠ "") (onLine : OnLine text)
    (moved : nest opened text.toList = some opened') :
    source.Leads ⟨.quiet, opened⟩ (Piece.indents level ++ [Piece.raw text]) ⟨.quiet, opened'⟩ :=
  (leads_indents level).append (leads_raw nonempty onLine moved)

theorem leads_start_of_tidy (level : Nat) (nonempty : text ≠ "") (tidy : Tidy text) :
    source.Leads ⟨.quiet, opened⟩ (Piece.indents level ++ [Piece.raw text]) ⟨.quiet, opened⟩ :=
  leads_start level nonempty tidy.onLine (tidy.1.nest opened)

/-- The text at the start of a line can be empty where more of the line follows. -/
theorem leads_start_indented (level : Nat) (tidy : Tidy text) :
    source.Leads ⟨.quiet, opened⟩ (Piece.indents level ++ [Piece.raw text]) ⟨.indented, opened⟩ :=
  (leads_indents level).append (steady_code tidy .raw).leads_indented

theorem leads_closeParen : source.Leads ⟨q, .round :: opened⟩ [.raw ")"] ⟨.quiet, opened⟩ :=
  leads_raw (by decide) (by decide) (nest_extend (nest_closer .round))

theorem leads_semicolon : source.Leads ⟨q, opened⟩ [.raw ";"] ⟨.quiet, opened⟩ :=
  leads_raw_of_tidy (by decide) (by decide)

end Texts

section ControlFlow

variable {inner : Converters} {region : List Token} {scope : Scope} {t fence : Token} {ts rest : List Token}

/-! ## Branches -/

theorem convertGuarded_sound (inner_sound : inner.Sound source region) (words_tidy : Tidy words)
    (member : t ∈ source.tokens) (within : source.Within region ts) :
    source.DraftsFrom ts opened (convertGuarded inner words scope t ts) := by
  unfold convertGuarded
  refine .plain_bind (splitHeader_sound member within) fun head head_sound => ?_
  have words_nonempty : words ++ " " ≠ "" := by simp
  refine .emit_bind (leads_start_of_tidy _ words_nonempty (words_tidy.append (by decide))) (by simp) ?_
  refine .bind (convertCondition_sound inner_sound.expressions nofun member head_sound.found
    head_sound.before) fun _ used taken => ?_
  exact .mono (convertBody_sound inner_sound nofun head_sound.found head_sound.after)
    fun rest used' taken' => (head_sound.takes used taken).trans taken'

/-- What follows a body is found among the tokens after it. -/
def BranchFollower.Sound (source : Source) (ts : List Token) : BranchFollower → Prop
  | .elseIf t rest | .otherwise t rest => t :: rest <:+ ts ∧ source.Takes ts 0 rest
  | .other => True

theorem branchFollower_sound (within : source.Within region ts) :
    source.Drafts spot (branchFollower ts) spot fun follower used =>
      used = 0 ∧ follower.Sound source ts := by
  unfold branchFollower
  cases started : skipTrivia ts with
  | nil => exact .pure ⟨rfl, trivial⟩
  | cons t rest =>
    have t_within := started ▸ within.skipTrivia
    have suffix : t :: rest <:+ ts := started ▸ List.dropWhile_suffix _
    refine .ite (fun isElif => .pure ⟨rfl, suffix, ?_⟩) fun _ =>
      .ite (fun _ => .pure ⟨rfl, trivial⟩) fun isElse => ?_
    · exact .of_skipTrivia started (.cons (isCopiedLiteral_of_isKeyword isElif) .refl)
    have isElse : t.isKeyword "else" = true := by simpa using isElse
    cases started' : skipTrivia rest with
    | nil => exact .fail (blames_missing t_within.head _)
    | cons next more =>
      have suffix' : next :: more <:+ ts :=
        (started' ▸ List.dropWhile_suffix _ : next :: more <:+ rest).trans ((List.suffix_cons t rest).trans suffix)
      have takes (other : next.isCopiedLiteral = false) : source.Takes ts 0 more :=
        .of_skipTrivia started (.cons (isCopiedLiteral_of_isKeyword isElse)
          (.of_skipTrivia started' (.cons other .refl)))
      refine .ite (fun isIf => .pure ⟨rfl, suffix', takes (isCopiedLiteral_of_isKeyword isIf)⟩)
        fun _ => .ite (fun opens => .pure ⟨rfl, suffix', takes ?_⟩)
        fun _ => .fail (blames_missing t_within.head _)
      exact isCopiedLiteral_of_isOpIn opens

/-- The words of a further branch, and the tokens up to its condition taken. -/
def InBranches (source : Source) (rest : List Token) (words : String) (ts : List Token)
    (used : Multiset String) : Prop :=
  Tidy words ∧ ∃ t more, ts = t :: more ∧ t ∈ source.tokens ∧ source.Takes rest used more

theorem convertIfRound_sound {more : List Token} (inner_sound : inner.Sound source region)
    (words_tidy : Tidy words) (member : t ∈ source.tokens)
    (within : source.Within region rest) (taken : source.Takes rest used more) :
    source.DraftsLines opened (convertIfRound inner scope words t more)
      fun result used' => result.Meets more (InBranches source rest · · (used + used'))
        (source.Takes rest (used + used')) := by
  unfold convertIfRound
  refine .bind (convertGuarded_sound inner_sound words_tidy member (taken.within within))
    fun rest' used' taken' => ?_
  have rest'_within := taken'.within (taken.within within)
  refine .plain_bind (branchFollower_sound rest'_within) fun follower follower_sound => ?_
  cases follower with
  | other => exact .pure (by simpa using taken.trans taken')
  | elseIf next more' =>
    obtain ⟨suffix, taken''⟩ := follower_sound
    refine .pure ⟨suffix.trans taken'.suffix, by decide, next, more', rfl, (rest'_within.suffix suffix).head, ?_⟩
    simpa using (taken.trans taken').before taken''
  | otherwise next more' =>
    obtain ⟨suffix, taken''⟩ := follower_sound
    have next_within := rest'_within.suffix suffix
    refine .emit_bind (leads_start_of_tidy _ (by decide) (by decide)) (by simp) (.bind
      (convertBody_sound inner_sound nofun next_within.head next_within.tail)
      fun after used'' taken''' => .pure ?_)
    simpa [add_assoc] using (taken.trans taken').trans (taken''.after taken''')

theorem convertIf_sound (inner_sound : inner.Sound source region) (member : t ∈ source.tokens)
    (within : source.Within region rest) :
    source.DraftsFrom rest opened (convertIf inner scope t rest) := by
  unfold convertIf
  refine .walk (InBranches source rest) ?_ (fun words used invariant => ?_) ⟨by decide, t, rest, rfl, member, .refl⟩
  · rintro words t more used ⟨words_tidy, _, _, same, member, taken⟩
    obtain ⟨rfl, rfl⟩ := List.cons.inj same
    exact convertIfRound_sound inner_sound words_tidy member within taken
  · obtain ⟨-, _, _, same, -⟩ := invariant
    exact absurd same nofun

theorem convertBare_sound (inner_sound : inner.SoundBlocks source region) (isWord : t.isWord = true)
    (member : t ∈ source.tokens) (within : source.Within region rest) :
    source.DraftsFrom rest opened (convertBare inner scope t rest) := by
  unfold convertBare
  refine .plain_bind (splitHeader_sound member within) fun head head_sound => ?_
  cases started : skipTrivia head.before with
  | cons extra more =>
    exact .fail (blames_unexpected (started ▸ head_sound.before.skipTrivia).head)
  | nil =>
    have none : source.Takes head.before 0 [] := started ▸ .skipTrivia head.before
    refine .emit_bind (leads_start_indented _ (tidy_of_isWord member isWord)) (by simp) ?_
    exact (convertBraced_sound inner_sound _ head_sound.found head_sound.after).mono
      fun after used taken => (head_sound.takes 0 none).after taken

/-! ## Loops -/

/-- The clauses of a `for` are the tokens of its header. -/
structure ForClauses.Sound (source : Source) (region ts : List Token) (clauses : ForClauses) : Prop where
  start : source.Within region clauses.start
  startEnd : clauses.startEnd ∈ source.tokens
  condition : source.Within region clauses.condition
  conditionEnd : clauses.conditionEnd ∈ source.tokens
  step : source.Within region clauses.step
  takes : ∀ {used used' used''}, source.Takes clauses.start used [] →
    source.Takes clauses.condition used' [] → source.Takes clauses.step used'' [] →
    source.Takes ts (used + (used' + used'')) []

theorem splitForClauses_sound (member : t ∈ source.tokens) (within : source.Within region ts) :
    source.Drafts spot (splitForClauses t ts) spot fun clauses used =>
      used = 0 ∧ clauses.Sound source region ts := by
  have clausesMissing : source.Blames (.blame t .forClauses) := blames_blame member nofun
  unfold splitForClauses
  cases split : splitTop (·.isOp ";") ts with
  | none => exact .fail clausesMissing
  | some first =>
    obtain ⟨start, startEnd, after⟩ := within.splitTop split
    dsimp only
    cases split' : splitTop (·.isOp ";") first.after with
    | none => exact .fail clausesMissing
    | some second =>
      obtain ⟨condition, conditionEnd, step⟩ := after.splitTop split'
      dsimp only
      cases split'' : splitTop (·.isOp ";") second.after with
      | some extra => exact .fail (blames_unexpected (step.splitTop split'').2.1)
      | none =>
        refine .pure ⟨rfl, start, startEnd, condition, conditionEnd, step, ?_⟩
        intro used used' used'' startTaken conditionTaken stepTaken
        have semicolon := isCopiedLiteral_of_isOp (found_of_splitTopAt split)
        have semicolon' := isCopiedLiteral_of_isOp (found_of_splitTopAt split')
        exact (Takes.splitTop split semicolon startTaken).trans
          ((Takes.splitTop split' semicolon' conditionTaken).trans stepTaken)

theorem emitInHeader_sound (inner_sound : inner.SoundExpressions source region) (settled : q ≠ .indented)
    (member : fence ∈ source.tokens) (within : source.Within region ts) :
    source.Drafts ⟨q, opened⟩ (convertInHeader inner scope fence ts >>= emit) ⟨.loud, opened⟩
      fun _ used => source.Takes ts used [] :=
  .plain_bind (convertInHeader_sound inner_sound member within) fun _ given =>
    .emit (given.2.leads_loud settled) given.1

theorem takes_of_isAllTrivia (trivia : isAllTrivia ts = true) : source.Takes ts 0 [] := by
  have none : significant ts = [] := by simpa [isAllTrivia] using trivia
  exact .of_significant (none ▸ .refl)

section

variable (inner_sound : inner.SoundExpressions source region) (member : fence ∈ source.tokens)
  (within : source.Within region ts)
include inner_sound member within

theorem convertForStart_sound :
    source.Drafts ⟨.quiet, opened⟩ (convertForStart inner scope fence ts) ⟨.loud, opened⟩
      fun _ used => source.Takes ts used [] := by
  unfold convertForStart
  cases started : skipTrivia ts with
  | nil => exact emitInHeader_sound inner_sound nofun member within
  | cons first more =>
    refine .ite (fun _ => emitInHeader_sound inner_sound nofun member within) fun _ => ?_
    have first_within := started ▸ within.skipTrivia
    cases split : splitTop (·.isOp "=") (first :: more) with
    | none => exact .fail (blames_missing first_within.head _)
    | some s =>
      obtain ⟨declared, -, after⟩ := first_within.splitTop split
      have equals := isCopiedLiteral_of_isOp (found_of_splitTopAt split)
      refine .reading_bind (readLoopVariable_sound first_within.head declared.holds) fun text read => ?_
      have text_nonempty : text ++ " = " ≠ "" := by simp
      refine .emit_bind (leads_raw_of_tidy text_nonempty (read.2.append (by decide))) rfl ?_
      refine .mono (emitInHeader_sound inner_sound nofun member after) fun _ used taken => ?_
      exact .of_skipTrivia started ((Takes.splitTop split equals read.1).after taken)

theorem convertForClause_sound : source.Drafts ⟨q, opened⟩ (convertForClause inner scope fence ts) ⟨.loud, opened⟩
      fun _ used => source.Takes ts used [] := by
  unfold convertForClause
  refine .ite (fun trivia => ?_) fun _ => ?_
  · exact .emit (leads_semicolon.weaken (LineState.le_quiet .loud)) (takes_of_isAllTrivia trivia)
  · exact .emit_bind (leads_raw_of_tidy (by decide) (by decide)) rfl
      (emitInHeader_sound inner_sound nofun member within)

end

section

variable (inner_sound : inner.Sound source region) (member : t ∈ source.tokens) (within : source.Within region rest)
include inner_sound member within

theorem convertFor_sound : source.DraftsFrom rest opened (convertFor inner scope t rest) := by
  have moved : nest [] "for (".toList = some [.round] := by decide
  unfold convertFor
  refine .plain_bind (splitHeader_sound member within) fun head head_sound =>
    .plain_bind (splitForClauses_sound member head_sound.before) fun clauses clauses_sound =>
    .emit_bind (leads_start _ (by decide) (by decide) (nest_extend moved)) (by simp) ?_
  refine .bind (convertForStart_sound inner_sound.expressions clauses_sound.startEnd
    clauses_sound.start) fun _ used startTaken => .bind (convertForClause_sound
    inner_sound.expressions clauses_sound.conditionEnd clauses_sound.condition)
    fun _ used' conditionTaken => .bind (convertForClause_sound inner_sound.expressions
    head_sound.found clauses_sound.step) fun _ used'' stepTaken => .emit_bind leads_closeParen rfl ?_
  have headTaken := head_sound.takes _ (clauses_sound.takes startTaken conditionTaken stepTaken)
  refine .mono (convertBody_sound inner_sound nofun head_sound.found head_sound.after) fun after used taken => ?_
  simpa [add_assoc] using headTaken.trans taken

theorem convertForeach_sound : source.DraftsFrom rest opened (convertForeach inner scope t rest) := by
  unfold convertForeach
  refine .plain_bind (splitHeader_sound member within) fun head head_sound => ?_
  dsimp only
  cases split : splitTop (·.isKeyword "in") head.before with
  | none => exact .fail (blames_missing member _)
  | some s =>
    obtain ⟨declared, found, collection⟩ := head_sound.before.splitTop split
    have inWord := isCopiedLiteral_of_isKeyword (found_of_splitTopAt split)
    refine .reading_bind (readLoopVariable_sound member declared.holds) fun text read =>
      .guard (blames_missing found _) fun _ => ?_
    have tidy : Tidy (text ++ " in ") := read.2.append (by decide)
    have opening : nest [] "foreach (".toList = some [.round] := by decide
    have moved : nest opened ("foreach (" ++ text ++ " in ").toList = some (.round :: opened) := by
      rw [String.append_assoc]
      exact tidy.1.nest_after opening opened
    have onLine : OnLine ("foreach (" ++ text ++ " in ") := by
      have last : " in ".toList.getLast? = some ' ' := by decide
      rw [OnLine, String.toList_append, List.getLast?_append, last]
      simp
    refine .emit_bind (leads_start _ (by simp) onLine moved) (by simp) ?_
    refine .plain_bind (convertInHeader_sound inner_sound.expressions head_sound.found collection)
      fun pieces given => .emit_literals_bind (given.2.leads_loud (by decide))
      (.emit_bind leads_closeParen rfl ?_)
    have headTaken := head_sound.takes _ ((Takes.splitTop split inWord read.1).after given.1)
    exact .mono (convertBody_sound inner_sound (by decide) head_sound.found head_sound.after)
      fun after used taken => headTaken.trans taken

theorem convertDo_sound : source.DraftsFrom rest opened (convertDo inner scope t rest) := by
  have whileMissing := blames_missing member .whileAfterDo
  unfold convertDo
  cases started : skipTrivia rest with
  | nil => exact .fail whileMissing
  | cons word more =>
    have word_within := started ▸ within.skipTrivia
    refine .require whileMissing fun isWhile =>
      .plain_bind (splitHeader_sound word_within.head word_within.tail) fun head head_sound => ?_
    cases split : splitClose .brace head.after with
    | none => exact .fail (blames_missing head_sound.found _)
    | some body =>
      have body_within := (head_sound.after.splitClose split).1
      have opening : nest [] "do \x7b".toList = some [.curly] := by decide
      have closing : nest [.curly] "\x7d while ".toList = some [] := by decide
      refine .emit_bind ((leads_indents _).append
        (leads_line (by decide) (by decide) (nest_extend opening))) (by simp) ?_
      refine .bind (inner_sound.blocks.block _ _ body_within) fun _ used bodyTaken =>
        .emit_bind (leads_start _ (by decide) (by decide) (nest_extend closing)) (by simp) ?_
      refine .bind (convertCondition_sound inner_sound.expressions nofun word_within.head
        head_sound.found head_sound.before) fun _ used' conditionTaken =>
        .emit_bind (leads_semicolon.append (leads_lineBreak nofun)) rfl (.pure ?_)
      -- The condition stands in front of the body and is converted after it.
      have taken := (head_sound.takes used' conditionTaken).trans (.splitClose split bodyTaken)
      have whole := Takes.of_skipTrivia started (taken.cons (isCopiedLiteral_of_isKeyword isWhile))
      simpa [add_comm] using whole

end

/-! ## Handlers -/

theorem caughtType_sound (member : t ∈ source.tokens) (holds : source.Holds ts) :
    source.Finds (readCaught.caughtType t ts) fun text => source.Takes ts 0 [] ∧ Tidy text :=
  .bind (TypeExpr.readWhole_sound member holds) fun type read =>
    .pure ⟨read.1, (read.2.tidy_render type .plain).spaced_enclosed⟩

theorem readCaught_sound (member : t ∈ source.tokens) (holds : source.Holds ts) :
    source.Finds (readCaught t ts) fun text => source.Takes ts 0 [] ∧ Tidy text := by
  rcases ts with _ | ⟨name, _ | ⟨colon, typePart⟩⟩
  · exact .pure ⟨.refl, by decide⟩
  · exact caughtType_sound member holds
  · rw [readCaught]
    obtain ⟨name_member, colon_member, type_holds⟩ : name ∈ source.tokens ∧
      colon ∈ source.tokens ∧ source.Holds typePart := by simpa using holds
    refine .iteNot (fun _ => caughtType_sound member holds) fun isColon =>
      .require (Source.blames_unexpected name_member) fun isName => ?_
    have isWord := Token.isWord_of_isNameLike isName
    refine .note_bind name_member (Token.canPlay_of_isNameLike isName _) ?_
    have name_tidy := Source.tidy_of_isWord name_member isWord
    refine .bind (TypeExpr.readWhole_sound colon_member type_holds) fun type read => .pure ⟨?_, ?_⟩
    · exact (read.1.cons (Token.isCopiedLiteral_of_isOp isColon)).cons (Token.isCopiedLiteral_of_isWord isWord)
    · have declared : Tidy (type.render .plain ++ " " ++ name.text) :=
        ((read.2.tidy_render type .plain).append (by decide)).append name_tidy
      simpa only [String.append_assoc] using declared.spaced_enclosed

theorem emitNonempty_sound (tidy : Tidy text) :
    source.DraftsLines opened (convertCatchHeader.emitNonempty text) fun _ used => used = 0 ∧ True := by
  unfold convertCatchHeader.emitNonempty
  refine .ite (fun _ => .pure ⟨rfl, trivial⟩) fun nonempty => .emit ?_ ⟨rfl, trivial⟩
  exact leads_raw_of_tidy (by simpa using nonempty) tidy

theorem convertCatchHeader_sound (inner_sound : inner.SoundExpressions source region)
    (member : t ∈ source.tokens) (fence_member : fence ∈ source.tokens)
    (within : source.Within region ts) :
    source.Drafts ⟨.quiet, opened⟩ (convertCatchHeader inner scope t fence ts) ⟨.loud, opened⟩
      fun _ used => source.Takes ts used [] := by
  unfold convertCatchHeader
  cases split : splitTop (·.isOp "*") ts with
  | none =>
    refine .reading_bind (readCaught_sound member within.holds.significant) fun text read => ?_
    refine ((emitNonempty_sound read.2).weaken (LineState.le_quiet .loud)).mono fun _ used none => ?_
    rw [none.1]
    exact .of_significant read.1
  | some s =>
    obtain ⟨caught, found, condition⟩ := within.splitTop split
    have star := isCopiedLiteral_of_isOp (found_of_splitTopAt split)
    refine .reading_bind (readCaught_sound member caught.holds.significant) fun text read =>
      .plain_bind (emitNonempty_sound read.2) fun _ _ =>
      .emit_bind (leads_raw_of_tidy (by decide) (by decide)) rfl ?_
    exact .mono (convertCondition_sound inner_sound nofun found fence_member condition)
      fun _ used taken => (Takes.splitTop split star (.of_significant read.1)).after taken

theorem convertKeywordBlock_sound (inner_sound : inner.SoundBlocks source region) (isWord : t.isWord = true)
    (member : t ∈ source.tokens) (within : source.Within region ts) :
    source.DraftsFrom ts opened (convertKeywordBlock inner scope t ts) := by
  have missing := blames_missing member .leftBrace
  unfold convertKeywordBlock
  cases started : skipTrivia ts with
  | nil => exact .fail missing
  | cons opening more =>
    have opening_within := started ▸ within.skipTrivia
    refine .require missing fun isBrace =>
      .emit_bind (leads_start_indented _ (tidy_of_isWord member isWord)) (by simp) ?_
    refine (convertBraced_sound inner_sound _ opening_within.head opening_within.tail).mono
      fun after used taken => .of_skipTrivia started ?_
    exact taken.cons (isCopiedLiteral_of_isOp isBrace)

theorem convertCatch_sound (inner_sound : inner.Sound source region) (member : t ∈ source.tokens)
    (within : source.Within region ts) :
    source.DraftsFrom ts opened (convertCatch inner scope t ts) := by
  unfold convertCatch
  refine .plain_bind (splitHeader_sound member within) fun head head_sound =>
    .emit_bind (leads_start_of_tidy _ (by decide) (by decide)) (by simp) ?_
  refine .bind (convertCatchHeader_sound inner_sound.expressions member head_sound.found
    head_sound.before) fun _ used headTaken => ?_
  exact (convertBraced_sound inner_sound.blocks _ head_sound.found head_sound.after).mono
    fun after used' taken => (head_sound.takes used headTaken).trans taken

/-- The handlers up to some tokens have been taken, and the trivia after them. -/
def Handled.Takes (source : Source) (whole : List Token) (handled : Handled) (ts : List Token)
    (used : Multiset String) : Prop :=
  source.Takes whole used handled.rest ∧ source.Takes handled.rest 0 ts

section

variable (inner_sound : inner.Sound source region)
include inner_sound

theorem convertHandlerRound_sound {handled : Handled} (within : source.Within region ts)
    (taken : handled.Takes source ts (t :: rest) used) :
    source.DraftsLines opened (convertHandlerRound inner scope handled t rest)
      fun result used' => result.Meets rest (Handled.Takes source ts · · (used + used'))
        (source.Takes ts (used + used') ·.rest) := by
  obtain ⟨first, second⟩ := taken
  have t_within := second.within (first.within within)
  unfold convertHandlerRound
  refine .ite (fun trivia => .pure ⟨List.suffix_rfl, ?_, ?_⟩) fun _ => .ite (fun isCatch => ?_)
    fun _ => .ite (fun isFinally => ?_) fun _ => .pure (by simpa using first)
  · simpa using first
  · exact second.before (.cons (isCopiedLiteral_of_isTrivia trivia) .refl)
  · have t_taken := (first.before second).before (.cons (isCopiedLiteral_of_isKeyword isCatch) .refl)
    refine .bind (convertCatch_sound inner_sound t_within.head t_within.tail)
      fun after used' taken' => .pure ⟨taken'.suffix, ?_, .refl⟩
    simpa using t_taken.trans taken'
  · have t_taken := (first.before second).before (.cons (isCopiedLiteral_of_isKeyword isFinally) .refl)
    refine .bind (convertKeywordBlock_sound inner_sound.blocks
      (isWord_of_isKeyword isFinally) t_within.head t_within.tail)
      fun after used' taken' => .pure ?_
    simpa using t_taken.trans taken'

theorem convertHandlers_sound (within : source.Within region ts) :
    source.DraftsLines opened (convertHandlers inner scope ts)
      fun handled used => source.Takes ts used handled.rest := by
  unfold convertHandlers
  refine .walk (fun (handled : Handled) rest used => handled.Takes source ts rest used)
    (fun handled t rest used taken => convertHandlerRound_sound inner_sound within taken)
    (fun handled used taken => .pure ?_) ⟨.refl, .refl⟩
  simpa using taken.1

theorem convertTry_sound (isWord : t.isWord = true) (member : t ∈ source.tokens) (within : source.Within region rest) :
    source.DraftsFrom rest opened (convertTry inner scope t rest) := by
  unfold convertTry
  refine .bind (convertKeywordBlock_sound inner_sound.blocks isWord member within)
    fun after used taken => .bind (convertHandlers_sound inner_sound (taken.within within))
    fun handled used' taken' => .guard (blames_missing member _) fun _ => .pure ?_
  simpa using taken.trans taken'

end

/-! ## Switch statements -/

theorem convertSectionHead_sound (inner_sound : inner.SoundExpressions source region) (arm_sound : arm.Sound source region) :
    source.DraftsLines opened (convertSectionHead inner scope arm) fun _ _ => True := by
  have ends : source.Leads ⟨.quiet, opened⟩ [.lineBreak] ⟨.quiet, opened⟩ :=
    leads_lineBreak nofun
  unfold convertSectionHead
  refine .emit_bind (leads_indents _) (by simp) (.ite (fun _ => ?_) fun _ => ?_)
  · exact .emit_bind (leads_raw_of_tidy (by decide) (by decide)) rfl (.emit ends trivial)
  · exact .emit_bind (leads_raw_of_tidy (by decide) (by decide)) rfl (.plain_bind
      (convertInHeader_sound inner_sound arm_sound.arrow arm_sound.pattern) fun pieces given =>
      .emit_literals_bind (given.2.leads_loud nofun)
      (.emit_bind (leads_raw_of_tidy (by decide) (by decide)) rfl (.emit ends trivial)))

section

variable (inner_sound : inner.Sound source region)
include inner_sound

theorem convertSectionBody_sound (arm_sound : arm.Sound source region) :
    source.DraftsLines opened (convertSectionBody inner scope arm) fun _ _ => True := by
  unfold convertSectionBody
  refine .ite (fun _ => ?_) fun _ => ?_
  · have body := arm_sound.body.part (List.prefix_append _ _).isInfix
    exact (inner_sound.blocks.block scope opened body).mono fun _ _ _ => trivial
  · have body := arm_sound.body
    cases whole : arm.body ++ arm.separator.toList with
    | nil => exact .pure trivial
    | cons first more =>
      rw [whole] at body
      refine .bind (inner_sound.statements scope {} first more opened Modifiers.sound_empty body)
        fun statement used given => ?_
      exact .ofExcept given.pending.ensureEmpty fun _ _ => trivial

theorem convertSection_sound (arm_sound : arm.Sound source region) :
    source.DraftsLines opened (convertSection inner scope arm) fun _ _ => True := by
  unfold convertSection
  refine .bind (convertSectionHead_sound inner_sound.expressions arm_sound) fun _ _ _ =>
    .bind (convertSectionBody_sound inner_sound arm_sound) fun _ _ _ =>
    .ite (fun _ => .emit ?_ trivial) fun _ => .pure trivial
  exact (leads_indents _).append (leads_line_of_tidy (by decide) (by decide))

theorem convertSections_sound {arms : List Arm} (arms_sound : ∀ arm ∈ arms, arm.Sound source region) :
    source.DraftsLines opened (convertSections inner scope arms) fun _ _ => True := by
  induction arms with
  | nil => exact .pure trivial
  | cons arm arms ih =>
    obtain ⟨arm_sound, others_sound⟩ := List.forall_mem_cons.1 arms_sound
    exact .bind (convertSection_sound inner_sound arm_sound) fun _ _ _ => ih others_sound

theorem convertSwitch_sound (isSwitch : t.isKeyword "switch" = true) (member : t ∈ source.tokens)
    (within : source.Within region rest) :
    source.DraftsFrom rest opened (convertSwitch inner scope t rest) := by
  have checks := splitSwitch_sound member within
  unfold convertSwitch
  cases split : splitSwitch t rest with
  | error fault => exact .fail (checks.blames split)
  | ok parts =>
    have parts_sound := checks.holds split
    refine .emit_bind (leads_start_of_tidy _ (by decide) (by decide)) (by simp) (.bind
      (convertCondition_sound inner_sound.expressions nofun member parts_sound.opening
        parts_sound.subject) fun _ _ _ => .emit_bind leads_openBrace rfl ?_)
    refine .reading_bind (splitArms_sound true parts_sound.inside) fun arms arms_sound =>
      .bind (convertSections_sound inner_sound arms_sound) fun _ _ _ =>
      .emit_bind (leads_closeBrace _) (by simp [closeBrace]) (.pure ?_)
    exact .of_suffix (not_direct_of_switch isSwitch member) parts_sound.after

end

end ControlFlow

end Sharp
