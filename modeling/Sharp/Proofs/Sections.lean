import Sharp.Proofs.JumpStatements
import Sharp.Proofs.OpenBodies

/-!
# Sections of a switch

Each arm of a switch statement becomes a section, which must not run into the next one.

* `convertSwitch_sections`: when the sections of a switch end in a jump.
-/

namespace Sharp

open Layers Token
open Logged (Ensures)

/-! ## The statements of a block -/

/-- The first token of a statement, and the tokens after it. -/
structure StatementStart where
  first : Token
  rest : List Token

/-- The statements of a block for which something is written; `pending` are the modifiers in front of the
first one. -/
inductive BlockStatements (scope : Scope) : Modifiers → List Token → List StatementStart → Prop where
  | done {pending : Modifiers} : BlockStatements scope pending [] []
  | blank {pending : Modifiers} {t : Token} {rest : List Token} {statements : List StatementStart}
      (trivia : t.isTrivia = true) (others : BlockStatements scope pending rest statements) :
      BlockStatements scope pending (t :: rest) statements
  | silent {pending : Modifiers} {t : Token} {rest : List Token} {statement : Parsed Statement}
      {output : Output} {statements : List StatementStart} (significant : t.isTrivia = false)
      (converted : standard.all.statementFrom scope pending t rest = .done statement output)
      (nothing : output.pieces = [])
      (others : BlockStatements scope statement.value.pending (skipSemicolons statement.rest) statements) :
      BlockStatements scope pending (t :: rest) statements
  | written {pending : Modifiers} {t : Token} {rest : List Token} {statement : Parsed Statement}
      {output : Output} {statements : List StatementStart} (significant : t.isTrivia = false)
      (converted : standard.all.statementFrom scope pending t rest = .done statement output)
      (something : output.pieces ≠ [])
      (others : BlockStatements scope statement.value.pending (skipSemicolons statement.rest) statements) :
      BlockStatements scope pending (t :: rest) (⟨t, rest⟩ :: statements)

/-- The last statement ends in a header, which takes what follows for its body. -/
def LeftOpen (scope : Scope) (statements : List StatementStart) : Prop :=
  ∃ last ∈ statements.getLast?, StatementOpen scope last.first last.rest

/-- The last statement is a jump, and the one in front of it does not take it for its body. -/
def EndInJump (scope : Scope) (statements : List StatementStart) : Prop :=
  ∃ front last, statements = front ++ [last] ∧ last.first.leaves scope last.rest = true ∧ ¬ LeftOpen scope front

section Blocks

variable {scope : Scope} {pending : Modifiers} {t : Token} {ts rest : List Token} {statements : List StatementStart}

theorem BlockStatements.dropBlanks (found : BlockStatements scope pending (ts.dropWhile isBlank) statements) :
    BlockStatements scope pending ts statements := by
  induction ts with
  | nil => exact found
  | cons t ts ih =>
    cases blank : t.isBlank with
    | true =>
      rw [List.dropWhile_cons_of_pos blank] at found
      exact .blank (isTrivia_of_isBlank blank) (ih found)
    | false => rwa [List.dropWhile_cons_of_neg (by simp [blank])] at found

theorem leftOpen_snoc (statements : List StatementStart) (t : Token) (rest : List Token) :
    LeftOpen scope (statements ++ [⟨t, rest⟩]) ↔ StatementOpen scope t rest := by
  simp [LeftOpen]

theorem endInJump_snoc (statements : List StatementStart) (t : Token) (rest : List Token) :
    EndInJump scope (statements ++ [⟨t, rest⟩]) ↔ t.leaves scope rest = true ∧ ¬ LeftOpen scope statements := by
  constructor
  · rintro ⟨front, last, same, leaves, whole⟩
    obtain ⟨rfl, ⟨⟩⟩ := List.append_inj' same rfl
    exact ⟨leaves, whole⟩
  · rintro ⟨leaves, whole⟩
    exact ⟨statements, ⟨t, rest⟩, rfl, leaves, whole⟩

/-- A jump has no body. -/
theorem EndInJump.not_leftOpen (ends : EndInJump scope statements) : ¬ LeftOpen scope statements := by
  obtain ⟨front, ⟨t, rest⟩, rfl, leaves, -⟩ := ends
  rw [leftOpen_snoc]
  intro stays
  refine not_statementGap (fun _ listed => ?_) stays.statementGap
  have apart : ∀ word ∈ "if" :: singleHeaderWords, word ∉ jumpWords := by decide
  simp [leaves_of_unlisted rest (apart _ listed)] at leaves

end Blocks

/-! ## Reading the output -/

/-- What a scan finds out about the pieces agrees with the statements that they are written for. -/
structure ScanAgrees (scope : Scope) (pieces : List Piece) (statements : List StatementStart) : Prop where
  depth : (JumpScan.run scope.level {} pieces).depth = 0
  running : (JumpScan.run scope.level {} pieces).running = false
  due : (JumpScan.run scope.level {} pieces).due = true ↔ LeftOpen scope statements
  jump : (JumpScan.run scope.level {} pieces).jump = true ↔ EndInJump scope statements

/-- Outside blocks and behind a whole line, blank lines change nothing. -/
theorem JumpScan.run_lineBreaks {top : Nat} {scan : JumpScan} (outside : scan.depth = 0)
    (ended : scan.running = false) (count : Nat) : scan.run top (List.replicate count .lineBreak) = scan := by
  obtain ⟨depth, level, fresh, running, due, jump⟩ := scan
  cases outside
  cases ended
  induction count with
  | zero => rfl
  | succ count ih =>
    rw [List.replicate_succ, JumpScan.run_cons]
    have same : JumpScan.step top ⟨0, level, fresh, false, due, jump⟩ .lineBreak =
        ⟨0, level, fresh, false, due, jump⟩ := by
      simp [JumpScan.step, JumpScan.leave, Piece.kind]
    rw [same, ih]

/-- Behind a whole line, a comment changes nothing but the place in the line. -/
theorem JumpScan.run_comment {top : Nat} {scan : JumpScan} (outside : scan.depth = 0)
    (ended : scan.running = false) (level : Nat) (text : String) :
    ∃ line fresh, scan.run top (commentPieces level text) = { scan with level := line, fresh } := by
  obtain ⟨depth, line, fresh, running, due, jump⟩ := scan
  cases outside
  cases ended
  have stays (line : Nat) (fresh : Bool) :
      JumpScan.run top ⟨0, line, fresh, false, due, jump⟩ [.comment text, .lineBreak] =
        ⟨0, line, fresh, false, due, jump⟩ := by
    simp [JumpScan.run, JumpScan.step, JumpScan.leave, Piece.kind]
  unfold commentPieces
  cases level with
  | zero => exact ⟨line, fresh, stays line fresh⟩
  | succ level => exact ⟨level + 1, true, stays (level + 1) true⟩

namespace ScanAgrees

variable {scope : Scope} {pieces back : List Piece} {statements : List StatementStart} {gap : Prop}
  {t : Token} {rest : List Token}

theorem nil (scope : Scope) : ScanAgrees scope [] [] :=
  ⟨rfl, rfl, by simp [JumpScan.run, LeftOpen], by simp [JumpScan.run, EndInJump]⟩

theorem endsWithJump_iff (agrees : ScanAgrees scope pieces statements) :
    endsWithJump scope.level pieces = true ↔ EndInJump scope statements := by
  have outside := agrees.depth
  simp only [endsWithJump, Bool.and_eq_true, Bool.not_eq_true', beq_iff_eq, outside, true_and,
    ← Bool.not_eq_true, agrees.due, agrees.jump]
  exact ⟨And.right, fun ends => ⟨ends.not_leftOpen, ends⟩⟩

theorem snoc (agrees : ScanAgrees scope pieces statements) (positive : 0 < scope.level)
    (written : StatementPieces gap scope.level back)
    (ended : EndsOpen scope.level back (StatementOpen scope t rest))
    (starts : startsWithJump back = t.leaves scope rest) :
    ScanAgrees scope (pieces ++ back) (statements ++ [⟨t, rest⟩]) := by
  have passes := written.run_jumpScan agrees.depth positive (Nat.le_refl _)
  have due := ended _ (Nat.le_refl _) _ agrees.depth
  rw [← JumpScan.run_append] at passes due
  refine ⟨passes.depth, passes.running, ?_, ?_⟩
  · rw [due, leftOpen_snoc]
  · rw [passes.jump, starts, endInJump_snoc, ← agrees.due]
    simp [and_comm]

section

variable (agrees : ScanAgrees scope pieces statements)
include agrees

theorem lineBreaks (count : Nat) : ScanAgrees scope (pieces ++ List.replicate count .lineBreak) statements := by
  have same : JumpScan.run scope.level {} (pieces ++ List.replicate count .lineBreak) =
      JumpScan.run scope.level {} pieces := by
    rw [JumpScan.run_append, JumpScan.run_lineBreaks agrees.depth agrees.running]
  obtain ⟨depth, running, due, jump⟩ := agrees
  rw [← same] at depth running due jump
  exact ⟨depth, running, due, jump⟩

theorem comment (level : Nat) (text : String) :
    ScanAgrees scope (pieces ++ commentPieces level text) statements := by
  obtain ⟨line, fresh, same⟩ :=
    @JumpScan.run_comment scope.level _ agrees.depth agrees.running level text
  rw [← JumpScan.run_append] at same
  refine ⟨?_, ?_, ?_, ?_⟩
  · rw [same]
    exact agrees.depth
  · rw [same]
    exact agrees.running
  · rw [same]
    exact agrees.due
  · rw [same]
    exact agrees.jump

/-- A `break` that is added ends the statements, unless a header takes it for its body. -/
theorem endsWithJump_break_iff (positive : 0 < scope.level) :
    endsWithJump scope.level (pieces ++ (Piece.indents scope.level ++ [Piece.line "break;"])) = true ↔
      ¬ LeftOpen scope statements := by
  have line : StatementPieces False scope.level (Piece.indents scope.level ++ [Piece.line "break;"]) := .line "break"
  have starts : startsWithJump (Piece.indents scope.level ++ [Piece.line "break;"]) = true := by
    rw [startsWithJump_indents positive]
    decide
  have passes := line.run_jumpScan agrees.depth positive (Nat.le_refl _)
  rw [← JumpScan.run_append, starts] at passes
  have whole := Bool.eq_false_iff.2 passes.due
  simp only [endsWithJump, whole, passes.jump, passes.depth, ← agrees.due]
  simp

end

end ScanAgrees

/-! ## Blocks -/

/-- The tokens of the source are those of a text: no name among them is reserved. -/
def Source.Unreserved (source : Source) : Prop := ∀ t ∈ source.tokens, t.Unreserved

section Converting

variable {source : Source} {scope : Scope} {pending : Modifiers} {t : Token} {ts rest : List Token}
  {rank : Nat} {front : List Piece}

/-- What is written for a statement in a function is found in a scan. -/
theorem statementFrom_scanned (isFn : scope.isFn = true) (positive : 0 < scope.level)
    (significant : t.isTrivia = false) (unreserved : ∀ t' ∈ t :: rest, t'.Unreserved) :
    ((standard.converters rank).statementFrom scope pending t rest).Emits fun statement pieces =>
      statement.value.entered = none ∧ ∀ {front statements}, ScanAgrees scope front statements →
        ScanAgrees scope (front ++ pieces) (statements ++ if pieces = [] then [] else [⟨t, rest⟩]) := by
  have starts : ((standard.converters rank).statementFrom scope pending t rest).Emits fun _ pieces =>
      startsWithJump pieces = t.leaves scope rest := by
    rw [converters]
    refine .ite (fun below => ?_) fun _ => .fail _
    exact convertStatement_startsWithJump (writesStatements _) (leadsStatements _) isFn positive significant unreserved
  have written := ((writesStatements rank).statementFrom scope pending t rest isFn).and
    ((endsStatements rank).statementFrom scope pending t rest isFn positive)
  refine (written.and starts).mono ?_
  rintro statement pieces ⟨⟨⟨entered, written⟩, ended⟩, starts⟩
  refine ⟨entered, ?_⟩
  intro front statements agrees
  by_cases nothing : pieces = []
  · simpa [nothing] using agrees
  · rw [if_neg nothing]
    have whole : StatementPieces (StatementGap scope t rest) scope.level pieces := by
      rw [Writes] at written
      split at written
      · exact absurd written nothing
      · exact written.resolve_left fun silent => nothing silent.1
    exact agrees.snoc positive whole (ended.resolve_left nothing) starts

/-- The statements of the block `whole` so far have been found, and the others are in the tokens `ts`. -/
structure BlockProgress (source : Source) (scope : Scope) (whole : List Token) (state : BlockState)
    (ts : List Token) (front : List Piece) : Prop where
  stays : state.scope = scope
  holds : source.Holds ts
  pending : state.pending.Sound source
  found : ∃ statements, ScanAgrees scope front statements ∧ ∀ later,
    BlockStatements scope state.pending ts later → BlockStatements scope {} whole (statements ++ later)

section

variable (unreserved : source.Unreserved) (isFn : scope.isFn = true) (positive : 0 < scope.level)
include unreserved isFn positive

theorem convertBlockRound_progress {whole : List Token} {state : BlockState}
    (progress : BlockProgress source scope whole state (t :: rest) front) :
    (convertBlockRound (standard.converters rank) state t rest).Emits fun step back =>
      step.Keeps (fun state' rest' => BlockProgress source scope whole state' rest' (front ++ back))
        fun _ => False := by
  obtain ⟨scope', pending⟩ := state
  obtain ⟨rfl, holds, sound, statements, agrees, found⟩ := progress
  obtain ⟨-, others⟩ := Source.holds_cons.1 holds
  have blank {later : List StatementStart} (trivia : t.isTrivia = true)
      (left : BlockStatements scope' pending rest later) : BlockStatements scope' {} whole (statements ++ later) :=
    found later (.blank trivia left)
  unfold convertBlockRound
  cases category : t.category with
  | lineBreak =>
    have trivia : t.isTrivia = true := by simp [Token.isTrivia, category]
    refine .emit_bind (.pure ⟨rfl, others.sublist (List.dropWhile_sublist _), sound, statements, ?_, ?_⟩)
    · simpa [blankLines] using agrees.lineBreaks _
    · exact fun later left => blank trivia left.dropBlanks
  | space =>
    have trivia : t.isTrivia = true := by simp [Token.isTrivia, category]
    exact .pure ⟨rfl, others, sound, statements, by simpa using agrees, fun later => blank trivia⟩
  | comment =>
    have trivia : t.isTrivia = true := by simp [Token.isTrivia, category]
    refine .emit_bind (.pure ⟨rfl, others, sound, statements, ?_, fun later => blank trivia⟩)
    simpa using agrees.comment _ _
  | _ =>
    have significant : t.isTrivia = false := by simp [Token.isTrivia, category]
    have scanned := @statementFrom_scanned scope' pending t rest rank isFn positive significant
      fun t' member => unreserved t' (holds t' member)
    refine .bind scanned.with_run ?_
    rintro statement pieces ⟨⟨entered, scanned⟩, output, done, same⟩
    refine .pure ?_
    have run := result_all_of_done (.statement scope' pending t rest) done
    obtain ⟨completes, -⟩ : Statement.Completes source t rest statement _ ∧ _ := by
      have drafts := ((standard_sound source).all _).statements scope' pending t rest [] sound holds.within
      change standard.all.statementFrom scope' pending t rest = .done statement output at run
      rw [run] at drafts
      exact drafts
    refine ⟨by simp [Statement.scopeAfter, entered],
      others.suffix ((List.dropWhile_suffix _).trans completes.suffix), completes.pending,
      statements ++ if pieces = [] then [] else [⟨t, rest⟩], by simpa using scanned agrees, fun later left => ?_⟩
    rw [List.append_assoc]
    apply found
    -- A statement for which nothing is written leaves only its modifiers to the next one.
    by_cases nothing : pieces = []
    · rw [if_pos nothing]
      exact .silent significant run (same.trans nothing) left
    · rw [if_neg nothing]
      exact .written significant run (same ▸ nothing) left

/-- What is written for a block in a function ends as its statements do. -/
theorem convertBlock_scanned (holds : source.Holds ts) :
    (convertBlock (standard.converters rank) scope ts).Emits fun _ pieces => ∃ statements,
      BlockStatements scope {} ts statements ∧ ScanAgrees scope pieces statements := by
  unfold convertBlock
  -- Each round extends the statements found; what is left in the tokens is the rest of the block.
  refine .walk (BlockProgress source scope ts) ?_ ?_
    ⟨rfl, holds, Modifiers.sound_empty, [], .nil scope, fun later left => left⟩
  · intro state t rest front progress
    refine (convertBlockRound_progress unreserved isFn positive progress).mono fun step back kept => ?_
    cases step with
    | next state' rest' => exact kept
    | stop value => exact kept.elim
  · rintro state front ⟨-, -, -, statements, agrees, found⟩
    refine .check fun _ _ => ⟨statements, ?_, by simpa using agrees⟩
    simpa using found [] .done

end

end Converting

/-! ## Arms -/

/-- A body without braces starts with a token that carries meaning and separates nothing. -/
def Arm.IsStarted (arm : Arm) : Prop :=
  arm.isBlock = false → ∃ first more, arm.body = first :: more ∧ first.isTrivia = false ∧
    first.isArmSeparator = false

theorem splitArmBody_started {blocks : Bool} {head : Split} {first : Token} {more : List Token}
    (significant : first.isTrivia = false) {arm : Parsed Arm}
    (split : splitArmBody blocks head first more = .ok arm) : arm.value.IsStarted := by
  unfold splitArmBody at split
  split at split
  · cases closed : splitClose .brace more with
    | none => simp [closed] at split
    | some body =>
      simp only [closed, Except.ok.injEq] at split
      subst split
      exact fun bare => Bool.noConfusion bare
  · split at split
    · cases split
    · next separates =>
      have separates : first.isArmSeparator = false := by simpa using separates
      cases found : splitTop isArmSeparator (first :: more) with
      | none =>
        simp only [found, Except.ok.injEq] at split
        subst split
        exact fun _ => ⟨first, more, rfl, significant, separates⟩
      | some body =>
        simp only [found, Except.ok.injEq] at split
        subst split
        have parts := eq_of_splitTop found
        refine fun _ => ?_
        cases before : body.before with
        -- Nothing in front of the separator: it would be the first token, which separates nothing.
        | nil =>
          rw [before, List.nil_append] at parts
          obtain ⟨same, -⟩ := List.cons.inj parts
          have separator := found_of_splitTopAt found
          rw [← same, separates] at separator
          cases separator
        | cons b others =>
          rw [before, List.cons_append] at parts
          obtain ⟨same, -⟩ := List.cons.inj parts
          exact ⟨b, others, rfl, same ▸ significant, same ▸ separates⟩

theorem splitArms_started (blocks : Bool) (ts : List Token) :
    (splitArms blocks ts).Ensures fun arms => ∀ arm ∈ arms, arm.IsStarted := by
  unfold splitArms
  refine .walk (fun (arms : List Arm) => ∀ arm ∈ arms, arm.IsStarted) ?_ (fun arms started => .pure started) ts
    (List.forall_mem_nil _)
  intro arms first more started
  unfold splitArmRound
  refine .ite (fun _ => .pure started) fun _ => ?_
  cases splitTop (·.isOp "=>") (first :: more) with
  | none => exact .fail _
  | some head =>
    refine .next fun _ => .ite (fun _ => .fail _) fun _ => ?_
    cases starts : skipTrivia head.after with
    | nil => exact .fail _
    | cons bodyFirst bodyMore =>
      have significant : bodyFirst.isTrivia = false := by
        have first := List.head?_dropWhile_not isTrivia head.after
        rw [← skipTrivia, starts] at first
        exact first
      dsimp only
      cases split : splitArmBody blocks head bodyFirst bodyMore with
      | error fault => exact .fail _
      | ok arm =>
        refine .pure (List.forall_mem_append.2 ⟨started, List.forall_mem_singleton.2 ?_⟩)
        exact splitArmBody_started significant split

/-- The statements of an arm for which something is written: those of its block, or its only one. -/
inductive ArmStatements (scope : Scope) (arm : Arm) : List StatementStart → Prop where
  | block {statements : List StatementStart} (braced : arm.isBlock = true)
      (found : BlockStatements scope {} arm.body statements) : ArmStatements scope arm statements
  | single {first : Token} {more : List Token} (bare : arm.isBlock = false)
      (starts : arm.body ++ arm.separator.toList = first :: more) : ArmStatements scope arm [⟨first, more⟩]

/-- The `break` that is added to a section, unless its arm is taken to end in a jump. -/
def addedBreak (level : Nat) (arm : Arm) : List Piece :=
  if endsInJump arm.body then [] else Piece.indents level ++ [Piece.line "break;"]

section Sections

variable {source : Source} {scope : Scope} {arm : Arm} {rank : Nat} {region : List Token}

theorem convertSectionBody_scanned (unreserved : source.Unreserved) (isFn : scope.isFn = true)
    (positive : 0 < scope.level) (sound : arm.Sound source region) (started : arm.IsStarted) :
    (convertSectionBody (standard.converters rank) scope arm).Emits fun _ pieces => ∃ statements,
      ArmStatements scope arm statements ∧ ScanAgrees scope pieces statements := by
  have holds := sound.body.holds
  unfold convertSectionBody
  refine .ite (fun braced => ?_) fun bare => ?_
  · unfold Converters.block
    cases body : arm.body with
    | nil => exact .pure ⟨[], .block braced (body ▸ .done), .nil scope⟩
    | cons first more =>
      rw [body] at holds
      dsimp only
      rw [converters]
      refine .ite (fun _ => ?_) fun _ => .fail _
      refine (convertBlock_scanned unreserved isFn positive (Source.holds_append.1 holds).1).mono ?_
      rintro _ pieces ⟨statements, found, agrees⟩
      exact ⟨statements, .block braced (body ▸ found), agrees⟩
  · have bare : arm.isBlock = false := by simpa using bare
    obtain ⟨first, more, starts, significant, separates⟩ := started bare
    rw [starts, List.cons_append] at holds ⊢
    have scanned := @statementFrom_scanned scope {} first (more ++ arm.separator.toList) rank isFn positive
      significant fun t' member => unreserved t' (holds t' member)
    have written := (writesStatements rank).statementFrom scope {} first (more ++ arm.separator.toList) isFn
    refine .bind (scanned.and written) ?_
    rintro statement pieces ⟨⟨-, scanned⟩, -, written⟩
    refine .check fun _ checked => ⟨[⟨first, more ++ arm.separator.toList⟩], .single bare ?_, ?_⟩
    · rw [starts, List.cons_append]
    · -- Something is written: the statement is not empty, and no modifier is left over.
      have goesOn : first.isOp ";" = false := by
        simp only [Token.isArmSeparator, Bool.or_eq_false_iff] at separates
        exact separates.2
      have nonempty : pieces ≠ [] := by
        rw [Writes, goesOn] at written
        obtain ⟨-, held⟩ | written := written
        · simp [Modifiers.latest_of_ensureEmpty checked] at held
        · exact written.ne_nil
      simpa [nonempty] using scanned (.nil scope)

/-- The pieces are the section of an arm: its head, what is written for its statements, and the `break` that is
added.  The section ends in a jump exactly if the arm does where it is taken to, and exactly if no header takes
the `break` for its body otherwise. -/
def SectionOf (rank : Nat) (scope : Scope) (arm : Arm) (pieces : List Piece) : Prop :=
  ∃ head body statements,
    convertSectionHead (standard.converters rank) scope arm = .done () head ∧
    convertSectionBody (standard.converters rank) scope.enterBody.enterBody arm = .done () body ∧
    pieces = head.pieces ++ (body.pieces ++ addedBreak (scope.level + 2) arm) ∧
    ArmStatements scope.enterBody.enterBody arm statements ∧
    (endsWithJump (scope.level + 2) (body.pieces ++ addedBreak (scope.level + 2) arm) = true ↔
      if endsInJump arm.body = true then EndInJump scope.enterBody.enterBody statements
      else ¬ LeftOpen scope.enterBody.enterBody statements)

theorem convertSection_sectionOf (unreserved : source.Unreserved) (sound : arm.Sound source region)
    (started : arm.IsStarted) :
    (convertSection (standard.converters rank) scope arm).Emits fun _ pieces => SectionOf rank scope arm pieces := by
  have scanned := @convertSectionBody_scanned source scope.enterBody.enterBody arm rank region unreserved rfl
    (Nat.succ_pos _) sound started
  unfold convertSection
  refine .bind (Q := fun _ front => ∃ head, convertSectionHead (standard.converters rank) scope arm = .done () head ∧
    head.pieces = front) (fun _ head done => ⟨head, done, rfl⟩) ?_
  rintro _ _ ⟨head, headDone, rfl⟩
  refine .bind scanned.with_run ?_
  rintro _ _ ⟨⟨statements, found, agrees⟩, body, bodyDone, rfl⟩
  refine .ite (fun falls => .emit ?_) fun jumps => .pure ?_
  · have added : addedBreak (scope.level + 2) arm = Piece.indents (scope.level + 2) ++ [Piece.line "break;"] := by
      rw [addedBreak, if_neg (by simpa using falls)]
    refine ⟨head, body, statements, headDone, bodyDone, by rw [added]; rfl, found, ?_⟩
    rw [added, if_neg (by simpa using falls)]
    exact agrees.endsWithJump_break_iff (Nat.succ_pos _)
  · have added : addedBreak (scope.level + 2) arm = [] := by rw [addedBreak, if_pos (by simpa using jumps)]
    refine ⟨head, body, statements, headDone, bodyDone, by rw [added], found, ?_⟩
    rw [added, List.append_nil, if_pos (by simpa using jumps)]
    exact agrees.endsWithJump_iff

theorem convertSections_sectionOf (unreserved : source.Unreserved) {arms : List Arm}
    (sound : ∀ arm ∈ arms, arm.Sound source region) (started : ∀ arm ∈ arms, arm.IsStarted) :
    (convertSections (standard.converters rank) scope arms).Emits fun _ pieces => ∃ sections,
      pieces = sections.flatten ∧ List.Forall₂ (SectionOf rank scope) arms sections := by
  induction arms with
  | nil => exact .pure ⟨[], rfl, .nil⟩
  | cons arm arms ih =>
    obtain ⟨first_sound, others_sound⟩ := List.forall_mem_cons.1 sound
    obtain ⟨first_started, others_started⟩ := List.forall_mem_cons.1 started
    refine .bind (convertSection_sectionOf unreserved first_sound first_started) fun _ pieces first => ?_
    refine (ih others_sound others_started).mono ?_
    rintro _ _ ⟨sections, rfl, others⟩
    exact ⟨pieces :: sections, rfl, .cons first others⟩

/-- The pieces of a switch statement: its header, one section for each arm, and its closing brace. -/
def SwitchSections (rank : Nat) (scope : Scope) (t : Token) (rest : List Token) (pieces : List Piece) : Prop :=
  ∃ parts arms notes head sections, splitSwitch t rest = .ok parts ∧
    splitArms true parts.inside = .done arms notes ∧
    pieces = head ++ (List.flatten sections ++ closeBrace scope.level) ∧
    List.Forall₂ (SectionOf rank scope) arms sections

theorem convertSwitch_sectionOf (unreserved : source.Unreserved) {t : Token} {rest : List Token}
    (holds : source.Holds (t :: rest)) :
    (convertSwitch (standard.converters rank) scope t rest).Emits fun _ => SwitchSections rank scope t rest := by
  obtain ⟨member, others⟩ := Source.holds_cons.1 holds
  have checks := splitSwitch_sound member others.within
  unfold convertSwitch
  cases split : splitSwitch t rest with
  | error fault => exact .fail fault
  | ok parts =>
    have parts_sound := checks.holds split
    have arms_found : (splitArms true parts.inside).Ensures fun arms =>
        (∃ notes, splitArms true parts.inside = .done arms notes) ∧
          (∀ arm ∈ arms, arm.Sound source rest) ∧ ∀ arm ∈ arms, arm.IsStarted := by
      intro arms notes done
      have found := splitArms_sound true parts_sound.inside
      rw [done] at found
      exact ⟨⟨notes, done⟩, found.1, splitArms_started true parts.inside arms notes done⟩
    refine .emit_bind (.bind (Q := fun _ _ => True) (fun _ _ _ => trivial) fun _ condition _ => .emit_bind ?_)
    refine .reading_bind arms_found ?_
    rintro arms ⟨⟨notes, done⟩, sound, started⟩
    refine .bind (convertSections_sectionOf unreserved sound started) ?_
    rintro _ _ ⟨sections, rfl, written⟩
    refine .emit_bind (.pure ⟨parts, arms, notes,
      Piece.indents scope.level ++ [Piece.raw "switch "] ++ condition ++ [Piece.line " \x7b"], sections,
      split, done, ?_, written⟩)
    simp only [List.append_assoc, List.append_nil]

/-- Every arm of a switch statement becomes a section.  A section whose arm is taken to end in a jump ends in
one exactly if the last statement of the arm is a jump, and no header in front of it takes it for its body.  To
any other section a `break` is added, which ends it unless a header at its end takes the `break` for its body. -/
theorem convertSwitch_sections {text : String} {tokens : List Token} {t : Token} {rest after : List Token}
    {output : Output} (read : tokenize text = .ok tokens) (among : ∀ t' ∈ t :: rest, t' ∈ tokens)
    (converted : convertSwitch (standard.converters rank) scope t rest = .done after output) :
    SwitchSections rank scope t rest output.pieces := by
  have unreserved : (Source.ofTokens read).Unreserved := unreserved_of_tokenize read
  have holds : (Source.ofTokens read).Holds (t :: rest) := among
  exact convertSwitch_sectionOf unreserved holds after output converted

/-- A block with a header in front of its last statement, and an arm without braces. -/
theorem convertSwitch_sections_block :
    convert {} "switch x \x7b 1 => \x7b while a; f(); return; \x7d _ => g(); \x7d" =
        .ok ("switch (x) \x7b\r\n  case 1:\r\n    while (a)\r\n      f();\r\n    return;\r\n" ++
          "  default:\r\n    g();\r\n    break;\r\n\x7d\r\n") ∧
      ∃ tokens t rest after output,
        tokenize "switch x \x7b 1 => \x7b while a; f(); return; \x7d _ => g(); \x7d" = .ok tokens ∧
        tokens = t :: rest ∧ convertSwitch (standard.converters 200) .root t rest = .done after output ∧
        SwitchSections 200 .root t rest output.pieces := by
  let tokens :=
    (tokenize "switch x \x7b 1 => \x7b while a; f(); return; \x7d _ => g(); \x7d").toOption.getD []
  let first : Token := tokens.getD 0 ⟨0, "", 0, 0, .space, none⟩
  obtain ⟨read, starts⟩ :
      tokenize "switch x \x7b 1 => \x7b while a; f(); return; \x7d _ => g(); \x7d" = .ok tokens ∧
        tokens = first :: tokens.drop 1 := by decide +kernel +zetaReduce
  obtain ⟨after, output, converted⟩ : ∃ after output,
      convertSwitch (standard.converters 200) .root first (tokens.drop 1) = .done after output :=
    Logged.exists_done_of_isOk (by decide +kernel +zetaReduce)
  exact ⟨by decide +kernel, tokens, first, tokens.drop 1, after, output, read, starts, converted,
    convertSwitch_sections read (fun t' member => starts ▸ member) converted⟩

/-- The body of a header is taken for a jump of its own, and so is the next element in a function that yields:
no `break` is added, and the section does not end in a jump. -/
theorem convertSwitch_falls_through :
    convert {} "yield fn F \x7b switch x \x7b 1 => return 1; \x7d \x7d" =
        .ok ("void F() \x7b\r\n  switch (x) \x7b\r\n    case 1:\r\n      yield return 1;\r\n  \x7d\r\n" ++
          "\x7d\r\n") ∧
      convert {} "switch x \x7b 1 => \x7b if a; return; \x7d \x7d" =
        .ok "switch (x) \x7b\r\n  case 1:\r\n    if (a)\r\n      return;\r\n\x7d\r\n" ∧
      ∃ tokens t rest parts arm notes body,
        tokenize "switch x \x7b 1 => \x7b if a; return; \x7d \x7d" = .ok tokens ∧ tokens = t :: rest ∧
        splitSwitch t rest = .ok parts ∧ splitArms true parts.inside = .done [arm] notes ∧
        convertSectionBody (standard.converters 100) Scope.root.enterBody.enterBody arm = .done () body ∧
        addedBreak 2 arm = [] ∧ endsWithJump 2 body.pieces = false := by
  let tokens := (tokenize "switch x \x7b 1 => \x7b if a; return; \x7d \x7d").toOption.getD []
  let first : Token := tokens.getD 0 ⟨0, "", 0, 0, .space, none⟩
  let inside := (tokens.drop 5).take 17
  obtain ⟨read, starts⟩ : tokenize "switch x \x7b 1 => \x7b if a; return; \x7d \x7d" = .ok tokens ∧
      tokens = first :: tokens.drop 1 := by decide +kernel +zetaReduce
  obtain ⟨parts, split, same⟩ : ∃ parts, splitSwitch first (tokens.drop 1) = .ok parts ∧ parts.inside = inside :=
    exists_of_toOption (by decide +kernel +zetaReduce)
  let body (arm : Arm) : Draft Unit :=
    convertSectionBody (standard.converters 100) Scope.root.enterBody.enterBody arm
  obtain ⟨arms, notes, found, ends⟩ : ∃ arms notes, splitArms true inside = .done arms notes ∧
      (arms.map fun arm => (addedBreak 2 arm, (body arm).capture.toExcept.toOption.map (endsWithJump 2))) =
        [([], some false)] := Logged.exists_done (by decide +kernel +zetaReduce)
  obtain ⟨arm, rfl⟩ : ∃ arm, arms = [arm] :=
    List.length_eq_one_iff.1 ((List.length_map _).symm.trans (congrArg List.length ends))
  obtain ⟨added, falls⟩ := Prod.mk.inj (List.singleton_inj.1 ends)
  cases converted : body arm with
  | fail fault =>
    rw [converted] at falls
    cases falls
  | done value output =>
    rw [converted] at falls
    exact ⟨by decide +kernel, by decide +kernel, tokens, first, tokens.drop 1, parts, arm, notes, output, read,
      starts, split, same ▸ found, converted, added, Option.some.inj falls⟩

end Sections

end Sharp
