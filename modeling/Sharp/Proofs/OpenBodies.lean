import Sharp.Proofs.ExpressionRounds
import Sharp.Proofs.JumpScan
import Sharp.Proofs.WrittenStatements

/-!
# Statements that end in a header

Nothing is written for an empty body after `;`.  Where it is the last body of a statement, the statement ends
in a header, and what follows it becomes the body.

* `Layers.endsStatements`: a scan of the output finds exactly those headers.
-/

namespace Sharp

open Layers
open Logged (Ensures)

variable {s : Split} {more ts rest : List Token} {scope : Scope} {t next : Token}
  {inner : Converters} {words : String}

/-! ## Open bodies -/

mutual

/-- The body after the end `t` of a header is still to come: it is an empty statement after `;`, or a
statement that ends in a header. -/
inductive BodyOpen : Scope → Token → List Token → Prop where
  | empty {scope : Scope} {t first : Token} {ts more : List Token} (single : t.isOp "\x7b" = false)
      (starts : skipTrivia ts = first :: more) (ends : first.isOp ";" = true) : BodyOpen scope t ts
  | nested {scope : Scope} {t first : Token} {ts more : List Token} (single : t.isOp "\x7b" = false)
      (starts : skipTrivia ts = first :: more) (stays : StatementOpen scope.enterBody first more) :
      BodyOpen scope t ts

/-- The last body of the statement that `t` starts is still to come. -/
inductive StatementOpen : Scope → Token → List Token → Prop where
  | header {scope : Scope} {t : Token} {rest : List Token} {s : Split} (keyword : t.category = .keyword)
      (word : t.text ∈ singleHeaderWords) (ends : headerEnd? rest = some s)
      (stays : BodyOpen scope s.found s.after) : StatementOpen scope t rest
  | branches {scope : Scope} {t : Token} {rest : List Token} (keyword : t.category = .keyword)
      (word : t.text = "if") (stays : BranchOpen scope rest) : StatementOpen scope t rest

/-- The last of the branches whose first condition starts the tokens is still to come. -/
inductive BranchOpen : Scope → List Token → Prop where
  | body {scope : Scope} {ts after : List Token} {s : Split} {output log : Output} (ends : headerEnd? ts = some s)
      (converted : convertBody standard.all scope s.found s.after = .done after output)
      (follows : branchFollower after = .done .other log) (stays : BodyOpen scope s.found s.after) :
      BranchOpen scope ts
  | elseIf {scope : Scope} {ts after more : List Token} {s : Split} {next : Token} {output log : Output}
      (ends : headerEnd? ts = some s)
      (converted : convertBody standard.all scope s.found s.after = .done after output)
      (follows : branchFollower after = .done (.elseIf next more) log) (stays : BranchOpen scope more) :
      BranchOpen scope ts
  | otherwise {scope : Scope} {ts after more : List Token} {s : Split} {next : Token} {output log : Output}
      (ends : headerEnd? ts = some s)
      (converted : convertBody standard.all scope s.found s.after = .done after output)
      (follows : branchFollower after = .done (.otherwise next more) log) (stays : BodyOpen scope next more) :
      BranchOpen scope ts

end

section Open

variable {first : Token} {after : List Token}

mutual

/-- A body that is still to come is missing. -/
theorem BodyOpen.leavesGap {scope : Scope} {t : Token} {ts : List Token} :
    BodyOpen scope t ts → LeavesGap scope t ts
  | .empty single starts ends => .empty single starts ends
  | .nested single starts stays => .nested single starts stays.statementGap

theorem StatementOpen.statementGap {scope : Scope} {t : Token} {rest : List Token} :
    StatementOpen scope t rest → StatementGap scope t rest
  | .header keyword word ends stays => .header keyword word ends stays.leavesGap
  | .branches keyword word stays => .branches keyword word stays.branchGap

theorem BranchOpen.branchGap {scope : Scope} {ts : List Token} : BranchOpen scope ts → BranchGap scope ts
  | .body ends _ _ stays => .body ends stays.leavesGap
  | .elseIf ends converted follows stays => .elseIf ends converted follows stays.branchGap
  | .otherwise ends converted follows stays => .otherwise ends converted follows stays.leavesGap

end

theorem bodyOpen_iff (single : t.isOp "\x7b" = false) (starts : skipTrivia ts = first :: more) :
    BodyOpen scope t ts ↔ first.isOp ";" = true ∨ StatementOpen scope.enterBody first more := by
  constructor
  · intro stays
    cases stays with
    | empty _ starts' ends =>
      cases starts.symm.trans starts'
      exact .inl ends
    | nested _ starts' stays =>
      cases starts.symm.trans starts'
      exact .inr stays
  · rintro (ends | stays)
    · exact .empty single starts ends
    · exact .nested single starts stays

theorem statementOpen_iff_of_header (keyword : t.category = .keyword)
    (word : t.text ∈ singleHeaderWords) (ends : headerEnd? rest = some s) :
    StatementOpen scope t rest ↔ BodyOpen scope s.found s.after := by
  constructor
  · intro stays
    cases stays with
    | header _ _ ends' stays =>
      cases ends.symm.trans ends'
      exact stays
    | branches _ word' =>
      rw [word'] at word
      exact absurd word (by decide)
  · exact .header keyword word ends

theorem statementOpen_iff_of_if (keyword : t.category = .keyword) (word : t.text = "if") :
    StatementOpen scope t rest ↔ BranchOpen scope rest := by
  constructor
  · intro stays
    cases stays with
    | header _ word' =>
      rw [word] at word'
      exact absurd word' (by decide)
    | branches _ _ stays => exact stays
  · exact .branches keyword word

/-- The branches end with what follows the body of the first one, or with that body. -/
theorem branchOpen_iff {output log : Output} {follower : BranchFollower} (ends : headerEnd? ts = some s)
    (converted : convertBody standard.all scope s.found s.after = .done after output)
    (follows : branchFollower after = .done follower log) :
    BranchOpen scope ts ↔
      match follower with
      | .other => BodyOpen scope s.found s.after
      | .elseIf _ more => BranchOpen scope more
      | .otherwise next more => BodyOpen scope next more := by
  constructor
  · intro stays
    cases stays with
    | body ends' converted' follows' stays | elseIf ends' converted' follows' stays
    | otherwise ends' converted' follows' stays =>
      cases ends.symm.trans ends'
      cases converted.symm.trans converted'
      cases follows.symm.trans follows'
      exact stays
  · intro stays
    cases follower with
    | other => exact .body ends converted follows stays
    | elseIf next more => exact .elseIf ends converted follows stays
    | otherwise next more => exact .otherwise ends converted follows stays

end Open

/-! ## Conditions -/

/-- The last piece stands in the line. -/
def EndsFlat (pieces : List Piece) : Prop :=
  ∃ (front : List Piece) (piece : Piece), pieces = front ++ [piece] ∧ piece.kind = .flat

theorem EndsFlat.append {pieces : List Piece} (ends : EndsFlat pieces) (front : List Piece) :
    EndsFlat (front ++ pieces) := by
  obtain ⟨front', piece, rfl, flat⟩ := ends
  exact ⟨front ++ front', piece, (List.append_assoc _ _ _).symm, flat⟩

theorem endsFlat_snoc {piece : Piece} (front : List Piece) (flat : piece.kind = .flat) :
    EndsFlat (front ++ [piece]) :=
  ⟨front, piece, rfl, flat⟩

/-- What the converters write for an expression in parentheses ends in the line. -/
def Converters.ClosesGroups (inner : Converters) : Prop :=
  ∀ place ts, isGrouped ts = true → (inner.expression place ts).Ensures fun e => EndsFlat e.value.pieces

section Conditions

variable {place : Place} {frame : Frame} {fence : Token}

theorem isGrouped_of_isDoubled (doubled : isDoubled ts = true) : isGrouped ts = true := by
  unfold isDoubled at doubled
  unfold isGrouped
  cases starts : skipTrivia ts with
  | nil => simp [starts] at doubled
  | cons first more =>
    simp only [starts, Bool.and_eq_true, Option.any_eq_true] at doubled ⊢
    obtain ⟨opener, s, split, after, -⟩ := doubled
    exact ⟨opener, s, split, after⟩

theorem convertGroup_endsFlat (closes : inner.ClosesGroups) (split : splitClose .parenthesis rest = some s) :
    (convertGroup inner place frame t rest).Ensures fun step => ∃ frame', step = .next frame' s.after ∧
      EndsFlat frame'.pieces ∧ frame'.tuple = frame.tuple := by
  unfold convertGroup
  rw [split]
  refine .ite (fun doubled => ?_) fun _ => .next fun e => .pure ⟨_, rfl, ?_, rfl⟩
  · refine .bind (closes _ _ (isGrouped_of_isDoubled doubled)) fun e ends => .pure ⟨_, rfl, ?_, rfl⟩
    exact ends.append frame.pieces
  · exact endsFlat_snoc _ (Piece.kind_operator (by decide) _)

theorem convertExpression_endsFlat (closes : inner.ClosesGroups) (grouped : isGrouped ts = true) :
    (convertExpression inner place ts).Ensures fun e => EndsFlat e.value.pieces := by
  obtain ⟨first, more, s, starts, opener, split, after⟩ : ∃ first more s, skipTrivia ts = first :: more ∧
      first.isOp "(" = true ∧ splitClose .parenthesis more = some s ∧ ∀ t ∈ s.after, t.isTrivia = true := by
    unfold isGrouped at grouped
    cases starts : skipTrivia ts with
    | nil => simp [starts] at grouped
    | cons first more =>
      simp only [starts, Bool.and_eq_true, Option.any_eq_true] at grouped
      obtain ⟨opener, s, split, after⟩ := grouped
      exact ⟨first, more, s, rfl, opener, split, by simpa [isAllTrivia, significant] using after⟩
  intro e notes done
  have gives := (Frame.LeadsTo.skipTrivia starts (Frame.start ts) _ e).1 ⟨notes, done⟩
  have group : convertToken inner place (Frame.start ts) first more =
      convertGroup inner place (Frame.start ts) first more := by
    rw [Token.isOp_iff] at opener
    simp [convertToken, convertOperator, opener]
  -- One round takes the parentheses, and nothing but blanks follows.
  obtain ⟨frame, round, ends, untupled⟩ : ∃ frame, (convertToken inner place (Frame.start ts) first more).Gives
      (.next frame s.after) ∧ EndsFlat frame.pieces ∧ frame.tuple = .none := by
    rw [walk_cons] at gives
    obtain ⟨step, ⟨notes, round⟩, -⟩ := gives.of_bind
    obtain ⟨frame, rfl, ends, untupled⟩ := convertGroup_endsFlat closes split step _ (group.symm.trans round)
    exact ⟨frame, ⟨notes, round⟩, ends, untupled⟩
  have rest := gives.of_walk round
  have blank := @Frame.LeadsTo.trivia inner place s.after after frame []
  rw [List.append_nil] at blank
  have finished := (blank _ e).1 rest
  rw [walk_nil] at finished
  obtain rfl := (Reading.Gives.pure _).unique finished
  simpa [Frame.finish, Frame.closeTuple, untupled] using ends

/-- A condition ends with a parenthesis, its own or one that is added. -/
theorem convertCondition_endsFlat (closes : inner.ClosesGroups) :
    (convertCondition inner scope t fence ts).Emits fun _ pieces => EndsFlat pieces := by
  unfold convertCondition
  refine .ite (fun _ => .fail _) fun _ => ?_
  by_cases grouped : isGrouped ts = true
  · simp only [grouped, if_true]
    refine .bind (Q := fun pieces emitted => EndsFlat pieces ∧ emitted = []) ?_ fun pieces front given => .emit ?_
    · exact .reading_bind (closes _ ts grouped) fun e ends => .pure ⟨ends, rfl⟩
    · exact given.2 ▸ given.1
  · simp only [grouped]
    refine .bind (Q := fun _ _ => True) (fun _ _ _ => trivial) fun pieces front _ => .emit ?_
    exact (endsFlat_snoc (.raw "(" :: pieces) rfl).append front

end Conditions

namespace Layers

theorem closesGroups (rank : Nat) : (standard.converters rank).ClosesGroups := by
  induction rank using Nat.strongRecOn with
  | ind rank ih =>
    intro place ts grouped
    cases ts with
    | nil => cases grouped
    | cons first more =>
      rw [converters]
      exact .ite (fun below => convertExpression_endsFlat (ih _ below) grouped) fun _ => .fail _

end Layers

/-! ## Open headers in the output -/

/-- Whatever stands in front of the pieces, a header is due after them exactly if `opens` holds. -/
def EndsOpen (level : Nat) (pieces : List Piece) (opens : Prop) : Prop :=
  ∀ top ≤ level, ∀ scan : JumpScan, scan.depth = 0 → ((scan.run top pieces).due = true ↔ opens)

/-- After a header, a body is due after the pieces exactly if `opens` holds. -/
def EndsBodyOpen (level : Nat) (pieces : List Piece) (opens : Prop) : Prop :=
  ∀ top ≤ level, (JumpScan.run top ⟨0, level, false, true, false, false⟩ pieces).due = true ↔ opens

/-- What the converters write for statements in a function ends as the tokens say. -/
structure Converters.EndsStatements (inner : Converters) : Prop where
  groups : inner.ClosesGroups
  statementFrom : ∀ scope pending t rest, scope.isFn = true → 0 < scope.level →
    (inner.statementFrom scope pending t rest).Emits fun _ pieces =>
      pieces = [] ∨ EndsOpen scope.level pieces (StatementOpen scope t rest)

section Scans

variable {word : String} {header body front back : List Piece} {opens : Prop} {level : Nat}

/-- The line of a header that ends in the line is still running. -/
theorem Enclosed.run_jumpScan_open {top : Nat} {scan : JumpScan} (enclosed : Enclosed (.raw word :: header))
    (flat : EndsFlat (.raw word :: header)) (outside : scan.depth = 0) (positive : 0 < level) :
    scan.run top (Piece.indents level ++ Piece.raw word :: header) = ⟨0, level, false, true, false, false⟩ := by
  obtain ⟨running, same⟩ := @Enclosed.run_jumpScan_header top scan _ _ _ enclosed outside positive
  obtain ⟨front, piece, parts, flat⟩ := flat
  have running_eq : (scan.run top (Piece.indents level ++ Piece.raw word :: header)).running = true := by
    have closed : ClosesBlocks front := by
      rw [parts, Enclosed, blocksAfter_append] at enclosed
      obtain ⟨depth, within, last⟩ := Option.bind_eq_some_iff.1 enclosed
      rw [blocksAfter_flat flat] at last
      cases last
      exact Enclosed.closesBlocks within
    have outside' : (scan.run top (Piece.indents level ++ front)).depth = 0 :=
      ((ClosesBlocks.indents level).append closed).depth_jumpScan outside
    rw [parts, ← List.append_assoc, JumpScan.run_append, JumpScan.run_cons, JumpScan.step, flat]
    simp only [outside', if_true]
    rfl
  rw [same] at running_eq ⊢
  rw [show running = true from running_eq]

/-- A header ends as its body does. -/
theorem endsOpen_header (positive : 0 < level) (enclosed : Enclosed (.raw word :: header))
    (flat : EndsFlat (.raw word :: header)) (ends : EndsBodyOpen level body opens) :
    EndsOpen level (Piece.indents level ++ (.raw word :: header ++ body)) opens := by
  intro top below scan outside
  rw [← List.append_assoc, JumpScan.run_append, enclosed.run_jumpScan_open flat outside positive]
  exact ends top below

/-- Statements end as the last one does. -/
theorem EndsOpen.append (ends : EndsOpen level back opens) (closed : ClosesBlocks front) :
    EndsOpen level (front ++ back) opens := by
  intro top below scan outside
  rw [JumpScan.run_append]
  exact ends top below _ (closed.depth_jumpScan outside)

section

variable (writes : inner.WritesStatements) (ends : inner.EndsStatements)
include writes ends

theorem convertBody_endsOpen : (convertBody inner scope t ts).Emits fun _ pieces =>
      EndsBodyOpen scope.level pieces (BodyOpen scope t ts) := by
  cases braced : t.isOp "\x7b" with
  | true =>
    -- A block is a whole body.
    refine (convertBody_governed writes).mono fun _ pieces governed => ?_
    have whole : ¬ LeavesGap scope t ts := fun gap => (leavesGap_iff_of_braced braced).1 gap
    intro top below
    exact ⟨fun due => absurd ((governed.run_jumpScan true below).due due) whole,
      fun stays => absurd stays.leavesGap whole⟩
  | false =>
    unfold convertBody
    refine .ite (fun opener => absurd opener (by simp [braced])) fun _ => .emit_bind ?_
    cases starts : skipTrivia ts with
    | nil => exact .fail _
    | cons first more =>
      have both := (writes.statementFrom scope.enterBody {} first more rfl).and
        (ends.statementFrom scope.enterBody {} first more rfl (Nat.succ_pos _))
      refine .bind both fun statement pieces ⟨⟨_, written⟩, ended⟩ => .check_bind fun _ checked => .pure ?_
      rw [bodyOpen_iff braced starts, List.append_nil]
      by_cases empty : first.isOp ";" = true
      · rw [Writes, if_pos empty] at written
        subst written
        exact fun top _ => iff_of_true rfl (.inl empty)
      · -- A modifier writes nothing either, but there must be a declaration after it.
        have nonempty : pieces ≠ [] := by
          rw [Writes, if_neg empty] at written
          obtain ⟨-, held⟩ | written := written
          · simp [Modifiers.latest_of_ensureEmpty checked] at held
          · exact written.ne_nil
        intro top below
        rw [List.singleton_append, JumpScan.run_cons,
          ended.resolve_left nonempty top (Nat.le_succ_of_le below) _ rfl]
        simp [empty]

theorem convertGuarded_endsOpen (positive : 0 < scope.level) (flat : (Piece.raw (words ++ " ")).kind = .flat) :
    (convertGuarded inner words scope t ts).Emits fun after pieces => ∃ s output,
      headerEnd? ts = some s ∧ convertBody standard.all scope s.found s.after = .done after output ∧
        EndsOpen scope.level pieces (BodyOpen scope s.found s.after) := by
  unfold convertGuarded
  refine .bind splitHeader_emits fun s _ ⟨same, split⟩ => ?_
  subst same
  refine .emit_bind (.bind ((convertCondition_emits writes.toEncloses).and
    (convertCondition_endsFlat ends.groups)) fun _ header ⟨enclosed, endsFlat⟩ => ?_)
  intro after output done
  refine ⟨s, output, split, writes.bodies done, ?_⟩
  have clause := endsOpen_header positive (enclosed.cons flat) (endsFlat.append [.raw (words ++ " ")])
    (convertBody_endsOpen writes ends after output done)
  simpa using clause

theorem convertForeach_endsOpen (positive : 0 < scope.level) :
    (convertForeach inner scope t rest).Emits fun _ pieces => ∃ s, headerEnd? rest = some s ∧
      EndsOpen scope.level pieces (BodyOpen scope s.found s.after) := by
  unfold convertForeach
  refine .bind splitHeader_emits fun s _ ⟨same, split⟩ => ?_
  subst same
  cases splitTop (·.isKeyword "in") s.before with
  | none => exact .fail _
  | some parts =>
    refine .skip fun declared => .ite (fun _ => .fail _) fun _ => .emit_bind ?_
    refine .bind (convertInHeader_emits writes.toEncloses) fun pieces _ ⟨enclosed, same⟩ => ?_
    subst same
    refine .emit_bind (.emit_bind ((convertBody_endsOpen writes ends).mono fun _ body ended => ⟨s, split, ?_⟩))
    have head : Enclosed (.raw ("foreach (" ++ declared ++ " in ") :: (pieces ++ [Piece.raw ")"])) :=
      (enclosed.append (.flat rfl)).cons (Piece.kind_raw (append_not_mem _ (by decide)))
    have flat := endsFlat_snoc (.raw ("foreach (" ++ declared ++ " in ") :: pieces) (rfl : (Piece.raw ")").kind = .flat)
    simpa using endsOpen_header positive head flat ended

end

/-- The branches so far are whole lines, and the tokens that are left decide how the statement ends. -/
structure OpenChain (scope : Scope) (rest : List Token) (words : String) (ts : List Token)
    (front : List Piece) : Prop where
  words : words ∈ ["if", "else if"]
  closed : ClosesBlocks front
  same : ∃ next more, ts = next :: more ∧ (BranchOpen scope rest ↔ BranchOpen scope more)

section

variable (writes : inner.WritesStatements) (ends : inner.EndsStatements)
include writes ends

theorem convertIfRound_endsOpen (positive : 0 < scope.level)
    (chain : OpenChain scope rest words (next :: more) front) :
    (convertIfRound inner scope words next more).Emits fun step back =>
      step.Keeps (fun words' ts => OpenChain scope rest words' ts (front ++ back))
        fun _ => EndsOpen scope.level (front ++ back) (BranchOpen scope rest) := by
  have flat : (Piece.raw (words ++ " ")).kind = .flat := by
    have listed := chain.words
    simp only [List.mem_cons, List.not_mem_nil, or_false] at listed
    rcases listed with rfl | rfl <;> exact Piece.kind_raw (by decide)
  obtain ⟨_, _, ⟨⟩, same⟩ := chain.same
  unfold convertIfRound
  refine .bind ((convertGuarded_emits writes flat).and (convertGuarded_endsOpen writes ends positive flat)) ?_
  rintro after pieces ⟨⟨s, output, -, -, clause⟩, s', output', split, converted, ended⟩
  refine .bind branchFollower_emits.with_run ?_
  rintro follower _ ⟨rfl, log, followed, -⟩
  rw [branchOpen_iff split converted followed] at same
  have closed := chain.closed.append clause.closesBlocks
  cases follower with
  | other =>
    have whole := ended.append chain.closed
    exact .pure (by simpa [Step.Keeps, same] using whole)
  | elseIf next' more' => exact .pure ⟨by simp, by simpa using closed, next', more', rfl, same⟩
  | otherwise next' more' =>
    refine .emit_bind (.bind (convertBody_endsOpen writes ends) fun _ body ended => .pure ?_)
    have enclosed : Enclosed [.raw "else"] := .flat rfl
    have whole := (endsOpen_header positive enclosed (endsFlat_snoc [] rfl) ended).append closed
    simpa [Step.Keeps, same] using whole

theorem convertIf_endsOpen (positive : 0 < scope.level) :
    (convertIf inner scope t rest).Emits fun _ pieces => EndsOpen scope.level pieces (BranchOpen scope rest) := by
  unfold convertIf
  refine .walk (OpenChain scope rest) (fun words next more front => convertIfRound_endsOpen writes ends positive)
    ?_ ⟨by simp, .nil, t, rest, rfl, .rfl⟩
  -- The walk never comes to its end, since a round only goes on at the keyword of a condition.
  rintro words front ⟨-, -, _, _, ⟨⟩, -⟩

theorem convertControlFlow_endsOpen
    (positive : 0 < scope.level) (keyword : t.category = .keyword) (listed : t.text ∈ "if" :: singleHeaderWords) :
    (convertControlFlow inner scope t rest).Emits fun _ pieces =>
      EndsOpen scope.level pieces (StatementOpen scope t rest) := by
  simp only [singleHeaderWords, List.mem_cons, List.not_mem_nil, or_false] at listed
  -- Three of the words stand in front of a condition.
  have guarded (flat : (Piece.raw (t.text ++ " ")).kind = .flat) (single : t.text ∈ singleHeaderWords) :
      (convertGuarded inner t.text scope t rest).Emits fun _ pieces =>
        EndsOpen scope.level pieces (StatementOpen scope t rest) := by
    refine (convertGuarded_endsOpen writes ends positive flat).mono fun _ pieces ⟨s, _, split, _, ended⟩ => ?_
    rwa [statementOpen_iff_of_header keyword single split]
  unfold convertControlFlow
  rcases listed with text | text | text | text | text
  · simp only [text]
    exact (convertIf_endsOpen writes ends positive).mono fun _ pieces ended => by
      rwa [statementOpen_iff_of_if keyword text]
  · rw [text] at guarded ⊢
    exact guarded rfl (by decide)
  · rw [text] at guarded ⊢
    exact guarded rfl (by decide)
  · rw [text] at guarded ⊢
    exact guarded rfl (by decide)
  · simp only [text]
    refine (convertForeach_endsOpen writes ends positive).mono fun _ pieces ⟨s, split, ended⟩ => ?_
    rwa [statementOpen_iff_of_header keyword (by rw [text]; decide) split]

/-- What is written for a statement in a function ends in a header exactly if the statement does. -/
theorem convertStatement_endsOpen {pending : Modifiers} (isFn : scope.isFn = true) (positive : 0 < scope.level) :
    (convertStatement inner scope pending t rest).Emits fun _ pieces =>
      pieces = [] ∨ EndsOpen scope.level pieces (StatementOpen scope t rest) := by
  by_cases listed : t.category = .keyword ∧ t.text ∈ "if" :: singleHeaderWords
  · obtain ⟨keyword, listed⟩ := listed
    have controls : convertStatement inner scope pending t rest =
        unmodified pending (convertControlFlow inner scope t rest) := by
      simp only [singleHeaderWords, List.mem_cons, List.not_mem_nil, or_false] at listed
      rcases listed with text | text | text | text | text <;>
        simp [convertStatement, convertKeywordStatement, convertOther, controlFlowWords, Token.isOp, keyword, text]
    rw [controls]
    refine .check_bind fun _ _ => .bind (convertControlFlow_endsOpen writes ends positive keyword listed) ?_
    exact fun after pieces ended => .pure (.inr (by simpa using ended))
  · -- No other statement has a header without a body.
    have whole : ¬ StatementGap scope t rest := not_statementGap fun keyword word => listed ⟨keyword, word⟩
    refine (convertStatement_emits writes isFn).mono fun statement pieces written => ?_
    rw [Writes] at written
    split at written
    · exact .inl written
    · obtain ⟨nothing, -⟩ | written := written
      · exact .inl nothing
      · refine .inr fun top below scan outside => ?_
        have passes := written.run_jumpScan outside positive below
        exact ⟨fun due => absurd (passes.due due) whole, fun stays => absurd stays.statementGap whole⟩

end

end Scans

namespace Layers

theorem endsStatements (rank : Nat) : (standard.converters rank).EndsStatements := by
  -- The parts of a statement are converted at a lower rank.
  induction rank using Nat.strongRecOn with
  | ind rank ih =>
    refine ⟨closesGroups rank, fun scope pending t rest isFn positive => ?_⟩
    rw [converters]
    refine .ite (fun below => ?_) fun _ => .fail _
    exact convertStatement_endsOpen (writesStatements _) (ih _ below) isFn positive

end Layers

end Sharp
