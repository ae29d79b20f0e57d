import Sharp.Proofs.SingleBodies

/-!
# Statements in functions

* `convertStatement_emits`: what is written for a statement, given what is written for its parts.
* `Layers.writesStatements`: what the converters of the language write.
* `convertBody_oneStatement_iff`: when one whole statement is written for a body without braces.
-/

namespace Sharp

open Layers
open Logged (Ensures)

variable {fence t : Token} {arm : Arm} {pending : Modifiers} {draft : Draft (List Token)}
  {scope : Scope} {ts rest : List Token}

section Statements

variable {inner : Converters}

/-! ## Loops -/

theorem convertForStart_emits (encloses : inner.Encloses) :
    (convertForStart inner scope fence ts).Emits fun _ pieces => Enclosed pieces := by
  unfold convertForStart
  cases skipTrivia ts with
  | nil => exact emit_convertInHeader encloses
  | cons first more =>
    refine .ite (fun _ => emit_convertInHeader encloses) fun _ => ?_
    cases splitTop (·.isOp "=") (first :: more) with
    | none => exact .fail _
    | some s =>
      refine .skip fun declared => .emit_bind ((emit_convertInHeader encloses).mono fun _ pieces enclosed => ?_)
      exact enclosed.cons (Piece.kind_raw (append_not_mem declared (by decide)))

theorem convertForClause_emits (encloses : inner.Encloses) :
    (convertForClause inner scope fence ts).Emits fun _ pieces =>
      ∃ ending ∈ clauseEnds, ∃ part, Enclosed part ∧ pieces = .raw ending :: part := by
  unfold convertForClause
  refine .ite (fun _ => .emit ⟨";", by decide, [], .nil, rfl⟩) fun _ => .emit_bind ?_
  refine (emit_convertInHeader encloses).mono fun _ part enclosed => ?_
  exact ⟨"; ", by decide, part, enclosed, rfl⟩

theorem splitForClauses_emits : (splitForClauses t ts).Emits fun _ pieces => pieces = [] := by
  unfold splitForClauses
  cases splitTop (·.isOp ";") ts with
  | none => exact .fail _
  | some first =>
    dsimp only
    cases splitTop (·.isOp ";") first.after with
    | none => exact .fail _
    | some second =>
      dsimp only
      cases splitTop (·.isOp ";") second.after with
      | some extra => exact .fail _
      | none => exact .pure rfl

/-- The body of a loop with three clauses always stands in braces. -/
theorem convertFor_emits (writes : inner.WritesStatements) :
    (convertFor inner scope t rest).Emits fun _ pieces => ControlPieces False scope.level pieces := by
  unfold convertFor
  refine .bind splitHeader_emits fun s _ ⟨same, split⟩ => ?_
  subst same
  have braced := isOp_of_splitHeader split
  refine .bind splitForClauses_emits fun clauses _ same => ?_
  subst same
  refine .emit_bind (.bind (convertForStart_emits writes.toEncloses) fun _ start startEnclosed => ?_)
  refine .bind (convertForClause_emits writes.toEncloses) fun _ _ ⟨_, firstEnds, _, condition, same⟩ => ?_
  subst same
  refine .bind (convertForClause_emits writes.toEncloses) fun _ _ ⟨_, secondEnds, _, step, same⟩ => ?_
  subst same
  refine .emit_bind ((convertBody_governed writes).mono fun _ body governed => ?_)
  have governed := governed.congr (leavesGap_iff_of_braced braced)
  have loop := Clause.loop startEnclosed firstEnds condition secondEnds step governed
  simpa using ControlPieces.clauses (.first loop rfl)

theorem convertForeach_emits (writes : inner.WritesStatements) :
    (convertForeach inner scope t rest).Emits fun _ pieces => ∃ s, headerEnd? rest = some s ∧
      ControlPieces (LeavesGap scope s.found s.after) scope.level pieces := by
  unfold convertForeach
  refine .bind splitHeader_emits fun s _ ⟨same, split⟩ => ?_
  subst same
  cases splitTop (·.isKeyword "in") s.before with
  | none => exact .fail _
  | some parts =>
    refine .skip fun declared => .ite (fun _ => .fail _) fun _ => .emit_bind ?_
    refine .bind (convertInHeader_emits writes.toEncloses) fun pieces _ ⟨enclosed, same⟩ => ?_
    subst same
    refine .emit_bind (.emit_bind ((convertBody_governed writes).mono fun _ body governed => ⟨s, split, ?_⟩))
    have head : Enclosed (.raw ("foreach (" ++ declared ++ " in ") :: (pieces ++ [Piece.raw ")"])) :=
      (enclosed.append (.flat rfl)).cons (Piece.kind_raw (append_not_mem _ (by decide)))
    have first := isContinuation_append ("foreach (" ++ declared) (by decide : ∀ word ∈ _, ¬ " in ".toList <:+ _)
    simpa using ControlPieces.clauses (.first (.header head governed) first)

theorem convertDo_emits (encloses : inner.Encloses) :
    (convertDo inner scope t rest).Emits fun _ pieces => ControlPieces False scope.level pieces := by
  unfold convertDo
  cases skipTrivia rest with
  | nil => exact .fail _
  | cons word more =>
    refine .ite (fun _ => .fail _) fun _ => .bind splitHeader_emits fun s _ ⟨same, split⟩ => ?_
    subst same
    cases splitClose .brace s.after with
    | none => exact .fail _
    | some body =>
      refine .emit_bind (.bind (encloses.block rfl body.before) fun _ inside closed => .emit_bind ?_)
      refine .bind (convertCondition_emits encloses) fun _ condition enclosed => .emit_bind (.pure ?_)
      have block := Enclosed.block (rfl : (Piece.line "do \x7b").kind = .opens)
        (closed.append (.indents scope.level)) (rfl : (Piece.raw "\x7d while ").kind = .closes)
      have whole : ControlPieces False scope.level _ := .block (block.append enclosed)
      simpa using whole

/-! ## Blocks with a word in front -/

theorem convertKeywordBlock_emits (encloses : inner.Encloses) (flat : (Piece.raw t.text).kind = .flat) :
    (convertKeywordBlock inner scope t ts).Emits fun _ pieces => Clause False scope.level t.text pieces := by
  unfold convertKeywordBlock
  cases skipTrivia ts with
  | nil => exact .fail _
  | cons opening more =>
    refine .ite (fun _ => .fail _) fun _ => .emit_bind ?_
    refine (convertBraced_emits encloses scope.level opening rfl).mono fun _ body governed => ?_
    have enclosed : Enclosed [.raw t.text] := .flat flat
    simpa using Clause.header enclosed governed

theorem convertBare_emits (encloses : inner.Encloses) (text : t.text = "checked" ∨ t.text = "unchecked") :
    (convertBare inner scope t rest).Emits fun _ pieces => ControlPieces False scope.level pieces := by
  have word : (Piece.raw t.text).kind = .flat ∧ isContinuation t.text = false := by
    rcases text with text | text <;> rw [text] <;> exact ⟨rfl, rfl⟩
  have enclosed : Enclosed [.raw t.text] := .flat word.1
  unfold convertBare
  refine .bind splitHeader_emits fun s _ ⟨same, _⟩ => ?_
  subst same
  cases skipTrivia s.before with
  | cons extra _ => exact .fail _
  | nil =>
    refine .emit_bind ((convertBraced_emits encloses scope.level s.found rfl).mono fun _ body governed => ?_)
    simpa using ControlPieces.clauses (.first (Clause.header enclosed governed) word.2)

/-! ## Handlers -/

theorem readCaught_ensures : (readCaught t ts).Ensures fun caught =>
    caught = "" ∨ ∃ text, caught = text ++ ")" := by
  have caughtType (ts : List Token) : (readCaught.caughtType t ts).Ensures fun caught =>
      caught = "" ∨ ∃ text, caught = text ++ ")" :=
    .next fun type => .pure (.inr ⟨_, rfl⟩)
  unfold readCaught
  split
  · exact .pure (.inl rfl)
  · exact caughtType _
  · refine .ite (fun _ => caughtType _) fun _ => .ite (fun _ => .fail _) fun _ => .next fun _ => ?_
    exact .next fun type => .pure (.inr ⟨_, rfl⟩)

theorem emitNonempty_emits {caught : String} (shape : caught = "" ∨ ∃ text, caught = text ++ ")") :
    (convertCatchHeader.emitNonempty caught).Emits fun _ pieces => Enclosed pieces := by
  unfold convertCatchHeader.emitNonempty
  refine .ite (fun _ => .pure .nil) fun nonempty => .emit (.flat (Piece.kind_raw ?_))
  obtain rfl | ⟨text, rfl⟩ := shape
  · exact absurd rfl nonempty
  · exact append_not_mem text (by decide)

section

variable (encloses : inner.Encloses)
include encloses

theorem convertCatchHeader_emits :
    (convertCatchHeader inner scope t fence ts).Emits fun _ pieces => Enclosed pieces := by
  unfold convertCatchHeader
  cases splitTop (·.isOp "*") ts with
  | none => exact .reading_bind readCaught_ensures fun caught shape => emitNonempty_emits shape
  | some s =>
    refine .reading_bind readCaught_ensures fun caught shape => ?_
    refine .bind (emitNonempty_emits shape) fun _ front enclosed => .emit_bind ?_
    refine (convertCondition_emits encloses).mono fun _ condition conditionEnclosed => ?_
    exact enclosed.append (conditionEnclosed.cons rfl)

theorem convertCatch_emits :
    (convertCatch inner scope t ts).Emits fun _ pieces => Clause False scope.level "catch" pieces := by
  unfold convertCatch
  refine .bind splitHeader_emits fun s _ ⟨same, _⟩ => ?_
  subst same
  refine .emit_bind (.bind (convertCatchHeader_emits encloses) fun _ header enclosed => ?_)
  refine (convertBraced_emits encloses scope.level s.found rfl).mono fun _ body governed => ?_
  have head : Enclosed (.raw "catch" :: header) := enclosed.cons rfl
  simpa using Clause.header head governed

/-- Handlers continue a statement that they can follow. -/
theorem convertHandlers_emits {front : List Piece} (written : Clauses False scope.level "try" front) :
    (convertHandlers inner scope ts).Emits fun _ pieces => ControlPieces False scope.level (front ++ pieces) := by
  unfold convertHandlers
  refine .walk (fun _ _ pieces => ∃ word ∈ ["try", "catch"], Clauses False scope.level word (front ++ pieces))
    (fun state t rest pieces ⟨word, listed, written⟩ => ?_) (fun state pieces ⟨_, _, written⟩ => .pure ?_)
    ⟨"try", by simp, by simpa using written⟩
  · have follows : ∀ word ∈ ["try", "catch"], ∀ next ∈ ["catch", "finally"], clauseFollows word next = true := by
      decide
    refine .ite (fun _ => .pure ⟨word, listed, by simpa using written⟩) fun _ => ?_
    refine .ite (fun _ => ?_) fun _ => .ite (fun isFinally => ?_) fun _ => .pure ?_
    · refine .bind (convertCatch_emits encloses) fun after back clause => .pure ⟨"catch", by simp, ?_⟩
      simpa using written.next clause (follows word listed _ (by simp))
    · have text : t.text = "finally" := by simpa [Token.isKeyword] using (Bool.and_eq_true_iff.1 isFinally).2
      refine .bind (convertKeywordBlock_emits encloses (by rw [text]; rfl)) fun after back clause => .pure ?_
      rw [text] at clause
      simpa [Step.Keeps] using ControlPieces.clauses (written.next clause (follows word listed _ (by simp)))
    · simpa [Step.Keeps] using ControlPieces.clauses written
  · simpa using ControlPieces.clauses written

theorem convertTry_emits (text : t.text = "try") :
    (convertTry inner scope t rest).Emits fun _ pieces => ControlPieces False scope.level pieces := by
  unfold convertTry
  refine .bind (convertKeywordBlock_emits encloses (by rw [text]; rfl)) fun after front clause => ?_
  rw [text] at clause
  refine .bind (convertHandlers_emits encloses (.first clause rfl)) fun handlers back written => ?_
  exact .ite (fun _ => .fail _) fun _ => .pure (by simpa using written)

end

/-! ## Switches -/

theorem convertSectionHead_emits (encloses : inner.Encloses) :
    (convertSectionHead inner scope arm).Emits fun _ pieces => ClosesBlocks pieces := by
  have lineBreak : ClosesBlocks [.lineBreak] := .single rfl
  unfold convertSectionHead
  refine .emit_bind (.ite (fun _ => .emit_bind (.emit ?_)) fun _ => .emit_bind ?_)
  · have word : Enclosed [.raw "default:"] := .flat rfl
    exact (ClosesBlocks.indents _).append (word.closesBlocks.append lineBreak)
  · refine .bind (convertInHeader_emits encloses) fun pattern _ ⟨enclosed, same⟩ => ?_
    subst same
    refine .emit_bind (.emit_bind (.emit ?_))
    have header : Enclosed (.raw "case " :: (pattern ++ [Piece.raw ":"])) := (enclosed.append (.flat rfl)).cons rfl
    simpa using (ClosesBlocks.indents scope.enterBody.level).append (header.closesBlocks.append lineBreak)

section

variable (writes : inner.WritesStatements)
include writes

theorem convertSectionBody_emits (isFn : scope.isFn = true) :
    (convertSectionBody inner scope arm).Emits fun _ pieces => ClosesBlocks pieces := by
  unfold convertSectionBody
  refine .ite (fun _ => writes.block isFn arm.body) fun _ => ?_
  cases arm.body ++ arm.separator.toList with
  | nil => exact .pure .nil
  | cons first more =>
    refine .bind (writes.statementFrom scope {} first more isFn) fun statement pieces written => ?_
    exact .check fun _ _ => by simpa using written.2.closesBlocks

theorem convertSection_emits : (convertSection inner scope arm).Emits fun _ pieces => ClosesBlocks pieces := by
  unfold convertSection
  refine .bind (convertSectionHead_emits writes.toEncloses) fun _ head closed => ?_
  refine .bind (convertSectionBody_emits writes rfl) fun _ body closedBody => ?_
  refine .ite (fun _ => .emit ?_) fun _ => .pure ?_
  · have leave : ClosesBlocks [.line ("break" ++ ";")] := .single (Piece.kind_line_append _)
    exact closed.append (closedBody.append ((ClosesBlocks.indents _).append leave))
  · simpa using closed.append closedBody

theorem convertSections_emits (arms : List Arm) :
    (convertSections inner scope arms).Emits fun _ pieces => ClosesBlocks pieces := by
  induction arms with
  | nil => exact .pure .nil
  | cons arm arms ih =>
    exact .bind (convertSection_emits writes) fun _ front closed => ih.mono fun _ back => closed.append

theorem convertSwitch_emits :
    (convertSwitch inner scope t rest).Emits fun _ pieces => ControlPieces False scope.level pieces := by
  unfold convertSwitch
  cases splitSwitch t rest with
  | error fault => exact .fail _
  | ok parts =>
    refine .emit_bind (.bind (convertCondition_emits writes.toEncloses) fun _ condition enclosed => ?_)
    refine .emit_bind (.skip fun arms => .bind (convertSections_emits writes arms) fun _ sections closed => ?_)
    refine .emit_bind (.pure ?_)
    have head : Enclosed (.raw "switch " :: condition) := enclosed.cons rfl
    have body : Governed False scope.level _ := .block closed
    simpa using ControlPieces.clauses (.first (.header head body) rfl)

end

/-! ## Lines -/

section

variable (encloses : inner.Encloses)
include encloses

theorem convertExpressionStatement_emits : (convertExpressionStatement inner scope t rest).Emits fun _ pieces =>
      StatementPieces False scope.level pieces := by
  unfold convertExpressionStatement
  refine .emit_bind (.bind (convertRightSide_emits encloses) fun value _ ⟨body, enclosed, same⟩ => .pure ?_)
  subst same
  simpa using (StatementPieces.simple enclosed : StatementPieces False scope.level _)

theorem convertYield_emits :
    (convertYield inner scope t rest).Emits fun _ pieces => StatementPieces False scope.level pieces := by
  have side : Draft.Emits (do
      emit [.keyword "yield"]
      let value ← convertRightSide inner scope t (t :: rest)
      return value.rest) fun _ pieces => StatementPieces False scope.level (Piece.indents scope.level ++ pieces) := by
    refine .emit_bind (.bind (convertRightSide_emits encloses) fun value _ ⟨body, enclosed, same⟩ => .pure ?_)
    subst same
    have line : Enclosed (.keyword "yield" :: body) := enclosed.cons rfl
    simpa using (StatementPieces.simple line : StatementPieces False scope.level _)
  unfold convertYield
  refine .skip fun _ => .emit_bind ?_
  split
  · refine .ite (fun _ => .emit_bind (.pure ?_)) fun _ => side
    exact .line "yield break"
  · exact side

theorem convertVariable_emits {kind : VariableKind} :
    (convertVariable inner kind scope pending t rest).Emits fun _ pieces =>
      StatementPieces False scope.level pieces := by
  unfold convertVariable
  refine .check_bind fun _ _ => ?_
  cases splitTop (fun t => t.isAssignment || t.isOp ";") rest with
  | none => exact .skip fun _ => .fail _
  | some s =>
    refine .skip fun header => .ite (fun _ => .fail _) fun _ => .check_bind fun type _ => ?_
    refine .ite (fun _ => .ite (fun _ => .fail _) fun _ => .emit_bind (.pure ?_)) fun _ => ?_
    · simpa using (StatementPieces.line _ : StatementPieces False scope.level _)
    · refine .skip fun _ => .emit_bind (.bind (convertRightSide_emits encloses)
        fun value _ ⟨body, enclosed, same⟩ => .ite (fun _ => .fail _) fun _ => .pure ?_)
      subst same
      have line := enclosed.cons (Piece.kind_raw (append_not_mem
        (accessText header.access ++ kind.text ++ type ++ " " ++ header.name.text)
        (by decide : ∀ word ∈ _, ¬ " = ".toList <:+ _)))
      simpa using (StatementPieces.simple line : StatementPieces False scope.level _)

theorem convertFn_emits :
    (convertFn inner scope pending t rest).Emits fun _ pieces => StatementPieces False scope.level pieces := by
  unfold convertFn
  refine .check_bind fun mods _ => ?_
  cases splitTop (·.isOpIn ["\x7b", ";"]) rest with
  | none => exact .fail _
  | some s =>
    refine .skip fun header => .ite (fun _ => .ite (fun _ => .fail _) fun _ => .emit_bind (.pure ?_))
      fun _ => .ite (fun _ => .fail _) fun _ => .emit_bind ?_
    · simpa using (StatementPieces.line _ : StatementPieces False scope.level _)
    · refine (convertBraced_emits encloses scope.level s.found rfl).mono fun _ body governed => ?_
      have enclosed : Enclosed [.raw (header.text mods)] :=
        .flat (Piece.kind_raw (append_not_mem _ (by decide)))
      have first : isContinuation (header.text mods) = false := isContinuation_append _ (by decide)
      simpa using StatementPieces.clauses (.first (Clause.header enclosed governed) first)

end

/-! ## Whole statements -/

/-- Where no body can be missing, none is. -/
theorem Draft.Emits.quiet {P : Prop → Nat → List Piece → Prop} {gap : Prop} (none : ¬ gap)
    (emits : draft.Emits fun _ pieces => P False scope.level pieces) :
    draft.Emits fun _ pieces => P gap scope.level pieces := by
  rwa [eq_false none]

theorem convertControlFlow_emits (writes : inner.WritesStatements) (keyword : t.category = .keyword)
    (listed : t.text ∈ controlFlowWords) :
    (convertControlFlow inner scope t rest).Emits fun _ pieces =>
      ControlPieces (StatementGap scope t rest) scope.level pieces := by
  have none {text : String} (same : t.text = text) (other : text ∉ "if" :: singleHeaderWords) :
      ¬ StatementGap scope t rest := not_statementGap fun _ => same ▸ other
  unfold convertControlFlow
  split
  · next text =>
    rw [statementGap_iff_of_if keyword text]
    exact convertIf_emits writes
  · exact .fail _
  · exact .fail _
  · exact .fail _
  · exact .fail _
  · next text => exact .quiet (none text (by decide)) (convertFor_emits writes)
  · next text =>
    refine (convertForeach_emits writes).mono fun _ _ ⟨s, ends, written⟩ => ?_
    rwa [statementGap_iff_of_header keyword (by rw [text]; decide) ends]
  · next text => exact .quiet (none text (by decide)) (convertDo_emits writes.toEncloses)
  · next text => exact .quiet (none text (by decide)) (convertTry_emits writes.toEncloses text)
  · next text => exact .quiet (none text (by decide)) (convertSwitch_emits writes)
  · next text => exact .quiet (none text (by decide)) (convertBare_emits writes.toEncloses (.inl text))
  · next text => exact .quiet (none text (by decide)) (convertBare_emits writes.toEncloses (.inr text))
  · -- Three words are left, all of them in front of a condition.
    have words : t.text = "while" ∨ t.text = "lock" ∨ t.text = "fixed" := by
      simp only [controlFlowWords, List.mem_cons, List.not_mem_nil, or_false] at listed
      tauto
    have word : (Piece.raw (t.text ++ " ")).kind = .flat ∧ isContinuation (t.text ++ " ") = false ∧
        t.text ∈ singleHeaderWords := by
      rcases words with text | text | text <;> rw [text] <;> exact ⟨rfl, rfl, by decide⟩
    obtain ⟨flat, first, single⟩ := word
    refine (convertGuarded_emits writes flat).mono fun _ pieces ⟨s, _, ends, _, clause⟩ => ?_
    rw [statementGap_iff_of_header keyword single ends]
    exact .clauses (.first clause first)

theorem holdModifier_emits (other : t.isOp ";" = false) :
    (holdModifier pending t rest).Emits (Writes scope t rest) := by
  unfold holdModifier
  refine .skip fun _ => .check_bind fun pending' applied => .pure ?_
  rw [Writes, if_neg (by simp [other])]
  -- The latest modifier is the one just held.
  obtain ⟨added, -, ⟨⟩⟩ : ∃ added, pending.add t = .ok added ∧ pending' = { added with latest := some t } := by
    unfold Modifiers.apply at applied
    cases added : pending.add t with
    | error fault => simp [added, bind, Except.bind] at applied
    | ok mods =>
      refine ⟨mods, rfl, ?_⟩
      simpa [added, bind, Except.bind, pure, Except.pure] using applied.symm
  exact .inl ⟨rfl, rfl⟩

section

variable (other : t.isOp ";" = false)
  (emits : draft.Emits fun _ pieces => StatementPieces (StatementGap scope t rest) scope.level pieces)
include other emits

theorem plainStatement_emits : (plainStatement draft).Emits (Writes scope t rest) := by
  refine .bind emits fun after pieces written => .pure ?_
  rw [Writes, if_neg (by simp [other])]
  exact .inr (by simpa using written)

theorem unmodified_emits : (unmodified pending draft).Emits (Writes scope t rest) :=
  .check_bind fun _ _ => plainStatement_emits other emits

end

theorem convertStatement_emits (writes : inner.WritesStatements) (isFn : scope.isFn = true) :
    (convertStatement inner scope pending t rest).Emits (Writes scope t rest) := by
  by_cases refused : t.category = .keyword ∧ t.text ∈ ["class", "struct", "prop", "using", "namespace"]
  · -- Types, properties and namespaces are declared outside functions only.
    exact fun statement output done => (refused_of_isFn isFn refused.1 refused.2 statement output done).elim
  have other (keyword : t.category = .keyword) : t.isOp ";" = false := by simp [Token.isOp, keyword]
  have whole {words : List String} (word : t.text ∈ words)
      (none : ∀ word ∈ words, word ∉ "if" :: singleHeaderWords) : ¬ StatementGap scope t rest :=
    not_statementGap fun _ => none t.text word
  have form := @convertStatement_form inner scope pending t rest
  generalize convertStatement inner scope pending t rest = draft at form ⊢
  cases form with
  | refused => exact .fail _
  | empty ends => exact .pure (by rw [Writes, if_pos ends])
  | modifier keyword => exact holdModifier_emits (other keyword)
  | typeDecl keyword word => exact (refused ⟨keyword, by grind⟩).elim
  | property keyword word | imported keyword word | inNamespace keyword word =>
    exact (refused ⟨keyword, by simp [word]⟩).elim
  | function keyword word =>
    refine plainStatement_emits (other keyword) (.quiet ?_ (convertFn_emits writes.toEncloses))
    exact whole (List.mem_singleton.2 word) (by decide)
  | declared keyword word =>
    exact plainStatement_emits (other keyword)
      (.quiet (whole word (by decide)) (convertVariable_emits writes.toEncloses))
  | yielded keyword word =>
    refine unmodified_emits (other keyword) (.quiet ?_ (convertYield_emits writes.toEncloses))
    exact whole (List.mem_singleton.2 word) (by decide)
  | controlFlow keyword word =>
    exact unmodified_emits (other keyword)
      ((convertControlFlow_emits writes keyword word).mono fun _ _ written => written.statementPieces)
  | expression goesOn plain =>
    have known : ∀ word ∈ "if" :: singleHeaderWords,
        word ∉ ["new", "checked", "unchecked"] ∧ word ∈ controlFlowWords := by decide
    refine unmodified_emits goesOn (.quiet (not_statementGap fun keyword listed => ?_)
      (convertExpressionStatement_emits writes.toEncloses))
    obtain ⟨apart, controls⟩ := known t.text listed
    exact (plain keyword).elim apart fun other => other.1 controls

/-! ## Blocks -/

theorem closesBlocks_lineBreaks (count : Nat) : ClosesBlocks (List.replicate count .lineBreak) := by
  induction count with
  | zero => exact .nil
  | succ count ih => exact (ClosesBlocks.single rfl).append ih

theorem convertBlock_emits (writes : inner.WritesStatements) (isFn : scope.isFn = true) :
    (convertBlock inner scope ts).Emits fun _ pieces => ClosesBlocks pieces := by
  unfold convertBlock
  refine .walk (fun state _ front => state.scope.isFn = true ∧ ClosesBlocks front)
    (fun state t rest front kept => ?_)
    (fun state front kept => .check fun _ _ => by simpa using kept.2) ⟨isFn, .nil⟩
  obtain ⟨isFn, closed⟩ := kept
  unfold convertBlockRound
  split
  · refine .emit_bind (.pure ⟨isFn, ?_⟩)
    simpa [blankLines] using closed.append (closesBlocks_lineBreaks _)
  · exact .pure ⟨isFn, by simpa using closed⟩
  · refine .emit_bind (.pure ⟨isFn, ?_⟩)
    have comment : ClosesBlocks [.comment t.text, .lineBreak] := rfl
    simpa [commentPieces] using closed.append ((ClosesBlocks.indents _).append comment)
  · refine .bind (writes.statementFrom state.scope state.pending t rest isFn)
      fun statement pieces found => .pure ⟨?_, ?_⟩
    · simpa [Statement.scopeAfter, Scope.isFn, found.1] using isFn
    · simpa using closed.append found.2.closesBlocks

end Statements

/-! ## All converters -/

/-- Where the first computation succeeds, so does the second, with the same value and log. -/
def Logged.RefinedBy {ω α : Type} (x y : Logged ω α) : Prop := ∀ a u, x = .done a u → y = .done a u

namespace Logged.RefinedBy

variable {ω α β : Type}

theorem refl (x : Logged ω α) : x.RefinedBy x := fun _ _ => id

theorem ite {c : Prop} [Decidable c] {x y x' y' : Logged ω α} (yes : x.RefinedBy y) (no : x'.RefinedBy y') :
    RefinedBy (if c then x else x') (if c then y else y') := by
  by_cases holds : c
  · simpa only [if_pos holds] using yes
  · simpa only [if_neg holds] using no

theorem bind [Log ω] {x y : Logged ω α} {f g : α → Logged ω β} (first : x.RefinedBy y)
    (second : ∀ a, (f a).RefinedBy (g a)) : (x >>= f).RefinedBy (y >>= g) := by
  intro b w done
  obtain ⟨a, u, v, given, rest, rfl⟩ := bind_eq_done.1 done
  exact bind_eq_done.2 ⟨a, u, v, first a u given, second a b v rest, rfl⟩

end Logged.RefinedBy

namespace Layers

/-- Bodies that are converted below some rank come to the same at any rank. -/
theorem convertBody_refinedBy_all (rank : Nat) (scope : Scope) (t : Token) (ts : List Token) :
    (convertBody (standard.converters rank) scope t ts).RefinedBy (convertBody standard.all scope t ts) := by
  unfold convertBody
  refine .ite ?_ (.bind (.refl _) fun _ => ?_)
  · unfold convertBraced
    cases splitClose .brace ts with
    | none => exact .refl _
    | some s =>
      refine .bind (.refl _) fun _ => .bind ?_ fun _ => .refl _
      cases s.before with
      | nil => exact .refl _
      | cons first more => exact fun _ _ => result_all_of_done (.block scope.enterBody first more)
  · cases skipTrivia ts with
    | nil => exact .refl _
    | cons first more =>
      refine .bind ?_ fun _ => .refl _
      exact fun _ _ => result_all_of_done (.statement scope.enterBody {} first more)

theorem writesStatements (rank : Nat) : (standard.converters rank).WritesStatements := by
  -- The parts of a task are converted at a lower rank.
  induction rank using Nat.strongRecOn with
  | ind rank ih =>
    refine ⟨⟨fun place t rest => ?_, fun scope t rest isFn => ?_⟩, fun scope pending t rest isFn => ?_,
      convertBody_refinedBy_all rank _ _ _ _ _⟩
    · rw [converters]
      exact .ite (fun below => convertExpression_enclosed (ih _ below).toEncloses _) fun _ => .fail _
    · rw [converters]
      exact .ite (fun below => convertBlock_emits (ih _ below) isFn) fun _ => .fail _
    · rw [converters]
      refine .ite (fun below => ?_) fun _ => .fail _
      intro statement output done
      refine ⟨?_, convertStatement_emits (ih _ below) isFn statement output done⟩
      -- Only a namespace changes the scope of what follows it, and there is none in a function.
      obtain same | ⟨top, -⟩ := convertStatement_enters statement output done
      · exact same
      · simp [Scope.isFn, top] at isFn

end Layers

/-! ## Bodies without braces -/

section Bodies

/-- After a header that ends in `;`, nothing is written exactly if an empty statement follows.  One whole
statement is written, one level deeper, exactly if neither the body nor a body in it is empty. -/
theorem convertBody_oneStatement_iff {rank : Nat} {output : Output} (single : t.isOp "\x7b" = false)
    (converted : convertBody (standard.converters rank) scope t ts = .done rest output) :
    ∃ emitted, output.pieces = .lineBreak :: emitted ∧
      (emitted = [] ↔ (nextSignificant? ts).any (·.isOp ";") = true) ∧
      (OneStatement (scope.level + 1) emitted ↔ ¬ LeavesGap scope t ts) := by
  obtain ⟨emitted, first, more, same, starts, written⟩ :=
    convertBody_emits_single (writesStatements rank) single rest output converted
  refine ⟨emitted, same, ?_⟩
  split at written
  · next empty =>
    subst written
    have nothing : ¬ OneStatement (scope.level + 1) [] := fun one => one.ne_nil rfl
    have gap : LeavesGap scope t ts := .empty single starts empty
    simp [nextSignificant?, starts, empty, nothing, gap]
  · next other =>
    refine ⟨by simp [written.ne_nil, nextSignificant?, starts, other], fun one gap => ?_, fun whole => ?_⟩
    · -- Whether a body is missing shows in what is written.
      exact one.gap_iff.1 (written.gap_iff.2 gap)
    · exact written.congr (iff_false_intro whole)

/-- A loop in the body of another header, with a block in a lambda. -/
theorem convertBody_oneStatement_iff_nested :
    convert {} "lock q; while a; f(x => \x7b g(); h(); \x7d);" =
        .ok "lock (q)\r\n  while (a)\r\n    f((x) => \x7b\r\n      g();\r\n      h();\r\n    \x7d);\r\n" ∧
      ∃ tokens t ts rest output emitted, tokenize "lock q; while a; f(x => \x7b g(); h(); \x7d);" = .ok tokens ∧
        tokens.drop 3 = t :: ts ∧ t.isOp "\x7b" = false ∧
        convertBody (standard.converters 100) .root t ts = .done rest output ∧
        output.pieces = .lineBreak :: emitted ∧ OneStatement 1 emitted := by
  let tokens := (tokenize "lock q; while a; f(x => \x7b g(); h(); \x7d);").toOption.getD []
  let token (i : Nat) : Token := tokens.getD i ⟨0, "", 0, 0, .space, none⟩
  obtain ⟨read, split, body, header, call⟩ : tokenize "lock q; while a; f(x => \x7b g(); h(); \x7d);" = .ok tokens ∧
        (tokens.drop 3 = token 3 :: tokens.drop 4 ∧ (token 3).isOp "\x7b" = false) ∧
        (skipTrivia (tokens.drop 4) = token 5 :: tokens.drop 6 ∧ (token 5).isOp ";" = false ∧
          (token 5).category = .keyword ∧ (token 5).text ∈ singleHeaderWords) ∧
        ((headerEnd? (tokens.drop 6)).map (fun s => (s.found, s.after)) = some (token 8, tokens.drop 9) ∧
          (token 8).isOp "\x7b" = false) ∧
        skipTrivia (tokens.drop 9) = token 10 :: tokens.drop 11 ∧ (token 10).isOp ";" = false ∧
          (token 10).category ≠ .keyword := by
    decide +kernel +zetaReduce
  have whole : ¬ LeavesGap .root (token 3) (tokens.drop 4) := by
    obtain ⟨s, ends, parts⟩ := Option.map_eq_some_iff.1 header.1
    obtain ⟨found, after⟩ := Prod.mk.inj parts
    have plain : ¬ StatementGap Scope.root.enterBody.enterBody (token 10) (tokens.drop 11) :=
      not_statementGap fun keyword => absurd keyword call.2.2
    rw [leavesGap_iff split.2 body.1, statementGap_iff_of_header body.2.2.1 body.2.2.2 ends, found, after,
      leavesGap_iff header.2 call.1]
    simp only [body.2.1, call.2.1, plain, Bool.false_eq_true, or_self, not_false_eq_true]
  obtain ⟨rest, output, converted⟩ : ∃ rest output,
      convertBody (standard.converters 100) .root (token 3) (tokens.drop 4) = .done rest output :=
    Logged.exists_done_of_isOk (by decide +kernel +zetaReduce)
  obtain ⟨emitted, same, -, one⟩ := convertBody_oneStatement_iff split.2 converted
  exact ⟨by decide +kernel, tokens, token 3, tokens.drop 4, rest, output, emitted, read, split.1, split.2,
    converted, same, one.2 whole⟩

/-- An empty body leaves its place to the next statement: white space apart, what is written is the same as
if that statement were the body. -/
theorem convert_empty_body :
    convert {} "if x; ; f();" = .ok "if (x)\r\nf();\r\n" ∧
      convert {} "if x; f();" = .ok "if (x)\r\n  f();\r\n" ∧
      ∃ tokens t ts rest output, tokenize "if x; ; f();" = .ok tokens ∧ tokens.drop 3 = t :: ts ∧
        t.isOp ";" = true ∧ convertBody (standard.converters 100) .root t ts = .done rest output ∧
        output.pieces = [.lineBreak] ∧ ¬ OneStatement 1 [] := by
  let tokens := (tokenize "if x; ; f();").toOption.getD []
  let token (i : Nat) : Token := tokens.getD i ⟨0, "", 0, 0, .space, none⟩
  obtain ⟨read, split, single⟩ : tokenize "if x; ; f();" = .ok tokens ∧
      tokens.drop 3 = token 3 :: tokens.drop 4 ∧ (token 3).isOp ";" = true := by decide +kernel +zetaReduce
  have bare : (match convertBody (standard.converters 100) .root (token 3) (tokens.drop 4) with
      | .fail _ => none
      | .done _ output => some output.pieces) = some [.lineBreak] := by decide +kernel +zetaReduce
  cases converted : convertBody (standard.converters 100) .root (token 3) (tokens.drop 4) with
  | fail fault => simp [converted] at bare
  | done rest output =>
    rw [converted] at bare
    exact ⟨by decide +kernel, by decide +kernel, tokens, token 3, tokens.drop 4, rest, output, read, split,
      single, converted, Option.some.inj bare, fun one => one.ne_nil rfl⟩

end Bodies

end Sharp
