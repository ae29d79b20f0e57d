import Sharp.Proofs.EnclosedExpressions
import Sharp.Proofs.StatementPieces

/-!
# Bodies without braces

A header that ends in `;` has one statement for its body.  One statement is written for it, unless that
statement is empty: then nothing is written, and the next statement takes the place of the body.

* `convertBody_governed`, `convertIf_emits`: what is written for bodies and branches.
-/

namespace Sharp

open Layers
open Logged (Ensures)

variable {s : Split} {scope : Scope} {t next : Token} {rest more ts : List Token} {words : String}
  {inner : Converters} {pieces front : List Piece}

/-! ## Bodies -/

/-- Splits at the end of a header that can end in `;`. -/
def headerEnd? (ts : List Token) : Option Split :=
  splitTop (fun t => t.isOp "\x7b" || t.isOp ";") ts

/-- The words in front of the only header of a statement, if it can end in `;`. -/
def singleHeaderWords : List String := ["while", "lock", "fixed", "foreach"]

mutual

/-- The body after the end `t` of a header leaves a gap: it is an empty statement after `;`, or a
statement that leaves one. -/
inductive LeavesGap : Scope → Token → List Token → Prop where
  | empty {scope : Scope} {t first : Token} {ts more : List Token} (single : t.isOp "\x7b" = false)
      (starts : skipTrivia ts = first :: more) (ends : first.isOp ";" = true) : LeavesGap scope t ts
  | nested {scope : Scope} {t first : Token} {ts more : List Token} (single : t.isOp "\x7b" = false)
      (starts : skipTrivia ts = first :: more) (gap : StatementGap scope.enterBody first more) :
      LeavesGap scope t ts

/-- A body of the statement that `t` starts leaves a gap. -/
inductive StatementGap : Scope → Token → List Token → Prop where
  | header {scope : Scope} {t : Token} {rest : List Token} {s : Split} (keyword : t.category = .keyword)
      (word : t.text ∈ singleHeaderWords) (ends : headerEnd? rest = some s)
      (gap : LeavesGap scope s.found s.after) : StatementGap scope t rest
  | branches {scope : Scope} {t : Token} {rest : List Token} (keyword : t.category = .keyword)
      (word : t.text = "if") (gap : BranchGap scope rest) : StatementGap scope t rest

/-- The body after the condition in front of the tokens leaves a gap, or that of a later branch. -/
inductive BranchGap : Scope → List Token → Prop where
  | body {scope : Scope} {ts : List Token} {s : Split} (ends : headerEnd? ts = some s)
      (gap : LeavesGap scope s.found s.after) : BranchGap scope ts
  | elseIf {scope : Scope} {ts after more : List Token} {s : Split} {next : Token} {output log : Output}
      (ends : headerEnd? ts = some s)
      (converted : convertBody standard.all scope s.found s.after = .done after output)
      (follows : branchFollower after = .done (.elseIf next more) log) (gap : BranchGap scope more) :
      BranchGap scope ts
  | otherwise {scope : Scope} {ts after more : List Token} {s : Split} {next : Token} {output log : Output}
      (ends : headerEnd? ts = some s)
      (converted : convertBody standard.all scope s.found s.after = .done after output)
      (follows : branchFollower after = .done (.otherwise next more) log) (gap : LeavesGap scope next more) :
      BranchGap scope ts

end

/-- What follows the body of an `if` leaves a gap. -/
def BranchFollower.HasGap (scope : Scope) : BranchFollower → Prop
  | .elseIf _ more => BranchGap scope more
  | .otherwise next more => LeavesGap scope next more
  | .other => False

section Gaps

variable {first : Token} {after : List Token}

theorem leavesGap_iff_of_braced (braced : t.isOp "\x7b" = true) : LeavesGap scope t ts ↔ False := by
  refine ⟨fun gap => ?_, False.elim⟩
  cases gap <;> simp_all

theorem leavesGap_iff (single : t.isOp "\x7b" = false) (starts : skipTrivia ts = first :: more) :
    LeavesGap scope t ts ↔ first.isOp ";" = true ∨ StatementGap scope.enterBody first more := by
  constructor
  · intro gap
    cases gap with
    | empty _ starts' ends =>
      cases starts.symm.trans starts'
      exact .inl ends
    | nested _ starts' gap =>
      cases starts.symm.trans starts'
      exact .inr gap
  · rintro (ends | gap)
    · exact .empty single starts ends
    · exact .nested single starts gap

/-- A statement with no header that can end in `;` leaves no gap. -/
theorem not_statementGap (other : t.category = .keyword → t.text ∉ "if" :: singleHeaderWords) :
    ¬ StatementGap scope t rest := by
  intro gap
  cases gap with
  | header keyword word => exact other keyword (List.mem_cons_of_mem _ word)
  | branches keyword word => exact other keyword (word ▸ List.mem_cons_self)

theorem statementGap_iff_of_header (keyword : t.category = .keyword) (word : t.text ∈ singleHeaderWords)
    (ends : headerEnd? rest = some s) :
    StatementGap scope t rest ↔ LeavesGap scope s.found s.after := by
  constructor
  · intro gap
    cases gap with
    | header _ _ ends' gap =>
      cases ends.symm.trans ends'
      exact gap
    | branches _ word' =>
      rw [word'] at word
      exact absurd word (by decide)
  · exact .header keyword word ends

theorem statementGap_iff_of_if (keyword : t.category = .keyword) (word : t.text = "if") :
    StatementGap scope t rest ↔ BranchGap scope rest := by
  constructor
  · intro gap
    cases gap with
    | header _ word' =>
      rw [word] at word'
      exact absurd word' (by decide)
    | branches _ _ gap => exact gap
  · exact .branches keyword word

theorem branchGap_iff {output log : Output} {follower : BranchFollower} (ends : headerEnd? ts = some s)
    (converted : convertBody standard.all scope s.found s.after = .done after output)
    (follows : branchFollower after = .done follower log) :
    BranchGap scope ts ↔ LeavesGap scope s.found s.after ∨ follower.HasGap scope := by
  constructor
  · intro gap
    cases gap with
    | body ends' gap =>
      cases ends.symm.trans ends'
      exact .inl gap
    | elseIf ends' converted' follows' gap | otherwise ends' converted' follows' gap =>
      cases ends.symm.trans ends'
      cases converted.symm.trans converted'
      cases follows.symm.trans follows'
      exact .inr gap
  · rintro (gap | gap)
    · exact .body ends gap
    · cases follower with
      | elseIf next more => exact .elseIf ends converted follows gap
      | otherwise next more => exact .otherwise ends converted follows gap
      | other => exact gap.elim

end Gaps

/-- What is written for the statement that `t` starts: nothing if it is empty or a modifier, and the
pieces of a statement otherwise. -/
def Writes (scope : Scope) (t : Token) (rest : List Token) (statement : Parsed Statement)
    (pieces : List Piece) : Prop :=
  if t.isOp ";" then pieces = []
  else pieces = [] ∧ statement.value.pending.latest.isSome = true ∨
    StatementPieces (StatementGap scope t rest) scope.level pieces

theorem Writes.closesBlocks {statement : Parsed Statement}
    (writes : Writes scope t rest statement pieces) : ClosesBlocks pieces := by
  unfold Writes at writes
  split at writes
  · exact writes ▸ .nil
  · obtain ⟨rfl, -⟩ | written := writes
    · exact .nil
    · exact written.closesBlocks

/-- What the converters write in functions. -/
structure Converters.WritesStatements (inner : Converters) : Prop extends inner.Encloses where
  statementFrom : ∀ scope pending t rest, scope.isFn = true →
    (inner.statementFrom scope pending t rest).Emits fun statement pieces =>
      statement.value.entered = none ∧ Writes scope t rest statement pieces
  bodies : ∀ {scope t ts rest output}, convertBody inner scope t ts = .done rest output →
    convertBody standard.all scope t ts = .done rest output

/-! ## Parts of statements -/

section Parts

variable {before fence : Token}

section

variable (encloses : inner.Encloses)
include encloses

theorem convertRightSide_emits : (convertRightSide inner scope before ts).Emits fun _ pieces =>
      ∃ body, Enclosed body ∧ pieces = body ++ [Piece.raw ";", .lineBreak] := by
  unfold convertRightSide
  refine .reading_bind (encloses.expression _ ts) fun e enclosed => ?_
  obtain ⟨e, rest⟩ := e
  cases rest with
  | nil => exact .fail _
  | cons semicolon rest =>
    refine .ite (fun _ => .fail _) fun _ => .ite (fun _ => .fail _) fun _ => .emit_bind (.pure ?_)
    exact ⟨e.pieces, enclosed, List.append_nil _⟩

theorem convertBraced_emits (outer : Nat) (opening : Token) (isFn : scope.isFn = true) :
    (convertBraced inner outer scope opening ts).Emits fun _ pieces => Governed False outer pieces := by
  unfold convertBraced
  cases splitClose .brace ts with
  | none => exact .fail _
  | some s =>
    refine .emit_bind (.bind (encloses.block isFn s.before) fun _ inside closed => .emit_bind (.pure ?_))
    rw [List.append_nil]
    exact .block closed

theorem convertInHeader_emits :
    (convertInHeader inner scope fence ts).Emits fun pieces emitted => Enclosed pieces ∧ emitted = [] := by
  unfold convertInHeader
  exact .reading_bind (encloses.expression _ ts) fun e enclosed => .pure ⟨enclosed, rfl⟩

theorem emit_convertInHeader :
    Draft.Emits (convertInHeader inner scope fence ts >>= emit) fun _ pieces => Enclosed pieces := by
  refine .bind (convertInHeader_emits encloses) fun pieces front given => .emit ?_
  obtain ⟨enclosed, rfl⟩ := given
  exact enclosed

theorem convertCondition_emits :
    (convertCondition inner scope t fence ts).Emits fun _ pieces => Enclosed pieces := by
  unfold convertCondition
  refine .ite (fun _ => .fail _) fun _ => .bind (convertInHeader_emits encloses) fun pieces front given => .emit ?_
  obtain ⟨enclosed, rfl⟩ := given
  split
  · exact enclosed
  · exact (Enclosed.cons rfl enclosed).append (.flat rfl)

end

theorem splitHeader_emits {allowsSingle : Bool} :
    (splitHeader allowsSingle t ts).Emits fun s pieces => pieces = [] ∧
      splitTop (fun t => t.isOp "\x7b" || (allowsSingle && t.isOp ";")) ts = some s := by
  unfold splitHeader
  cases splitTop (fun t => t.isOp "\x7b" || (allowsSingle && t.isOp ";")) ts with
  | none => exact .fail _
  | some s => exact .pure ⟨rfl, rfl⟩

/-- Only a header that can end in `;` does. -/
theorem isOp_of_splitHeader (split : splitTop (fun t => t.isOp "\x7b" || (false && t.isOp ";")) ts = some s) :
    s.found.isOp "\x7b" = true := by
  simpa using found_of_splitTopAt split

theorem Modifiers.latest_of_ensureEmpty {mods : Modifiers} {value : Unit} (checked : mods.ensureEmpty = .ok value) :
    mods.latest = none := by
  unfold Modifiers.ensureEmpty at checked
  split at checked
  · cases checked
  · assumption

/-- After `;`, a statement is written for the body, or nothing if it is empty. -/
theorem convertBody_emits_single (writes : inner.WritesStatements) (single : t.isOp "\x7b" = false) :
    (convertBody inner scope t ts).Emits fun _ pieces => ∃ emitted first more,
      pieces = .lineBreak :: emitted ∧ skipTrivia ts = first :: more ∧
        if first.isOp ";" then emitted = []
        else StatementPieces (LeavesGap scope t ts) (scope.level + 1) emitted := by
  unfold convertBody
  refine .ite (fun braced => absurd braced (by simp [single])) fun _ => .emit_bind ?_
  cases starts : skipTrivia ts with
  | nil => exact .fail _
  | cons first more =>
    refine .bind (writes.statementFrom scope.enterBody {} first more rfl) fun statement pieces ⟨_, written⟩ => ?_
    refine .check_bind fun _ checked => .pure ⟨pieces, first, more, by simp, rfl, ?_⟩
    -- A modifier writes nothing either, but there must be a declaration after it.
    have none := Modifiers.latest_of_ensureEmpty checked
    unfold Writes at written
    split at written
    · next empty => rwa [if_pos empty]
    · next other =>
      rw [if_neg other]
      have written := written.resolve_left (by simp [none])
      exact written.congr (by simp [leavesGap_iff single starts, other])

theorem convertBody_governed (writes : inner.WritesStatements) :
    (convertBody inner scope t ts).Emits fun _ pieces =>
      Governed (LeavesGap scope t ts) scope.level pieces := by
  cases braced : t.isOp "\x7b" with
  | true =>
    rw [leavesGap_iff_of_braced braced]
    unfold convertBody
    simp only [braced, if_true]
    exact convertBraced_emits writes.toEncloses _ _ rfl
  | false =>
    refine (convertBody_emits_single writes braced).mono ?_
    rintro _ _ ⟨emitted, first, more, rfl, starts, written⟩
    split at written
    · next empty =>
      subst written
      have missing : Governed True scope.level [.lineBreak] := .missing
      exact missing.congr (by simp [leavesGap_iff braced starts, empty])
    · exact .single written

end Parts

/-! ## Branches -/

section Branches

theorem convertGuarded_emits (writes : inner.WritesStatements) (flat : (Piece.raw (words ++ " ")).kind = .flat) :
    (convertGuarded inner words scope t ts).Emits fun after pieces => ∃ s output,
      headerEnd? ts = some s ∧ convertBody standard.all scope s.found s.after = .done after output ∧
        Clause (LeavesGap scope s.found s.after) scope.level (words ++ " ") pieces := by
  unfold convertGuarded
  refine .bind splitHeader_emits fun s _ ⟨same, split⟩ => ?_
  subst same
  refine .emit_bind (.bind (convertCondition_emits writes.toEncloses) fun _ header enclosed => ?_)
  -- The run of the body is kept: what follows the body shows whether the branches go on.
  intro after output done
  refine ⟨s, output, split, writes.bodies done, ?_⟩
  have clause := Clause.header (enclosed.cons flat) (convertBody_governed writes after output done)
  simpa using clause

theorem branchFollower_emits : (branchFollower ts).Emits fun _ pieces => pieces = [] := by
  unfold branchFollower
  cases skipTrivia ts with
  | nil => exact .pure rfl
  | cons t rest =>
    refine .ite (fun _ => .pure rfl) fun _ => .ite (fun _ => .pure rfl) fun _ => ?_
    cases skipTrivia rest with
    | nil => exact .fail _
    | cons next more =>
      exact .ite (fun _ => .pure rfl) fun _ => .ite (fun _ => .pure rfl) fun _ => .fail _

/-- The branches of an `if` so far.  The tokens `ts` start with the keyword of one more condition; what is
left of the statement leaves a gap where these branches or that condition leave one. -/
def IfChain (scope : Scope) (rest : List Token) (words : String) (ts : List Token) (front : List Piece) : Prop :=
  ∃ next more, ts = next :: more ∧ (words = "if" ∧ front = [] ∧ (BranchGap scope rest ↔ BranchGap scope more) ∨
      words = "else if" ∧ ∃ word ∈ ["if ", "else if "], ∃ gap, Clauses gap scope.level word front ∧
        (BranchGap scope rest ↔ gap ∨ BranchGap scope more))

theorem IfChain.clauses {gap later : Prop} (chain : IfChain scope rest words (next :: more) front)
    (clause : Clause gap scope.level (words ++ " ") pieces) (splits : BranchGap scope more ↔ gap ∨ later) :
    ∃ word ∈ ["if ", "else if "], ∃ gap', Clauses gap' scope.level word (front ++ pieces) ∧
      (BranchGap scope rest ↔ gap' ∨ later) := by
  obtain ⟨_, _, ⟨⟩, ⟨rfl, rfl, same⟩ | ⟨rfl, word, listed, gap', written, same⟩⟩ := chain
  · exact ⟨"if ", by simp, gap, .first clause rfl, same.trans splits⟩
  · have follows : ∀ word ∈ ["if ", "else if "], clauseFollows word "else if " = true := by decide
    exact ⟨"else if ", by simp, gap' ∨ gap, written.next clause (follows word listed), by
      rw [same, splits, or_assoc]⟩

theorem convertIfRound_emits (writes : inner.WritesStatements)
    (chain : IfChain scope rest words (next :: more) front) :
    (convertIfRound inner scope words next more).Emits fun step back =>
      step.Keeps (fun words' ts => IfChain scope rest words' ts (front ++ back))
        fun _ => ControlPieces (BranchGap scope rest) scope.level (front ++ back) := by
  have flat : (Piece.raw (words ++ " ")).kind = .flat := by
    obtain ⟨_, _, -, ⟨rfl, -⟩ | ⟨rfl, -⟩⟩ := chain <;> exact Piece.kind_raw (by decide)
  unfold convertIfRound
  refine .bind (convertGuarded_emits writes flat) fun after pieces ⟨s, output, ends, converted, clause⟩ => ?_
  refine .bind branchFollower_emits.with_run ?_
  rintro follower _ ⟨rfl, log, followed, -⟩
  obtain ⟨word, listed, gap, written, same⟩ := chain.clauses clause (branchGap_iff ends converted followed)
  cases follower with
  | other =>
    have whole := ControlPieces.clauses written
    exact .pure (by simpa [Step.Keeps, BranchFollower.HasGap, same] using whole)
  | elseIf next' more' => exact .pure ⟨next', more', rfl, .inr ⟨rfl, word, listed, gap, by simpa using written, same⟩⟩
  | otherwise next' more' =>
    refine .emit_bind (.bind (convertBody_governed writes) fun _ body governed => .pure ?_)
    have enclosed : Enclosed [.raw "else"] := .flat rfl
    have follows : ∀ word ∈ ["if ", "else if "], clauseFollows word "else" = true := by decide
    have whole := ControlPieces.clauses (written.next (.header enclosed governed) (follows word listed))
    simpa [Step.Keeps, BranchFollower.HasGap, same] using whole

theorem convertIf_emits (writes : inner.WritesStatements) : (convertIf inner scope t rest).Emits fun _ pieces =>
      ControlPieces (BranchGap scope rest) scope.level pieces := by
  unfold convertIf
  refine .walk (IfChain scope rest) (fun words next more front chain => convertIfRound_emits writes chain)
    ?_ ⟨t, rest, rfl, .inl ⟨rfl, rfl, .rfl⟩⟩
  -- The walk never comes to its end, since a round only goes on at the keyword of a condition.
  rintro words front ⟨_, _, ⟨⟩, -⟩

end Branches

end Sharp
