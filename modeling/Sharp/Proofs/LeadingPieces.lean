import Sharp.Proofs.BuiltFrames
import Sharp.Proofs.ExpressionRounds
import Sharp.Proofs.JumpScan

/-!
# The first piece of an expression

The parentheses of tuples and lambdas are put in behind pieces that have been written, so the first piece
may change.  It is never put in front of the first word of a jump.

* `convertExpression_heads`: an expression starts like a jump exactly if its first token is the word of one.
-/

namespace Sharp

open Layers Token
open Logged (Ensures)

variable {mark : Nat} {frame frame' : Frame} {jump written : Bool} {piece : Piece}
  {added : List Piece} {place : Place}

/-- Is the token the first word of a jump? -/
def Token.isJumpWord (t : Token) : Bool := t.category == .keyword && jumpWords.contains t.text

/-- The token starts no jump, and it is not written behind what follows it. -/
def Token.LeadsPlainly (t : Token) : Prop :=
  t.category = .keyword ∨ t.category = .contextKeyword → t.text ∉ "switch" :: jumpWords

/-- There is a first piece, and it is that of a jump or not. -/
def LedBy (jump : Bool) (pieces : List Piece) : Prop := pieces.head?.map Piece.isJump = some jump

section Pieces

variable {pieces : List Piece}

theorem LedBy.append (led : LedBy jump pieces) (added : List Piece) : LedBy jump (pieces ++ added) := by
  cases pieces with
  | nil => cases led
  | cons piece pieces => exact led

theorem LedBy.ne_nil (led : LedBy jump pieces) : pieces ≠ [] := by
  rintro rfl
  cases led

theorem LedBy.take (led : LedBy jump pieces) (positive : 0 < mark) : LedBy jump (pieces.take mark) := by
  rwa [LedBy, List.head?_take, if_neg (Nat.ne_of_gt positive)]

/-- A parenthesis can become the first piece only where that is not the one of a jump. -/
theorem LedBy.withOpening (led : LedBy jump pieces) (behind : jump = true → 0 < mark) :
    LedBy jump (withOpening pieces mark) := by
  by_cases positive : 0 < mark
  · exact (led.take positive).append _
  · have first : mark = 0 := Nat.eq_zero_of_not_pos positive
    have other : jump = false := Bool.eq_false_iff.2 fun jumps => positive (behind jumps)
    subst first other
    rfl

end Pieces

/-! ## Frames -/

/-- The first piece of the frame is that of a jump or not.  Where it is, nothing is put in front of it. -/
structure Frame.Heads (jump : Bool) (frame : Frame) : Prop where
  led : LedBy jump frame.pieces
  segment : jump = true → 0 < frame.segment
  params : jump = true → 0 < frame.paramsMark

/-- The frame has a first piece, or the next one will be that of no jump. -/
def Frame.Opens (jump : Bool) (frame : Frame) : Prop :=
  frame.pieces = [] ∧ jump = false ∨ frame.Heads jump

section Frames

theorem Frame.Heads.opens (heads : frame.Heads jump) : frame.Opens jump := .inr heads

theorem Frame.opens_start (ts : List Token) : (Frame.start ts).Opens false := .inl ⟨rfl, rfl⟩

namespace Frame.Opens

section

variable (opens : frame.Opens jump)
include opens

theorem append (led : frame.pieces = [] → LedBy false added) : (frame.append added).Heads jump := by
  obtain ⟨empty, rfl⟩ | heads := opens
  · refine ⟨?_, fun jumps => Bool.noConfusion jumps, fun jumps => Bool.noConfusion jumps⟩
    rw [Frame.append, empty]
    exact led empty
  · exact ⟨heads.led.append added, heads.segment, heads.params⟩

theorem push (other : frame.pieces = [] → piece.isJump = false) : (frame.push piece).Heads jump :=
  opens.append fun empty => congrArg some (other empty)

theorem word (text : String) : (frame.word text).Heads jump := opens.push fun _ => rfl

theorem operator (place : Place) (text : String) : (frame.operator place text).Heads jump := by
  refine opens.push fun _ => ?_
  unfold operatorSpacing
  split <;> cases frame.endsOperand place <;> rfl

theorem closeTuple (place : Place) : (frame.closeTuple place).Opens jump := by
  unfold Frame.closeTuple
  split
  · have closed := opens.operator place ")"
    exact .inr ⟨closed.led, closed.segment, closed.params⟩
  · exact opens.imp id fun heads => ⟨heads.led, heads.segment, heads.params⟩

/-- A parenthesis is put in where the marks allow it. -/
theorem insertOpening (behind : frame.Heads jump → jump = true → 0 < mark) :
    (frame.insertOpening mark).Heads jump := by
  obtain ⟨empty, rfl⟩ | heads := opens
  · refine ⟨?_, fun jumps => Bool.noConfusion jumps, fun jumps => Bool.noConfusion jumps⟩
    simp [Frame.insertOpening, empty, LedBy, Piece.isJump]
  · exact ⟨heads.led.withOpening (behind heads), heads.segment, heads.params⟩

theorem openTuple : (frame.openTuple place).Opens jump := by
  unfold Frame.openTuple
  split
  · split
    · exact opens.imp id fun heads => ⟨heads.led, heads.segment, heads.params⟩
    · have opened := opens.insertOpening Frame.Heads.segment
      exact .inr ⟨opened.led, opened.segment, opened.params⟩
  · exact opens

theorem truncate : (frame.truncate frame.paramsMark).Opens jump := by
  obtain ⟨empty, other⟩ | heads := opens
  · exact .inl ⟨by rw [Frame.truncate, empty, List.take_nil], other⟩
  by_cases positive : 0 < frame.paramsMark
  · exact .inr ⟨heads.led.take positive, heads.segment, heads.params⟩
  · refine .inl ⟨?_, Bool.eq_false_iff.2 fun jumps => positive (heads.params jumps)⟩
    rw [Frame.truncate, Nat.eq_zero_of_not_pos positive, List.take_zero]

end

end Frame.Opens

namespace Frame.Heads

section

variable (heads : frame.Heads jump)
include heads

theorem append (added : List Piece) : (frame.append added).Heads jump :=
  heads.opens.append fun empty => absurd empty heads.led.ne_nil

theorem push (piece : Piece) : (frame.push piece).Heads jump := heads.append [piece]

theorem word (text : String) : (frame.word text).Heads jump := heads.push _

theorem operator (place : Place) (text : String) : (frame.operator place text).Heads jump :=
  heads.push _

theorem markSegment : frame.markSegment.Heads jump :=
  ⟨heads.led, fun _ => List.length_pos_iff.2 heads.led.ne_nil, heads.params⟩

theorem markParams (ts : List Token) : (frame.markParams ts).Heads jump :=
  ⟨heads.led, heads.segment, fun _ => List.length_pos_iff.2 heads.led.ne_nil⟩

theorem vary : frame.vary.Heads jump := ⟨heads.led, heads.segment, heads.params⟩

theorem addInner (inner : Expression) : (frame.addInner inner).Heads jump :=
  have grown := heads.append inner.pieces
  ⟨grown.led, grown.segment, grown.params⟩

end

theorem addSlots (slots : List Slot) (heads : frame.Heads jump) : (frame.addSlots place slots).Heads jump := by
  fun_induction Frame.addSlots frame place slots with
  | case1 => exact heads
  | case2 frame slot => exact heads.word _
  | case3 frame slot slots _ ih => exact ih ((heads.word _).operator place _)

theorem finish (heads : frame.Heads jump) (place : Place) : LedBy jump (frame.finish place).pieces := by
  obtain ⟨empty, -⟩ | closed := heads.opens.closeTuple place
  · rw [closeTuple_eq] at empty
    exact absurd (List.append_eq_nil_iff.1 empty).1 heads.led.ne_nil
  · exact closed.led

end Frame.Heads

end Frames

/-! ## Rounds -/

/-- What the converters write for an expression in parentheses starts like no jump. -/
def Converters.LeadsGroups (inner : Converters) : Prop :=
  ∀ place ts t rest, place.mode = .group → skipTrivia ts = t :: rest → t.isOp "(" = true →
    (inner.expression place ts).Ensures fun e => LedBy false e.value.pieces

/-- What the converters write for an expression in a statement starts like a jump exactly if its first
token is the word of one. -/
def Converters.LeadsStatements (inner : Converters) : Prop :=
  ∀ place t rest, place.mode = .statement → t.isTrivia = false → t.isOp ";" = false →
    (t.isJumpWord = false → t.LeadsPlainly) →
    (inner.expressionFrom place t rest).Ensures fun e => LedBy t.isJumpWord e.value.pieces

section Rounds

variable {inner : Converters} {t : Token} {rest : List Token}

theorem convertArms_heads (closing : Token) (arms : List Arm) (heads : frame.Heads jump) :
    (convertArms inner place closing frame arms).Ensures (Frame.Heads jump) := by
  induction arms generalizing frame with
  | nil => exact .pure heads
  | cons arm arms ih =>
    refine .bind ?_ fun _ => ih
    refine .next fun pattern => .next fun body => .pure ?_
    exact (((((heads.append _).append _).operator place "=>").append _).push _).push _

/-- The frame has a first piece, if the flag says so.  Otherwise it may still be empty, and the token `t` will not
start a jump there. -/
def Frame.Leads (jump : Bool) (t : Token) (written : Bool) (frame : Frame) : Prop :=
  frame.Heads jump ∨ written = false ∧ frame.pieces = [] ∧ jump = false ∧ t.LeadsPlainly

theorem Frame.Leads.opens (leads : frame.Leads jump t written) : frame.Opens jump :=
  leads.symm.imp_left fun empty => ⟨empty.2.1, empty.2.2.1⟩

theorem Frame.Leads.heads (leads : frame.Leads jump t true) : frame.Heads jump :=
  leads.resolve_right (by simp)

theorem Frame.Leads.plain {written : Bool} (leads : frame.Leads jump t written) (empty : frame.pieces = []) :
    t.LeadsPlainly := by
  rcases leads with heads | ⟨-, -, -, plain⟩
  · exact absurd empty heads.led.ne_nil
  · exact plain

theorem Frame.Builds.leads (groups : inner.LeadsGroups) (start : frame.Leads jump t false)
    (built : frame.Builds inner place t written frame') :
    frame'.Leads jump t written := by
  induction built with
  | start => exact start
  | operator _ _ ih => exact .inl (ih.opens.operator place _)
  | word _ text ih => exact .inl (ih.opens.word text)
  | literal _ text ih => exact .inl (ih.opens.push fun _ => rfl)
  | keyword _ isKeyword ih =>
    refine .inl (ih.opens.push fun empty => ?_)
    have other := ih.plain empty isKeyword
    simpa [Piece.keyword, Piece.isJump] using fun listed => other (List.mem_cons_of_mem _ listed)
  | doubled _ asked group starts opener ih =>
    have grown := ih.opens.append fun _ => groups _ _ _ _ group starts opener _ _ asked
    exact .inl ⟨grown.led, grown.segment, grown.params⟩
  | addInner _ _ ih => exact .inl (ih.heads.addInner _)
  | argument _ _ ih => exact .inl (ih.heads.append _)
  | vary _ ih => exact ih.imp_left Frame.Heads.vary
  | closeTuple _ ih =>
    obtain ⟨empty, other⟩ | heads := ih.opens.closeTuple place
    · refine ih.imp (fun heads => ?_) fun was => ⟨was.1, empty, other, was.2.2.2⟩
      rw [closeTuple_eq] at empty
      exact absurd (List.append_eq_nil_iff.1 empty).1 heads.led.ne_nil
    · exact .inl heads
  | markSegment _ ih => exact .inl ih.heads.markSegment
  | markParams _ ts ih => exact .inl (ih.heads.markParams ts)
  | connect _ ts ih => exact .inl ((ih.opens.openTuple.operator place ",").markParams ts)
  | typed _ slots ih => exact .inl (((ih.opens.truncate.operator place "(").addSlots slots).operator place ")")
  | opened _ ih => exact .inl ((ih.opens.insertOpening Frame.Heads.params).operator place ")")
  | block _ _ ih => exact .inl ((((ih.heads.push _).append _).append _).push _)
  | switch _ isKeyword named _ armed ih =>
    -- A switch is written behind its subject, so it does not come first.
    have heads := ih.resolve_right fun empty => empty.2.2.2 isKeyword (named ▸ List.mem_cons_self)
    have armed := convertArms_heads _ _ (((heads.append _).push _).push _) _ _ armed
    exact .inl ((armed.append _).push _)

/-- A round keeps the first piece.  The round that writes it is none of those that start a jump. -/
theorem convertToken_heads (groups : inner.LeadsGroups) (opens : frame.Opens jump)
    (first : frame.pieces = [] → t.isTrivia = false ∧ t.isOp ";" = false ∧ place.mode ≠ .args ∧ t.LeadsPlainly) :
    (convertToken inner place frame t rest).Ensures
      (Step.Keeps (fun frame _ => frame.Heads jump) fun e => LedBy jump e.value.pieces) := by
  have start : frame.Leads jump t false :=
    opens.symm.imp_right fun empty => ⟨rfl, empty.1, empty.2, (first empty.1).2.2.2⟩
  have written (ends : t.isTrivia = true ∨ t.isOp ";" = true ∨ place.mode = .args) : frame.Heads jump := by
    refine opens.resolve_left fun empty => ?_
    obtain ⟨significant, goesOn, noArgs, -⟩ := first empty.1
    simp [significant, goesOn, noArgs] at ends
  intro flow notes done
  rcases convertToken_follows flow notes done with ⟨rfl, trivia⟩ | ⟨rfl, ends⟩ | ⟨base, same, builds⟩
  · exact written (.inl trivia)
  · exact (written (.inr ends)).finish place
  have started : base.Leads jump t false := by
    rcases same with rfl | rfl
    · exact start
    · exact start.imp_left Frame.Heads.vary
  cases flow with
  | next frame' rest' => exact (builds.1.leads groups started).heads
  | stop e =>
    obtain ⟨-, -, frame', built, ended⟩ := builds
    rw [Step.Keeps, ended]
    exact (built.leads groups started).heads.finish place

/-- The word of a jump is written first, and nothing can be put in front of it. -/
theorem convertToken_jumpWord (jumps : t.isJumpWord = true) : (convertToken inner place frame t rest).Gives
      (.next ((frame.vary.keyword t.text).markSegment.markParams rest) rest) := by
  simp only [isJumpWord, Bool.and_eq_true, beq_iff_eq, List.contains_iff_mem] at jumps
  obtain ⟨category, listed⟩ := jumps
  have words : ∀ word ∈ jumpWords, keywordRole? word = some (.keyword .expr) ∧ word ∉ statementWords ∧
      word ∉ methodWords ∧ word ∉ ["fn", "switch", "new", "async", "static"] := by decide
  obtain ⟨role, noStatement, noMethod, others⟩ := words t.text listed
  have known : t.vocabularyRole? = some (.keyword .expr) := by rw [vocabularyRole?, category, role]
  have expr : t.keywordRole? = some .expr := by rw [Token.keywordRole?, known]
  simp only [List.mem_cons, List.not_mem_nil, or_false, not_or] at others
  have keyword : convertToken inner place frame t rest = convertPlainKeyword frame.vary t rest := by
    simp [convertToken, category, convertKeyword, isLiteral, isCopiedLiteral, known,
      startsStatement, expr, noStatement, noMethod, others]
  rw [keyword, convertPlainKeyword, if_pos (.inl expr)]
  exact .note_bind (.pure _)

/-! ## Whole expressions -/

/-- From its first piece on, an expression keeps it. -/
theorem walk_heads (leads : inner.LeadsGroups) (heads : frame.Heads jump) (ts : List Token) :
    Ensures (walk (convertToken inner place) (fun frame => (return ⟨frame.finish place, []⟩ : Reading _)) frame ts)
      fun e => LedBy jump e.value.pieces := by
  refine .walk (Frame.Heads jump) (fun frame t rest heads => ?_) (fun frame heads => ?_) ts heads
  · exact convertToken_heads leads heads.opens fun empty => absurd empty heads.led.ne_nil
  · exact .pure (heads.finish place)

/-- An expression starts like a jump exactly if its first token is the word of one. -/
theorem convertExpression_heads (leads : inner.LeadsGroups) {ts : List Token} (starts : skipTrivia ts = t :: rest)
    (goesOn : t.isOp ";" = false ∧ place.mode ≠ .args) (plain : t.isJumpWord = false → t.LeadsPlainly) :
    (convertExpression inner place ts).Ensures fun e => LedBy t.isJumpWord e.value.pieces := by
  intro e notes done
  have gives := (Frame.LeadsTo.skipTrivia starts (Frame.start ts) _ e).1 ⟨notes, done⟩
  cases jumps : t.isJumpWord with
  | true =>
    have heads : (((Frame.start ts).vary.keyword t.text).markSegment.markParams rest).Heads true := by
      have listed : jumpWords.contains t.text = true := (Bool.and_eq_true_iff.1 jumps).2
      exact ⟨congrArg some listed, fun _ => Nat.one_pos, fun _ => Nat.one_pos⟩
    obtain ⟨notes, done⟩ := gives.of_walk (convertToken_jumpWord jumps)
    exact walk_heads leads heads rest e notes done
  | false =>
    have significant : t.isTrivia = false := by
      have first := List.head?_dropWhile_not isTrivia ts
      rw [← skipTrivia, starts] at first
      exact first
    have round := @convertToken_heads _ _ place inner t rest leads (Frame.opens_start ts)
      fun _ => ⟨significant, goesOn.1, goesOn.2, plain jumps⟩
    rw [walk_cons] at gives
    obtain ⟨notes, done⟩ := gives
    refine Ensures.bind (P := fun e => LedBy false e.value.pieces) round (fun step heads => ?_) e notes done
    cases step with
    | stop e => exact .pure heads
    | next frame rest' => exact .ite (fun _ => walk_heads leads heads rest') fun _ => .fail _

end Rounds

namespace Layers

theorem leadsGroups (rank : Nat) : (standard.converters rank).LeadsGroups := by
  -- Parentheses that hold nothing but others are left out, so those are looked at, at a lower rank.
  induction rank using Nat.strongRecOn with
  | ind rank ih =>
    intro place ts t rest group starts opener
    cases ts with
    | nil => cases starts
    | cons first more =>
      have other : t.isOp ";" = false ∧ t.isJumpWord = false ∧ t.LeadsPlainly := by
        rw [isOp_iff] at opener
        simp [isOp, isJumpWord, LeadsPlainly, opener]
      rw [converters]
      refine .ite (fun below => ?_) fun _ => .fail _
      have goesOn : place.mode ≠ .args := by simp [group]
      have led := convertExpression_heads (ih _ below) starts ⟨other.1, goesOn⟩ fun _ => other.2.2
      rwa [other.2.1] at led

theorem leadsStatements (rank : Nat) : (standard.converters rank).LeadsStatements := by
  intro place t rest mode significant goesOn plain
  have starts : skipTrivia (t :: rest) = t :: rest := by simp [skipTrivia, significant]
  have statement : place.mode ≠ .args := by simp [mode]
  rw [converters]
  exact .ite (fun _ => convertExpression_heads (leadsGroups _) starts ⟨goesOn, statement⟩ plain) fun _ => .fail _

end Layers

end Sharp
