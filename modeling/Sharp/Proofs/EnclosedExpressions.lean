import Sharp.Proofs.BuiltFrames

/-!
# Expressions stay on their line

Whatever an expression contains, what is written for it leaves its line only in blocks.

* `convertExpression_enclosed`: whole expressions, given that it holds for what they contain.
-/

namespace Sharp

open Logged (Ensures)

variable {inner : Converters} {text : String} {frame frame' : Frame} {added : List Piece} {place : Place}

/-- What the converters write for expressions and for blocks in functions. -/
structure Converters.Encloses (inner : Converters) : Prop where
  expressionFrom : ∀ place t rest, (inner.expressionFrom place t rest).Ensures fun e =>
    Enclosed e.value.pieces
  blockFrom : ∀ scope t rest, scope.isFn = true →
    (inner.blockFrom scope t rest).Emits fun _ pieces => ClosesBlocks pieces

theorem Converters.Encloses.expression (encloses : inner.Encloses) (place : Place) (ts : List Token) :
    (inner.expression place ts).Ensures fun e => Enclosed e.value.pieces := by
  cases ts with
  | nil => exact .pure .nil
  | cons t rest => exact encloses.expressionFrom place t rest

theorem Converters.Encloses.block (encloses : inner.Encloses) {scope : Scope} (isFn : scope.isFn = true)
    (ts : List Token) :
    (inner.block scope ts).Emits fun _ pieces => ClosesBlocks pieces := by
  cases ts with
  | nil => exact .pure .nil
  | cons t rest => exact encloses.blockFrom scope t rest isFn

/-! ## Frames -/

/-- The pieces of the frame stay on their line, and so do those in front of the parameters.  Nothing is
said about the place of a tuple: a parenthesis may be put in anywhere. -/
structure Frame.IsEnclosed (frame : Frame) : Prop where
  pieces : Enclosed frame.pieces
  le : frame.paramsMark ≤ frame.pieces.length
  params : Enclosed (frame.pieces.take frame.paramsMark)

namespace Frame.IsEnclosed

variable {piece : Piece}

theorem start (ts : List Token) : (Frame.start ts).IsEnclosed := ⟨.nil, Nat.le_refl 0, .nil⟩

section

variable (enclosed : frame.IsEnclosed)
include enclosed

theorem append (steady : Enclosed added) : (frame.append added).IsEnclosed := by
  refine ⟨enclosed.pieces.append steady, ?_, ?_⟩
  · have := enclosed.le
    simp only [Frame.append, List.length_append]
    omega
  · have same : (frame.pieces ++ added).take frame.paramsMark = frame.pieces.take frame.paramsMark :=
      List.take_append_of_le_length enclosed.le
    exact same ▸ enclosed.params

theorem push (flat : piece.kind = .flat) : (frame.push piece).IsEnclosed :=
  enclosed.append (.flat flat)

theorem word (text : String) : (frame.word text).IsEnclosed := enclosed.push (Piece.kind_word text)

theorem keyword (text : String) : (frame.keyword text).IsEnclosed :=
  enclosed.push (Piece.kind_keyword text)

theorem operator (other : text ≠ ";") : (frame.operator place text).IsEnclosed :=
  enclosed.push (Piece.kind_operator other _)

theorem vary : frame.vary.IsEnclosed := ⟨enclosed.pieces, enclosed.le, enclosed.params⟩

theorem markSegment : frame.markSegment.IsEnclosed :=
  ⟨enclosed.pieces, enclosed.le, enclosed.params⟩

theorem addInner {inner : Expression} (steady : Enclosed inner.pieces) : (frame.addInner inner).IsEnclosed :=
  have grown := enclosed.append steady
  ⟨grown.pieces, grown.le, grown.params⟩

theorem closeTuple : (frame.closeTuple place).IsEnclosed := by
  have closers : Enclosed (frame.tuple.closers place frame) := by
    cases frame.tuple with
    | own => exact .flat (Piece.kind_operator (by decide) _)
    | none | lent => exact .nil
  have grown := enclosed.append closers
  rw [closeTuple_eq]
  exact ⟨grown.pieces, grown.le, grown.params⟩

end

/-- The parameters of a lambda may start here, whatever was known about them before. -/
theorem markParams (enclosed : Enclosed frame.pieces) (ts : List Token) : (frame.markParams ts).IsEnclosed :=
  ⟨enclosed, Nat.le_refl _, by simpa [Frame.markParams, Frame.mark] using enclosed⟩

theorem connect (enclosed : frame.IsEnclosed) (ts : List Token) :
    (((frame.openTuple place).operator place ",").markParams ts).IsEnclosed := by
  have opened : Enclosed (frame.openTuple place).pieces := by
    unfold Frame.openTuple
    split
    · split
      · exact enclosed.pieces
      · exact enclosed.pieces.withOpening frame.segment
    · exact enclosed.pieces
  exact .markParams (opened.append (.flat (Piece.kind_operator (by decide) _))) ts

theorem addSlots (slots : List Slot) (enclosed : frame.IsEnclosed) : (frame.addSlots place slots).IsEnclosed := by
  fun_induction Frame.addSlots frame place slots with
  | case1 => exact enclosed
  | case2 frame slot => exact enclosed.word _
  | case3 frame slot slots _ ih => exact ih ((enclosed.word _).operator (by decide))

theorem truncate (enclosed : frame.IsEnclosed) : (frame.truncate frame.paramsMark).IsEnclosed := by
  refine ⟨enclosed.params, ?_, ?_⟩
  · simp [Frame.truncate, enclosed.le]
  · simpa [Frame.truncate, List.take_take] using enclosed.params

theorem insertOpening (enclosed : frame.IsEnclosed) : (frame.insertOpening frame.paramsMark).IsEnclosed := by
  have le := enclosed.le
  refine ⟨enclosed.pieces.withOpening frame.paramsMark, ?_, ?_⟩
  · simp only [Frame.insertOpening, List.length_append, List.length_take, List.length_cons, List.length_drop]
    omega
  · have same : (frame.insertOpening frame.paramsMark).pieces.take frame.paramsMark =
        frame.pieces.take frame.paramsMark := by
      simp [Frame.insertOpening, le]
    exact same ▸ enclosed.params

end Frame.IsEnclosed

theorem Draft.Emits.capture {draft : Draft Unit} {P : List Piece → Prop}
    (emits : draft.Emits fun _ pieces => P pieces) : draft.capture.Ensures P := by
  cases draft with
  | fail fault => exact .fail _
  | done a output =>
    rintro _ _ ⟨⟩
    exact emits a output rfl

/-! ## Switches -/

/-- Whole lines have been added to the frame. -/
def Frame.HasLinesAfter (frame frame' : Frame) : Prop :=
  ∃ lines, ClosesBlocks lines ∧ frame' = frame.append lines

theorem Frame.HasLinesAfter.refl (frame : Frame) : frame.HasLinesAfter frame :=
  ⟨[], .nil, by simp [Frame.append]⟩

theorem Frame.HasLinesAfter.append (lines : frame.HasLinesAfter frame') (closed : ClosesBlocks added) :
    frame.HasLinesAfter (frame'.append added) := by
  obtain ⟨before, closedBefore, rfl⟩ := lines
  exact ⟨before ++ added, closedBefore.append closed, by simp [Frame.append]⟩

theorem Frame.HasLinesAfter.operator (lines : frame.HasLinesAfter frame') (other : text ≠ ";")
    (place : Place) : frame.HasLinesAfter (frame'.operator place text) :=
  lines.append (Enclosed.flat (Piece.kind_operator other _)).closesBlocks

theorem convertArm_hasLinesAfter (encloses : inner.Encloses) (closing : Token) (arm : Arm)
    (lines : frame.HasLinesAfter frame') :
    (convertArm inner place closing frame' arm).Ensures frame.HasLinesAfter := by
  unfold convertArm
  refine .bind (encloses.expression _ _) fun pattern patternSteady => ?_
  refine .bind (encloses.expression _ _) fun body bodySteady => .pure ?_
  have before := (lines.append (.indents (place.scope.level + 1))).append patternSteady.closesBlocks
  have head := before.operator (by decide : "=>" ≠ ";") place
  exact ((head.append bodySteady.closesBlocks).append (Enclosed.flat rfl).closesBlocks).append (.single rfl)

theorem convertArms_hasLinesAfter (encloses : inner.Encloses) (closing : Token) (arms : List Arm)
    (lines : frame.HasLinesAfter frame') :
    (convertArms inner place closing frame' arms).Ensures frame.HasLinesAfter := by
  induction arms generalizing frame' with
  | nil => exact .pure lines
  | cons arm arms ih => exact .bind (convertArm_hasLinesAfter encloses closing arm lines) fun _ => ih

/-! ## Rounds -/

section Rounds

variable {t : Token} {rest : List Token}

theorem Frame.Builds.isEnclosed {b : Bool} (encloses : inner.Encloses) (enclosed : frame.IsEnclosed)
    (built : frame.Builds inner place t b frame') : frame'.IsEnclosed := by
  have block {lines : List Piece} (closed : ClosesBlocks lines) :=
    Enclosed.block (rfl : (Piece.line " \x7b").kind = .opens) (closed.append (.indents place.scope.level))
      (rfl : (Piece.raw "\x7d").kind = .closes)
  induction built with
  | start => exact enclosed
  | operator _ other ih => exact ih.operator other
  | word _ text ih => exact ih.word text
  | literal _ text ih => exact ih.push rfl
  | keyword _ _ ih => exact ih.keyword t.text
  | doubled _ asked _ _ _ ih | addInner _ asked ih =>
    exact ih.addInner (encloses.expression _ _ _ _ asked)
  | argument _ asked ih => exact ih.append (encloses.expression _ _ _ _ asked)
  | vary _ ih => exact ih.vary
  | closeTuple _ ih => exact ih.closeTuple
  | markSegment _ ih => exact ih.markSegment
  | markParams _ ts ih => exact .markParams ih.pieces ts
  | connect _ ts ih => exact ih.connect ts
  | typed _ slots ih => exact ((ih.truncate.operator (by decide)).addSlots slots).operator (by decide)
  | opened _ ih => exact ih.insertOpening.operator (by decide)
  | block _ asked ih =>
    have whole := ih.append (block ((encloses.block rfl _).capture _ _ asked))
    simpa [Frame.append, Frame.push] using whole
  | switch _ _ _ asked armed ih =>
    obtain ⟨lines, closed, rfl⟩ := convertArms_hasLinesAfter encloses _ _ (.refl _) _ _ armed
    have whole := ((ih.append (encloses.expression _ _ _ _ asked)).keyword "switch").append (block closed)
    simpa [Frame.append, Frame.push] using whole

/-- A round goes on with an enclosed frame, or ends with an enclosed expression. -/
theorem convertToken_enclosed (encloses : inner.Encloses) (enclosed : frame.IsEnclosed) :
    (convertToken inner place frame t rest).Ensures
      (Step.Keeps (fun frame _ => frame.IsEnclosed) fun e => Enclosed e.value.pieces) := by
  intro flow notes done
  rcases convertToken_follows flow notes done with ⟨rfl, -⟩ | ⟨rfl, -⟩ | ⟨base, same, builds⟩
  · exact enclosed
  · exact enclosed.closeTuple.pieces
  have started : base.IsEnclosed := by
    rcases same with rfl | rfl
    · exact enclosed
    · exact enclosed.vary
  cases flow with
  | next frame' rest' => exact builds.1.isEnclosed encloses started
  | stop e =>
    obtain ⟨-, -, frame', built, ended⟩ := builds
    rw [Step.Keeps, ended]
    exact (built.isEnclosed encloses started).closeTuple.pieces

/-- What is written for an expression leaves its line only in blocks, if that holds for what it
contains. -/
theorem convertExpression_enclosed (encloses : inner.Encloses) (ts : List Token) :
    (convertExpression inner place ts).Ensures fun e => Enclosed e.value.pieces := by
  unfold convertExpression
  refine .walk Frame.IsEnclosed (fun frame t rest enclosed => ?_) (fun frame enclosed => ?_) ts (.start ts)
  · exact convertToken_enclosed encloses enclosed
  · exact .pure enclosed.closeTuple.pieces

end Rounds

end Sharp
