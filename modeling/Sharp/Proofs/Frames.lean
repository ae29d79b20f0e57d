import Sharp.Expression.Lambda
import Sharp.Proofs.Drafting
import Sharp.Proofs.TypeReading

/-!
# Frames of expressions

While an expression is converted, its pieces are accounted for by the tokens taken so far, and so are
the places that the frame remembers: parentheses can be put in there, or the pieces behind dropped.

* `Frame.Sound`: all of this, which each way to add pieces preserves.
-/

namespace Sharp

variable {count mark : Nat} {frame frame' : Frame} {pieces : List Piece} {whole ts rest : List Token}

def parens (count : Nat) : List Bracket := List.replicate count .round

theorem parens_succ' (count : Nat) : parens (count + 1) = parens count ++ [Bracket.round] :=
  List.replicate_succ'

/-- The number of parentheses that the tuple has opened. -/
def TupleParens.opened : TupleParens → Nat
  | .own => 1
  | _ => 0

section Definitions

variable (source : Source)

/-- The pieces are those of the tokens of `whole` in front of `ts`.  At most the parenthesis of a
tuple is open. -/
structure Covers (whole : List Token) (pieces : List Piece) (tuple : TupleParens) (ts : List Token) : Prop where
  takes : source.Takes whole (copiedLiterals pieces) ts
  reaches : source.Reaches pieces (parens tuple.opened)
  tuple : tuple = .own → source.Has "~"

/-- The pieces in front of `mark` are those of the tokens of `whole` in front of `params`.  A tuple
may have been closed behind them, if there are tuples and lists. -/
structure MarksParams (whole : List Token) (pieces : List Piece) (tuple : TupleParens) (mark : Nat)
    (params ts : List Token) : Prop where
  le : mark ≤ pieces.length
  takes : source.Takes whole (copiedLiterals (pieces.take mark)) params
  suffix : ts <:+ params
  reaches : ∃ count, source.Reaches (pieces.take mark) (parens count) ∧
    (count = tuple.opened ∨ source.Has "~" ∧ source.Has ",")

/-- Outside all brackets but parentheses, so that a parenthesis can be put in. -/
def Reachable (pieces : List Piece) (mark : Nat) : Prop :=
  mark ≤ pieces.length ∧ ∃ count, Moves [] (pieces.take mark) (parens count)

/-- The place of a tuple is reachable.  If it is behind that of the parameters, a comma is in front
of it, and the place in front of the comma is reachable too. -/
structure MarksSegment (pieces : List Piece) (paramsMark segment : Nat) : Prop where
  reachable : source.Tame → source.Has "~" → Reachable pieces segment
  behind : source.Tame → source.Has "~" → paramsMark < segment → source.Has "," ∧ Reachable pieces (segment - 1)

/-- The frame holds the pieces of the tokens of `whole` in front of `ts`. -/
def Frame.Sound (whole : List Token) (frame : Frame) (ts : List Token) : Prop :=
  Covers source whole frame.pieces frame.tuple ts ∧
    MarksParams source whole frame.pieces frame.tuple frame.paramsMark frame.params ts ∧
    MarksSegment source frame.pieces frame.paramsMark frame.segment

end Definitions

section Inserting

variable {source : Source}

def withOpening (pieces : List Piece) (mark : Nat) : List Piece :=
  pieces.take mark ++ .code "(" .opening :: pieces.drop mark

theorem copiedLiterals_withOpening (pieces : List Piece) (mark : Nat) :
    copiedLiterals (withOpening pieces mark) = copiedLiterals pieces := by
  rw [withOpening, copiedLiterals_append, copiedLiterals_code, ← copiedLiterals_append, List.take_append_drop]

theorem length_withOpening (pieces : List Piece) (mark : Nat) :
    (withOpening pieces mark).length = pieces.length + 1 := by
  simp only [withOpening, List.length_append, List.length_cons, List.length_take, List.length_drop]
  omega

/-- Brackets stay matched wherever only parentheses are open. -/
theorem moves_withOpening {opened : Nat} (front : Moves [] (pieces.take mark) (parens opened))
    (moves : Moves [] pieces (parens count)) :
    Moves [] (withOpening pieces mark) (parens (count + 1)) := by
  have back : Moves (parens opened) (pieces.drop mark) (parens count) := by
    rw [← List.take_append_drop mark pieces] at moves
    exact front.of_append moves
  have opening : Moves (parens opened) [.code "(" .opening] (parens (opened + 1)) := rfl
  have shifted := back.extend [.round]
  rw [← parens_succ', ← parens_succ'] at shifted
  exact front.append (opening.append shifted)

theorem reaches_withOpening (reaches : source.Reaches pieces (parens count))
    (reachable : source.Tame → ∃ opened, Moves [] (pieces.take mark) (parens opened)) :
    source.Reaches (withOpening pieces mark) (parens (count + 1)) := by
  refine ⟨fun q other => ?_, fun tame => ?_⟩
  · have lines := reaches.lines q other
    rw [← List.take_append_drop mark pieces] at lines
    obtain ⟨r, front, back⟩ := lines.of_append
    -- After a parenthesis, what could follow anything else can follow.
    exact front.append (.code (by decide) (by decide) (back.mono (LineState.le_quiet r)))
  · obtain ⟨opened, front⟩ := reachable tame
    exact moves_withOpening front (reaches.moves tame)

/-- Places up to the parenthesis stay reachable. -/
theorem reachable_withOpening_of_le {place : Nat} (reachable : Reachable pieces place)
    (le : place ≤ mark) : Reachable (withOpening pieces mark) place := by
  obtain ⟨bound, count, front⟩ := reachable
  refine ⟨by rw [length_withOpening]; omega, count, ?_⟩
  rwa [withOpening, List.take_append_of_le_length (by rw [List.length_take]; omega), List.take_take,
    Nat.min_eq_left le]

/-- Places behind the parenthesis are those that were one piece further to the front. -/
theorem reachable_withOpening_of_lt {place : Nat} (reachable : Reachable pieces (place - 1))
    (front : ∃ opened, Moves [] (pieces.take mark) (parens opened)) (lt : mark < place)
    (le : place ≤ pieces.length) : Reachable (withOpening pieces mark) place := by
  obtain ⟨bound, count, moves⟩ := reachable
  obtain ⟨opened, front⟩ := front
  refine ⟨by rw [length_withOpening]; omega, count + 1, ?_⟩
  have taken : (withOpening pieces mark).take place = withOpening (pieces.take (place - 1)) mark := by
    obtain ⟨place, rfl⟩ := Nat.exists_eq_add_of_lt lt
    rw [withOpening, withOpening, List.take_take, Nat.min_eq_left (by omega), List.drop_take,
      List.take_append, List.length_take, Nat.min_eq_left (by omega), List.take_of_length_le]
    · rw [show mark + place + 1 - mark = place + 1 by omega, List.take_succ_cons,
        show mark + place + 1 - 1 - mark = place by omega]
    · rw [List.length_take]
      omega
  have front : Moves [] ((pieces.take (place - 1)).take mark) (parens opened) := by
    rwa [List.take_take, Nat.min_eq_left (by omega)]
  rw [taken]
  exact moves_withOpening front moves

end Inserting

section Growing

variable {source : Source} {added : List Piece} {tuple : TupleParens} {segment : Nat} {params : List Token}

theorem Covers.append (covers : Covers source whole pieces tuple ts) (steady : source.Steady added)
    (takes : source.Takes ts (copiedLiterals added) rest) :
    Covers source whole (pieces ++ added) tuple rest :=
  ⟨by simpa using covers.takes.trans takes, covers.reaches.append steady, covers.tuple⟩

theorem MarksParams.append (marks : MarksParams source whole pieces tuple mark params ts)
    (suffix : rest <:+ ts) : MarksParams source whole (pieces ++ added) tuple mark params rest := by
  have same : (pieces ++ added).take mark = pieces.take mark := List.take_append_of_le_length marks.le
  refine ⟨?_, by rw [same]; exact marks.takes, suffix.trans marks.suffix, by
    rw [same]; exact marks.reaches⟩
  rw [List.length_append]
  exact Nat.le_add_right_of_le marks.le

theorem Reachable.append (reachable : Reachable pieces mark) (added : List Piece) :
    Reachable (pieces ++ added) mark := by
  obtain ⟨le, count, moves⟩ := reachable
  refine ⟨?_, count, by rwa [List.take_append_of_le_length le]⟩
  rw [List.length_append]
  exact Nat.le_add_right_of_le le

theorem MarksSegment.append (marks : MarksSegment source pieces mark segment) (added : List Piece) :
    MarksSegment source (pieces ++ added) mark segment :=
  ⟨fun tame tuples => (marks.reachable tame tuples).append added,
    fun tame tuples lt => (marks.behind tame tuples lt).imp_right (·.append added)⟩

theorem reachable_length (moves : Moves [] pieces (parens count)) : Reachable pieces pieces.length :=
  ⟨Nat.le_refl _, count, by rwa [List.take_length]⟩

/-- Pieces have been added to `frame`, for the tokens from `ts` to `rest`.  They leave the given
brackets open. -/
def Frame.Grows (source : Source) (frame : Frame) (ts : List Token) (opened : List Bracket)
    (frame' : Frame) (rest : List Token) : Prop :=
  ∃ added, frame'.pieces = frame.pieces ++ added ∧
    (frame'.tuple, frame'.segment, frame'.params, frame'.paramsMark) =
      (frame.tuple, frame.segment, frame.params, frame.paramsMark) ∧
    source.Reaches added opened ∧ source.Takes ts (copiedLiterals added) rest

namespace Frame.Grows

variable {opened opened' : List Bracket} {middle : List Token} {text : String}

theorem refl (source : Source) (frame : Frame) (ts : List Token) : frame.Grows source ts [] frame ts :=
  ⟨[], (List.append_nil _).symm, rfl, .nil, .refl⟩

section

variable (grows : frame.Grows source ts opened frame' middle)
include grows

theorem skip (takes : source.Takes middle 0 rest) : frame.Grows source ts opened frame' rest := by
  obtain ⟨pieces, same, others, reaches, taken⟩ := grows
  exact ⟨pieces, same, others, reaches, taken.before takes⟩

theorem append (steady : source.Steady added) (takes : source.Takes middle (copiedLiterals added) rest) :
    frame.Grows source ts opened (frame'.append added) rest := by
  obtain ⟨pieces, same, others, reaches, taken⟩ := grows
  refine ⟨pieces ++ added, ?_, others, reaches.append steady, by simpa using taken.trans takes⟩
  rw [Frame.append, same, List.append_assoc]

theorem push {piece : Piece}
    (steady : source.Steady [piece]) (takes : source.Takes middle (copiedLiterals [piece]) rest) :
    frame.Grows source ts opened (frame'.push piece) rest :=
  grows.append steady takes

end

section

variable (grows : frame.Grows source ts opened frame' rest)
include grows

theorem code (tidy : Tidy text) (spacing : Spacing) :
    frame.Grows source ts opened (frame'.push (.code text spacing)) rest :=
  grows.push (Source.steady_code tidy spacing) .refl

theorem operator (tidy : Tidy text) (place : Place) :
    frame.Grows source ts opened (frame'.operator place text) rest :=
  grows.code tidy _

theorem bracket (nonempty : text ≠ "")
    (onLine : OnLine text) (moved : nest opened text.toList = some opened') (spacing : Spacing) :
    frame.Grows source ts opened' (frame'.push (.code text spacing)) rest := by
  obtain ⟨pieces, same, others, reaches, taken⟩ := grows
  have reached := reaches.code nonempty onLine moved spacing
  refine ⟨pieces ++ [Piece.code text spacing], ?_, others, reached, ?_⟩
  · rw [Frame.push, same, List.append_assoc]
  · simpa using taken

theorem opening (b : Bracket) (place : Place) :
    frame.Grows source ts (b :: opened) (frame'.operator place b.opener) rest :=
  grows.bracket (by cases b <;> decide) (by cases b <;> decide) (nest_extend (nest_opener b)) _

end

theorem closing {b : Bracket} (grows : frame.Grows source ts (b :: opened) frame' rest) (place : Place) :
    frame.Grows source ts opened (frame'.operator place b.closer) rest :=
  grows.bracket (by cases b <;> decide) (by cases b <;> decide) (nest_extend (nest_closer b)) _

end Frame.Grows

theorem Covers.grow (covers : Covers source whole frame.pieces frame.tuple ts)
    (grows : frame.Grows source ts [] frame' rest) :
    Covers source whole frame'.pieces frame'.tuple rest := by
  obtain ⟨added, same, others, steady, takes⟩ := grows
  simp only [Prod.mk.injEq] at others
  rw [same, others.1]
  exact covers.append steady takes

theorem Reachable.grow {opened : List Bracket} (reachable : Reachable frame.pieces frame.segment)
    (grows : frame.Grows source ts opened frame' rest) : Reachable frame'.pieces frame'.segment := by
  obtain ⟨added, same, others, -⟩ := grows
  simp only [Prod.mk.injEq] at others
  rw [same, others.2.1]
  exact reachable.append added

theorem Frame.Sound.grow (sound : frame.Sound source whole ts)
    (grows : frame.Grows source ts [] frame' rest) : frame'.Sound source whole rest := by
  refine ⟨sound.1.grow grows, ?_⟩
  obtain ⟨added, same, others, -, takes⟩ := grows
  simp only [Prod.mk.injEq] at others
  obtain ⟨tuple, segment, params, paramsMark⟩ := others
  rw [same, tuple, segment, params, paramsMark]
  exact ⟨sound.2.1.append takes.suffix, sound.2.2.append added⟩

/-- The parameters of a lambda may start here. -/
theorem Covers.markParams (covers : Covers source whole frame.pieces frame.tuple ts)
    (reachable : source.Tame → source.Has "~" → Reachable frame.pieces frame.segment) :
    (frame.markParams ts).Sound source whole ts := by
  refine ⟨covers, ⟨Nat.le_refl _, ?_, List.suffix_rfl, frame.tuple.opened, ?_, .inl rfl⟩, ?_, ?_⟩
  · exact (List.take_length (l := frame.pieces)).symm ▸ covers.takes
  · exact (List.take_length (l := frame.pieces)).symm ▸ covers.reaches
  · exact reachable
  · exact fun tame tuples lt => absurd (reachable tame tuples).1 (Nat.not_le_of_lt lt)

theorem Covers.restart (covers : Covers source whole frame.pieces frame.tuple ts) :
    (frame.markSegment.markParams ts).Sound source whole ts :=
  @markParams frame.markSegment whole ts source covers fun tame _ => reachable_length (covers.reaches.moves tame)

theorem Frame.Sound.markParams (sound : frame.Sound source whole ts) :
    (frame.markParams ts).Sound source whole ts :=
  sound.1.markParams sound.2.2.reachable

end Growing

/-! ## Tuples -/

section Tuples

variable {source : Source} {place : Place}

def TupleParens.closers (tuple : TupleParens) (place : Place) (frame : Frame) : List Piece :=
  match tuple with
  | .own => [.code ")" (operatorSpacing ")" (frame.endsOperand place))]
  | _ => []

theorem closeTuple_eq (frame : Frame) (place : Place) : frame.closeTuple place =
      { frame.append (frame.tuple.closers place frame) with tuple := .none } := by
  unfold Frame.closeTuple
  cases tuple : frame.tuple <;> simp [TupleParens.closers, Frame.append, Frame.operator, Frame.push]

theorem closeTuple_tuple (frame : Frame) (place : Place) : (frame.closeTuple place).tuple = .none := by
  rw [closeTuple_eq]

theorem copiedLiterals_closers (tuple : TupleParens) : copiedLiterals (tuple.closers place frame) = 0 := by
  cases tuple <;> rfl

theorem Covers.closeTuple (covers : Covers source whole frame.pieces frame.tuple ts) (place : Place) :
    Covers source whole (frame.closeTuple place).pieces (frame.closeTuple place).tuple ts := by
  rw [closeTuple_eq]
  refine ⟨?_, ?_, nofun⟩
  · simpa [Frame.append, copiedLiterals_closers] using covers.takes
  · have reaches := covers.reaches
    cases tuple : frame.tuple with
    | own =>
      rw [tuple] at reaches
      exact reaches.code (by decide) (by decide) rfl _
    | none => simpa [Frame.append, TupleParens.closers, tuple] using reaches
    | lent => simpa [Frame.append, TupleParens.closers, TupleParens.opened, tuple] using reaches

/-- Where there are lists, a tuple may be closed behind the place of the parameters. -/
theorem MarksParams.closeTuple
    (marks : MarksParams source whole frame.pieces frame.tuple frame.paramsMark frame.params ts)
    (tuples : frame.tuple = .own → source.Has "~") (commas : source.Has ",") (place : Place) :
    MarksParams source whole (frame.closeTuple place).pieces (frame.closeTuple place).tuple
      (frame.closeTuple place).paramsMark (frame.closeTuple place).params ts := by
  rw [closeTuple_eq]
  have grown : MarksParams source whole (frame.pieces ++ frame.tuple.closers place frame) frame.tuple
      frame.paramsMark frame.params ts := marks.append List.suffix_rfl
  obtain ⟨le, takes, suffix, count, reaches, counted⟩ := grown
  refine ⟨le, takes, suffix, count, reaches, ?_⟩
  rcases counted with rfl | both
  · cases tuple : frame.tuple with
    | own => exact .inr ⟨tuples tuple, commas⟩
    | none | lent => exact .inl rfl
  · exact .inr both

theorem Covers.finish (covers : Covers source whole frame.pieces frame.tuple ts) (place : Place) :
    source.Takes whole (copiedLiterals (frame.finish place).pieces) ts ∧
      source.Steady (frame.finish place).pieces :=
  ⟨(covers.closeTuple place).takes, by
    have reaches := (covers.closeTuple place).reaches
    rwa [closeTuple_tuple] at reaches⟩

/-- A tuple is opened where its first element starts. -/
theorem Frame.Sound.openTuple (sound : frame.Sound source whole ts) (tuples : source.Has "~") (place : Place) :
    Covers source whole (frame.openTuple place).pieces (frame.openTuple place).tuple ts ∧
      (source.Tame → source.Has "~" →
        Reachable (frame.openTuple place).pieces (frame.openTuple place).segment) := by
  obtain ⟨covers, -, marks⟩ := sound
  unfold Frame.openTuple
  split
  · next none =>
    have reaches := covers.reaches
    rw [none] at reaches
    split
    · exact ⟨⟨covers.takes, reaches, nofun⟩, marks.reachable⟩
    · refine ⟨⟨?_, ?_, fun _ => tuples⟩, fun tame tuples => ?_⟩
      · change source.Takes whole (copiedLiterals (withOpening frame.pieces frame.segment)) ts
        rw [copiedLiterals_withOpening]
        exact covers.takes
      · exact reaches_withOpening reaches fun tame => (marks.reachable tame tuples).2
      · exact reachable_withOpening_of_le (marks.reachable tame tuples) (Nat.le_refl _)
  · exact ⟨covers, marks.reachable⟩

/-- A round goes on with a sound frame, or ends with the expression. -/
def Flow.Sound (source : Source) (place : Place) (whole rest : List Token) : Flow → Prop
  | .next frame rest' => rest' <:+ rest ∧ frame.Sound source whole rest'
  | .stop e => source.Expresses place whole e

theorem Covers.stopAt {t : Token} (covers : Covers source whole frame.pieces frame.tuple (t :: ts))
    (other : t.isCopiedLiteral = false) (mode : place.mode ≠ .group) :
    Flow.Sound source place whole rest (frame.stopAt place (t :: ts)) := by
  obtain ⟨takes, steady⟩ := covers.finish place
  exact ⟨takes, steady, by simpa using other, fun group => absurd group mode⟩

end Tuples

end Sharp
