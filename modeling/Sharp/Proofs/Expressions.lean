import Sharp.Expression.Convert
import Sharp.Proofs.Arms

/-!
# Expressions

Each round of converting an expression takes tokens and adds what is written for them.

* `convertExpression_sound`: whole expressions, given that the converters inside are sound.
-/

namespace Sharp

open Source Token TypeExpr

variable {ts more used : List Token} {kind : ArgumentKind} {frame' start : Frame}
  {semicolon before first opening : Token}

section Rounds

variable {source : Source} {inner : Converters} {region : List Token} {place : Place} {whole rest : List Token}
  {frame : Frame} {t : Token}

/-- The token itself holds no literal, and tokens after it are taken. -/
theorem Frame.Sound.advance (sound : frame.Sound source whole (t :: rest))
    (grows : frame.Grows source (t :: rest) [] frame' ts) (suffix : ts <:+ rest) :
    Flow.Sound source place whole rest (.next frame' ts) :=
  ⟨suffix, sound.grow grows⟩

/-! ## Brackets -/

section

variable (inner_sound : inner.SoundExpressions source region) (sound : frame.Sound source whole (t :: rest))
include inner_sound sound

theorem convertGroup_sound (opens : t.isOp "(" = true)
    (member : t ∈ source.tokens) (within : source.Within region rest) :
    source.Finds (convertGroup inner place frame t rest) (Flow.Sound source place whole rest) := by
  unfold convertGroup
  cases split : splitClose .parenthesis rest with
  | none => exact .fail (blames_missing member _)
  | some s =>
    obtain ⟨inside, found, -⟩ := within.splitClose split
    have fence : ∀ t ∈ some s.found, t ∈ source.tokens := by simpa using found
    have suffix := suffix_of_split (eq_of_splitClose split)
    have takes {used : Multiset String} (taken : source.Takes s.before used []) :
        source.Takes (t :: rest) used s.after :=
      (Takes.splitClose split taken).cons (isCopiedLiteral_of_isOp opens)
    refine .ite (fun doubled => ?_) fun _ => ?_
    · refine .bind (inner_sound.group fence rfl inside) fun e converted => .pure ?_
      have grows := (Frame.Grows.refl source frame (t :: rest)).append converted.2 (takes converted.1)
      exact sound.advance grows suffix
    · refine .bind (inner_sound.group fence rfl inside) fun e converted => .pure ?_
      have grows := (((Frame.Grows.refl source frame (t :: rest)).opening .round place).append
        converted.2 (takes converted.1)).closing place
      exact sound.advance grows suffix

theorem convertBraces_sound (opens : t.isOp "\x7b" = true)
    (member : t ∈ source.tokens) (within : source.Within region rest) :
    source.Finds (convertBraces inner place frame t rest) (Flow.Sound source place whole rest) := by
  unfold convertBraces
  cases split : splitClose .brace rest with
  | none => exact .fail (blames_missing member _)
  | some s =>
    obtain ⟨inside, found, -⟩ := within.splitClose split
    have fence : ∀ t ∈ some s.found, t ∈ source.tokens := by simpa using found
    refine .bind (inner_sound.group fence rfl inside) fun e converted => .pure ?_
    have takes := (Takes.splitClose split converted.1).cons (isCopiedLiteral_of_isOp opens)
    have grows := (((Frame.Grows.refl source frame (t :: rest)).opening .curly place).append
      converted.2 takes).closing place
    exact sound.advance grows (suffix_of_split (eq_of_splitClose split))

end

/-! ## Operators -/

section

variable (sound : frame.Sound source whole (t :: rest))
include sound

theorem convertPlainOperator_sound (operator : t.category = .operator) (other : t.text ∉ bracketOperators)
    (member : t ∈ source.tokens) :
    source.Finds (convertPlainOperator place frame t rest) (Flow.Sound source place whole rest) := by
  have tidy := (source.regular t member).tidy_operator operator other
  have skips : source.Takes (t :: rest) 0 rest := .cons (by simp [isCopiedLiteral, operator]) .refl
  unfold convertPlainOperator
  refine .ite (fun _ => .note_bind member ⟨operator, other⟩ (.pure ⟨List.suffix_rfl, ?_⟩)) fun _ =>
    .pure ⟨List.suffix_rfl, ?_⟩
  · -- An assignment ends a tuple.
    have closed := sound.1.closeTuple place
    have grows := ((Frame.Grows.refl source (frame.closeTuple place) (t :: rest)).operator tidy place).skip skips
    exact (closed.grow grows).restart
  · have grown := sound.grow (((Frame.Grows.refl source frame (t :: rest)).operator tidy place).skip skips)
    split
    · exact grown
    · exact grown.markParams

theorem convertComma_sound (isComma : t.isOp "," = true)
    (member : t ∈ source.tokens) : (convertComma place frame rest).Sound source whole rest := by
  have commas : source.Has "," := ⟨t, member, isComma⟩
  obtain ⟨covers, marks, -⟩ := sound
  have closed := covers.closeTuple place
  have grows : (frame.closeTuple place).Grows source (t :: rest) []
      ((frame.closeTuple place).operator place ",") rest :=
    ((Frame.Grows.refl source _ (t :: rest)).operator (by decide) place).skip
      (.cons (isCopiedLiteral_of_isOp isComma) .refl)
  have covers' := closed.grow grows
  unfold convertComma
  dsimp only
  split
  · exact covers'.restart
  · -- The parameters of a lambda may still start in front of the comma.
    have params := marks.closeTuple covers.tuple commas place
    refine ⟨covers', params.append (List.suffix_cons t rest),
      fun tame _ => reachable_length (covers'.reaches.moves tame), fun tame _ _ => ⟨commas, ?_⟩⟩
    have front := reachable_length (closed.reaches.moves tame)
    have length : ((frame.closeTuple place).operator place ",").pieces.length - 1 =
        (frame.closeTuple place).pieces.length := by
      simp [Frame.operator, Frame.push]
    exact length ▸ front.append _

theorem convertConnector_sound (isConnector : t.isOp "~" = true) (member : t ∈ source.tokens) :
    source.Finds (convertConnector place frame t rest) (Flow.Sound source place whole rest) := by
  have tuples : source.Has "~" := ⟨t, member, isConnector⟩
  have vary : frame.vary.Sound source whole (t :: rest) := sound
  obtain ⟨covers, reachable⟩ := vary.openTuple tuples place
  refine .note_bind member (canPlay_of_isOp isConnector (by decide) _) (.pure ⟨List.suffix_rfl, ?_⟩)
  have grows : (frame.vary.openTuple place).Grows source (t :: rest) []
      ((frame.vary.openTuple place).operator place ",") rest :=
    ((Frame.Grows.refl source _ (t :: rest)).operator (by decide) place).skip
      (.cons (isCopiedLiteral_of_isOp isConnector) .refl)
  exact (covers.grow grows).markParams fun tame tuples => (reachable tame tuples).grow grows

theorem convertAt_sound (isMark : t.isOp "@" = true) (member : t ∈ source.tokens) (holds : source.Holds rest) :
    source.Finds (convertAt place frame t rest) (Flow.Sound source place whole rest) := by
  have operator : t.category = .operator ∧ t.text = "@" := by
    simpa [isOp] using isMark
  have plain : source.Finds (convertPlainOperator place frame t rest) (Flow.Sound source place whole rest) :=
    convertPlainOperator_sound sound operator.1 (by rw [operator.2]; decide) member
  unfold convertAt
  cases rest with
  | nil => exact plain
  | cons word after =>
    refine .ite (fun isWord => .pure ?_) fun _ => plain
    have tidy : Tidy ("@" ++ word.text) :=
      Tidy.append (by decide) (tidy_of_isWord (holds word List.mem_cons_self) isWord)
    have grows := ((Frame.Grows.refl source frame (t :: word :: after)).code tidy .word).skip
      (.cons (isCopiedLiteral_of_isOp isMark) (.cons (isCopiedLiteral_of_isWord isWord) .refl))
    exact sound.advance grows (List.suffix_cons word after)

end

/-! ## Arguments without brackets -/

theorem afterArguments_sound (sound : frame.Sound source whole (semicolon :: ts))
    (other : semicolon.isCopiedLiteral = false)
    (suffix : ts <:+ rest) :
    Flow.Sound source place whole rest (afterArguments place frame semicolon ts) := by
  have skips : source.Takes (semicolon :: ts) 0 ts := .cons other .refl
  unfold afterArguments
  split
  · have grows : frame.Grows source (semicolon :: ts) [] (frame.operator place ".") ts :=
      ((Frame.Grows.refl source frame (semicolon :: ts)).operator (by decide) place).skip skips
    exact ⟨suffix, sound.grow grows⟩
  · split
    · next statement => exact sound.1.stopAt other (by rw [statement.1]; nofun)
    · exact ⟨suffix, sound.grow ((Frame.Grows.refl source frame (semicolon :: ts)).skip skips)⟩

def ArgumentKind.Sound (source : Source) : ArgumentKind → Prop
  | .expression => True
  | .type keyword => keyword ∈ source.tokens

theorem blames_missingArgument (kind_sound : kind.Sound source) (place_sound : place.Sound source)
    (member : before ∈ source.tokens)
    {next : Option Token} (next_member : ∀ t ∈ next, t ∈ source.tokens) :
    source.Blames (kind.missing place before next) := by
  cases kind with
  | type keyword => exact blames_missing kind_sound _
  | expression =>
    refine blames_missing ?_ _
    cases next with
    | some t => exact next_member t rfl
    | none =>
      cases fence : place.fence with
      | some t => simpa [fence] using place_sound t fence
      | none => simpa [fence] using member

section

variable (inner_sound : inner.SoundExpressions source region) (kind_sound : kind.Sound source)
  (place_sound : place.Sound source)
include inner_sound kind_sound place_sound

theorem convertArgument_sound {state : ArgumentState} {opened : List Bracket}
    (grows : start.Grows source ts opened state.frame (first :: more))
    (member : state.before ∈ source.tokens) (within : source.Within region (first :: more)) :
    source.Finds (convertArgument inner kind place state first more) fun arg =>
      start.Grows source ts opened arg.value arg.rest ∧ arg.rest <:+ first :: more ∧
        ∀ t ∈ arg.rest.head?, t.isCopiedLiteral = false := by
  cases kind with
  | type keyword =>
    unfold convertArgument
    cases split : splitTop (fun t => t.isOp "," || t.isOp ";") (first :: more) with
    | some s =>
      have before := (within.splitTop split).1.holds.significant
      refine .bind (readWhole_sound kind_sound before) fun type read => .pure ?_
      have takes := Takes.splitTop_found split (.of_significant read.1)
      refine ⟨(grows.code (read.2.tidy_render type .plain) .word).skip takes, takes.suffix, ?_⟩
      have found : s.found.isOp "," = true ∨ s.found.isOp ";" = true := by
        simpa using found_of_splitTopAt split
      rintro _ ⟨⟩
      exact found.elim isCopiedLiteral_of_isOp isCopiedLiteral_of_isOp
    | none =>
      refine .bind (readWhole_sound kind_sound within.holds.significant) fun type read =>
        .pure ?_
      have takes := Takes.of_significant read.1
      exact ⟨(grows.code (read.2.tidy_render type .plain) .word).skip takes, takes.suffix, nofun⟩
  | expression =>
    refine .bind (inner_sound (state.frame.innerPlace place .args place.fence) first more place_sound
      within) fun arg expresses => .guard (blames_missingArgument kind_sound place_sound member ?_)
        fun _ => .pure ?_
    · intro t head
      exact (within.suffix expresses.takes.suffix).holds t (List.mem_of_mem_head? head)
    · exact ⟨grows.append expresses.steady expresses.takes, expresses.takes.suffix, expresses.ends⟩

/-- The arguments are closed by what their opener asks for. -/
theorem convertArguments_sound {b : Bracket}
    (sound : start.Sound source whole (t :: rest)) (member : before ∈ source.tokens)
    (grows : start.Grows source (t :: rest) [b] frame rest) (within : source.Within region rest) :
    source.Finds (convertArguments inner kind b.closer place frame before rest)
      (Flow.Sound source place whole rest) := by
  refine .walk (fun state ts => state.before ∈ source.tokens ∧
    start.Grows source (t :: rest) [b] state.frame ts ∧ ts <:+ rest) ?_ ?_
    ⟨member, grows, List.suffix_rfl⟩
  · rintro state first more ⟨member, grows, suffix⟩
    have within := within.suffix suffix
    refine .bind (convertArgument_sound inner_sound kind_sound place_sound grows member within)
      fun arg converted => ?_
    obtain ⟨arg, rest'⟩ := arg
    obtain ⟨grows, taken, ends⟩ := converted
    have closed := grows.closing place
    cases rest' with
    | nil => exact .pure ⟨List.nil_suffix, sound.grow closed⟩
    | cons t' rest' =>
      have rest_suffix := suffix_tail taken
      refine .ite (fun comma => .pure ?_) fun _ => .pure ?_
      · have skips : source.Takes (t' :: rest') 0 rest' :=
          .cons (isCopiedLiteral_of_isOp comma) .refl
        exact ⟨rest_suffix, (within.suffix taken).head, (grows.operator (by decide) place).skip skips,
          (List.suffix_cons t' rest').trans (taken.trans suffix)⟩
      · exact afterArguments_sound (sound.grow closed) (ends t' rfl)
          ((List.suffix_cons t' rest').trans (taken.trans suffix))
  · rintro state ⟨member, -, -⟩
    exact .fail (blames_missingArgument kind_sound place_sound member nofun)

end

theorem mem_of_emptyParens (holds : source.Holds ts) (empty : emptyParens? ts = some opening) :
    opening ∈ source.tokens := by
  unfold emptyParens? at empty
  split at empty
  · next first more started =>
    have member := (started ▸ holds.skipTrivia : source.Holds (first :: more)) first List.mem_cons_self
    split at empty
    · split at empty
      · cases empty
        exact member
      · cases empty
    · cases empty
  · cases empty

theorem convertIndexer_sound (inner_sound : inner.SoundExpressions source region)
    (place_sound : place.Sound source) (sound : frame.Sound source whole (t :: rest))
    (isMark : t.isOp "#" = true) (member : t ∈ source.tokens) (within : source.Within region rest) :
    source.Finds (convertIndexer inner place frame t rest) (Flow.Sound source place whole rest) := by
  have skips : source.Takes (t :: rest) 0 rest := .cons (isCopiedLiteral_of_isOp isMark) .refl
  have opening : frame.Grows source (t :: rest) [.square] (frame.vary.operator place "[") rest :=
    ((Frame.Grows.refl source frame (t :: rest)).opening .square place).skip skips
  unfold convertIndexer
  refine .note_bind member (canPlay_of_isOp isMark (by decide) _) ?_
  cases empty : emptyParens? rest with
  | some opening =>
    exact .fail (blames_unexpected (mem_of_emptyParens within.holds empty))
  | none =>
    refine .ite (fun _ => .pure ?_) fun _ => ?_
    · exact sound.advance (opening.closing place) List.suffix_rfl
    · have kind_sound : ArgumentKind.expression.Sound source := trivial
      exact convertArguments_sound inner_sound kind_sound place_sound sound member opening within

theorem Token.isWord_of_keywords (keyword : t.category = .keyword ∨ t.category = .contextKeyword) :
    t.isWord = true := by
  rcases keyword with keyword | keyword <;> simp [isWord, keyword]

theorem convertMethodKeyword_sound (inner_sound : inner.SoundExpressions source region)
    (place_sound : place.Sound source) (sound : frame.Sound source whole (t :: rest))
    (keyword : t.category = .keyword ∨ t.category = .contextKeyword) (member : t ∈ source.tokens)
    (within : source.Within region rest) :
    source.Finds (convertMethodKeyword inner place frame t rest) (Flow.Sound source place whole rest) := by
  have isWord := isWord_of_keywords keyword
  have grows : frame.Grows source (t :: rest) [] (frame.word t.text) rest :=
    ((Frame.Grows.refl source frame (t :: rest)).code (tidy_of_isWord member isWord) .word).skip
      (.cons (isCopiedLiteral_of_isWord isWord) .refl)
  have alone : Flow.Sound source place whole rest (.next (frame.word t.text) rest) :=
    sound.advance grows List.suffix_rfl
  unfold convertMethodKeyword
  refine .ite (fun _ => .pure alone) fun _ => .ite (fun _ => .pure alone) fun _ =>
    .note_bind member keyword ?_
  have kind_sound : (if typeKeywords.contains t.text then ArgumentKind.type t
      else .expression).Sound source := by
    split
    · exact member
    · trivial
  exact convertArguments_sound inner_sound kind_sound place_sound sound member (grows.opening .round place) within

/-! ## Types in expressions -/

theorem convertNewType_sound (sound : frame.Sound source whole rest) (member : t ∈ source.tokens)
    (holds : source.Holds rest) :
    source.Finds (convertNewType frame t rest) (Flow.Sound source place whole rest) := by
  unfold convertNewType
  cases started : skipTrivia rest with
  | nil => exact .pure ⟨List.suffix_rfl, sound⟩
  | cons first more =>
    have within := (started ▸ holds.skipTrivia).within
    refine .ite (fun _ => .pure ⟨List.suffix_rfl, sound⟩) fun _ => ?_
    cases split : splitTop (·.isOpIn newTypeEnds) (first :: more) with
    | some s =>
      have before := (within.splitTop split).1.holds.significant
      refine .bind (readWhole_sound member before) fun type read => .pure ?_
      have takes := Takes.of_skipTrivia started (Takes.splitTop_found split (.of_significant read.1))
      have grows := ((Frame.Grows.refl source frame rest).code (read.2.tidy_render type .plain) .word).skip takes
      exact ⟨takes.suffix, sound.grow grows⟩
    | none =>
      refine .bind (readWhole_sound member within.holds.significant) fun type read => .pure ?_
      have takes := Takes.of_skipTrivia started (Takes.of_significant read.1)
      have grows := ((Frame.Grows.refl source frame rest).code (read.2.tidy_render type .plain) .word).skip takes
      exact ⟨takes.suffix, sound.grow grows⟩

/-- The significant tokens after the first of them. -/
theorem dropSignificant_spec (same : significant ts = used ++ more) :
    dropSignificant used.length ts <:+ ts ∧ significant (dropSignificant used.length ts) = more := by
  induction ts generalizing used with
  | nil =>
    have : used = [] ∧ more = [] := by simpa [significant] using same.symm
    obtain ⟨rfl, rfl⟩ := this
    exact ⟨List.suffix_rfl, rfl⟩
  | cons t ts ih =>
    cases used with
    | nil => exact ⟨List.suffix_rfl, same⟩
    | cons head used =>
      cases trivia : t.isTrivia with
      | true =>
        have others : significant ts = head :: used ++ more := by
          simpa [significant, trivia] using same
        have dropped := ih others
        rw [List.length_cons, dropSignificant, if_pos trivia]
        exact ⟨dropped.1.trans (List.suffix_cons t ts), dropped.2⟩
      | false =>
        have others : significant ts = used ++ more := by
          have cons := same
          simp only [significant, trivia, Bool.not_false, List.filter_cons_of_pos, List.cons_append,
            List.cons.injEq] at cons
          exact cons.2
        have dropped := ih others
        rw [List.length_cons, dropSignificant, if_neg (by simp [trivia])]
        exact ⟨dropped.1.trans (List.suffix_cons t ts), dropped.2⟩

theorem convertFunctionType_sound (sound : frame.Sound source whole (t :: rest)) (isWord : t.isWord = true)
    (holds : source.Holds (t :: rest)) :
    source.Finds (convertFunctionType frame t rest) (Flow.Sound source place whole rest) := by
  have first : significant (t :: rest) = t :: significant rest := by
    simp [significant, isTrivia_of_isWord isWord]
  have member : t ∈ source.tokens := holds t List.mem_cons_self
  have type_holds : source.Holds (t :: significant rest) := first ▸ holds.significant
  unfold convertFunctionType
  rw [first]
  refine .bind (sound_reader _ type_holds) fun type read => ?_
  obtain ⟨type, after⟩ := type
  obtain ⟨passes, neat⟩ := read
  obtain ⟨used, parts⟩ := passes.others.suffix
  have whole_eq : t :: significant rest = (t :: used) ++ after := by rw [List.cons_append, parts]
  rw [whole_eq, tokensBefore_append, pure_bind]
  refine .pure ?_
  obtain ⟨suffix, dropped⟩ := dropSignificant_spec parts.symm
  have takes : source.Takes rest 0 (dropSignificant used.length rest) := by
    refine ⟨suffix, fun direct => ?_⟩
    rw [← literals_significant rest, ← literals_significant (dropSignificant _ _), dropped,
      passes.others.kept direct]
  have takes := takes.before (.skipTrivia _)
  have grows := ((Frame.Grows.refl source frame (t :: rest)).code (neat.tidy_render type .plain)
    .word).skip (takes.cons (isCopiedLiteral_of_isWord isWord))
  exact ⟨takes.suffix, sound.grow grows⟩

/-! ## Keywords -/

theorem convertPlainKeyword_sound (sound : frame.Sound source whole (t :: rest))
    (keyword : t.category = .keyword ∨ t.category = .contextKeyword) (member : t ∈ source.tokens) :
    source.Finds (convertPlainKeyword frame t rest) (Flow.Sound source place whole rest) := by
  have isWord := isWord_of_keywords keyword
  have grown (spacing : Spacing) : (frame.push (.code t.text spacing)).Sound source whole rest :=
    sound.grow (((Frame.Grows.refl source frame (t :: rest)).code (tidy_of_isWord member isWord)
      spacing).skip (.cons (isCopiedLiteral_of_isWord isWord) .refl))
  unfold convertPlainKeyword
  refine .ite (fun _ => .note_bind member keyword (.pure ?_)) fun _ => .ite (fun _ => .pure ?_) fun _ => .pure ?_
  · exact ⟨List.suffix_rfl, (grown .keyword).1.restart⟩
  · exact ⟨List.suffix_rfl, (grown .keyword).markParams⟩
  · exact ⟨List.suffix_rfl, grown .word⟩

section

variable (inner_sound : inner.Sound source region) (place_sound : place.Sound source)
  (sound : frame.Sound source whole (t :: rest))
include inner_sound place_sound sound

theorem convertKeyword_sound
    (keyword : t.category = .keyword ∨ t.category = .contextKeyword) (member : t ∈ source.tokens)
    (within : source.Within region rest) :
    source.Finds (convertKeyword inner place frame t rest) (Flow.Sound source place whole rest) := by
  have isWord := isWord_of_keywords keyword
  have grows (spacing : Spacing) : frame.Grows source (t :: rest) [] (frame.push (.code t.text spacing)) rest :=
    ((Frame.Grows.refl source frame (t :: rest)).code (tidy_of_isWord member isWord)
      spacing).skip (.cons (isCopiedLiteral_of_isWord isWord) .refl)
  have vary : frame.vary.Sound source whole (t :: rest) := sound
  unfold convertKeyword
  refine .ite (fun _ => .pure (sound.advance (grows .word) List.suffix_rfl)) fun _ =>
    .ite (fun _ => .fail (blames_missing member _)) fun _ =>
    .ite (fun _ => convertMethodKeyword_sound inner_sound.expressions place_sound vary keyword member
      within) fun _ => ?_
  split
  · exact convertFunctionType_sound vary isWord (by simpa using ⟨member, within.holds⟩)
  · next text =>
    have isSwitch : t.isKeyword "switch" = true := by
      rcases keyword with h | h <;> simp [isKeyword, h, text]
    exact convertSwitchExpression_sound inner_sound.expressions vary isSwitch member within
  · have new : frame.Grows source (t :: rest) [] (frame.vary.word "new") rest :=
      ((Frame.Grows.refl source frame (t :: rest)).code (by decide) .word).skip
        (.cons (isCopiedLiteral_of_isWord isWord) .refl)
    exact convertNewType_sound (sound.grow new) member within.holds
  · exact .pure ⟨List.suffix_rfl, (sound.grow (grows .keyword)).markParams⟩
  · exact .pure ⟨List.suffix_rfl, (sound.grow (grows .keyword)).markParams⟩
  · exact convertPlainKeyword_sound vary keyword member

theorem convertOperator_sound (operator : t.category = .operator)
    (holds : source.Holds whole) (within : source.Within region rest) :
    source.Finds (convertOperator inner place frame t rest) (Flow.Sound source place whole rest) := by
  have member : t ∈ source.tokens := (sound.1.takes.within holds.within).head
  have isOp {text : String} (same : t.text = text) : t.isOp text = true := by
    simp [Token.isOp, operator, same]
  have other : t.isCopiedLiteral = false := by simp [isCopiedLiteral, operator]
  unfold convertOperator
  split
  · exact .ite (fun _ => .fail (blames_unexpected member)) fun mode =>
      .pure (sound.1.stopAt other mode)
  · next comma =>
    refine .ite (fun args => .pure (sound.1.stopAt other (by rw [args]; decide))) fun _ => .pure ?_
    exact ⟨List.suffix_rfl, convertComma_sound sound (isOp comma) member⟩
  · next opens => exact convertGroup_sound inner_sound.expressions sound (isOp opens) member within
  · next opens => exact convertBraces_sound inner_sound.expressions sound (isOp opens) member within
  · exact .fail (blames_unexpected member)
  · exact .fail (blames_unexpected member)
  · next mark =>
    exact convertIndexer_sound inner_sound.expressions place_sound sound (isOp mark) member within
  · next connector => exact convertConnector_sound sound (isOp connector) member
  · next arrow => exact convertLambda_sound inner_sound.blocks sound (isOp arrow) holds within
  · next mark => exact convertAt_sound sound (isOp mark) member within.holds
  · refine convertPlainOperator_sound sound operator ?_ member
    simp only [bracketOperators, List.mem_cons, List.not_mem_nil, or_false, not_or]
    exact ⟨‹_›, ‹_›, ‹_›, ‹_›⟩

end

/-! ## Whole expressions -/

theorem convertToken_sound (inner_sound : inner.Sound source region) (place_sound : place.Sound source)
    (sound : frame.Sound source whole (t :: rest)) (holds : source.Holds whole)
    (within : source.Within region rest) :
    source.Finds (convertToken inner place frame t rest) (Flow.Sound source place whole rest) := by
  have member : t ∈ source.tokens := (sound.1.takes.within holds.within).head
  have skips (other : t.isCopiedLiteral = false) : frame.Grows source (t :: rest) [] frame rest :=
    (Frame.Grows.refl source frame (t :: rest)).skip (.cons other .refl)
  have literal (isLiteral : t.isCopiedLiteral = true) (onLine : OnLine t.text) :
      Flow.Sound source place whole rest (.next (frame.push (.literal t.text)) rest) := by
    refine sound.advance ((Frame.Grows.refl source frame (t :: rest)).push
      (steady_literal onLine) ⟨List.suffix_cons t rest, fun _ => ?_⟩) List.suffix_rfl
    rw [literals_cons, literals_singleton_of_literal isLiteral, copiedLiterals_literal,
      copiedLiterals_nil, add_zero]
  have regular := source.regular t member
  unfold Token.Regular RegularText at regular
  unfold convertToken
  cases category : t.category with
  | lineBreak | space | comment =>
    exact .pure (sound.advance (skips (by simp [isCopiedLiteral, category])) List.suffix_rfl)
  | operator => exact convertOperator_sound inner_sound place_sound sound category holds within
  | keyword =>
    exact convertKeyword_sound inner_sound place_sound sound (.inl category) member within
  | contextKeyword =>
    exact convertKeyword_sound inner_sound place_sound sound (.inr category) member within
  | identifier =>
    have isWord : t.isWord = true := by simp [Token.isWord, category]
    have grows := ((Frame.Grows.refl source frame (t :: rest)).code (tidy_of_isWord member isWord) .word).skip
        (.cons (isCopiedLiteral_of_isWord isWord) .refl)
    exact .pure (sound.advance grows List.suffix_rfl)
  | stringLiteral | rawStringLiteral | charLiteral | numberLiteral =>
    rw [category] at regular
    exact .pure (literal (by simp [isCopiedLiteral, category]) regular)

theorem sound_start (source : Source) (ts : List Token) : (Frame.start ts).Sound source ts ts :=
  ⟨⟨.refl, .nil, nofun⟩, ⟨Nat.le_refl _, .refl, List.suffix_rfl, 0, .nil, .inl rfl⟩,
    fun _ _ => ⟨Nat.le_refl _, 0, .nil⟩, fun _ _ lt => absurd lt (Nat.lt_irrefl _)⟩

/-- Converting an expression is sound, if converting what it contains is. -/
theorem convertExpression_sound (inner_sound : inner.Sound source region) (place_sound : place.Sound source)
    (within : source.Within region rest) (member : t ∈ source.tokens) :
    source.Finds (convertExpression inner place (t :: rest)) (source.Expresses place (t :: rest)) := by
  have holds : source.Holds (t :: rest) := by simpa using ⟨member, within.holds⟩
  unfold convertExpression
  refine .walk (fun frame ts => frame.Sound source (t :: rest) ts) ?_ ?_ (sound_start source _)
  · intro frame t' rest' sound
    have suffix : rest' <:+ rest := suffix_tail sound.1.takes.suffix
    refine (convertToken_sound inner_sound place_sound sound holds (within.suffix suffix)).mono ?_
    intro step step_sound
    cases step with
    | next frame rest | stop e => exact step_sound
  · intro frame sound
    obtain ⟨takes, steady⟩ := sound.1.finish place
    exact .pure ⟨takes, steady, nofun, fun _ => rfl⟩

end Rounds

end Sharp
