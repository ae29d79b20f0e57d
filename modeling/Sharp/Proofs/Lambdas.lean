import Sharp.Proofs.Frames

/-!
# Lambdas

The parameters of a lambda are found among the tokens taken so far.  Those with types hold no
literals, so nothing is lost when they are written anew.

* `convertParams_sound`, `convertLambda_sound`: the frame after the parameters, and after the whole
  lambda.
-/

namespace Sharp

open Source

/-! ## Blocks in expressions -/

section Blocks

variable {source : Source} {ts middle rest : List Token} {frame frame' : Frame} {pieces : List Piece}
  {opened : List Bracket}

theorem steady_block (leads : source.Leads ⟨.quiet, []⟩ pieces ⟨.quiet, []⟩) (level : Nat) :
    source.Steady (.line " \x7b" :: (pieces ++ (Piece.indents level ++ [Piece.raw "\x7d"]))) := by
  refine steady_of_leads fun q => ?_
  have opening : source.Leads ⟨q, []⟩ [.line " \x7b"] ⟨.quiet, [.curly]⟩ :=
    leads_line (by decide) (by decide) (by decide)
  have closing : source.Leads ⟨.indented, [.curly]⟩ [.raw "\x7d"] ⟨.quiet, []⟩ :=
    leads_raw (by decide) (by decide) (by decide)
  exact opening.append ((leads.extend [.curly]).append
    ((leads_indents level).append (closing.weaken (LineState.le_quiet _))))

theorem Frame.Grows.block (grows : frame.Grows source ts opened frame' middle)
    (leads : source.Leads ⟨.quiet, []⟩ pieces ⟨.quiet, []⟩)
    (takes : source.Takes middle (copiedLiterals pieces) rest) (level : Nat) :
    frame.Grows source ts opened ((((frame'.push (.line " \x7b")).append pieces).append (Piece.indents level)).push
        (.raw "\x7d")) rest := by
  have added : frame.Grows source ts opened (frame'.append _) rest :=
    grows.append (steady_block leads level) (by simpa using takes)
  simpa [Frame.append, Frame.push] using added

end Blocks

/-! ## Parameters -/

section Params

variable {source : Source} {whole ts params rest : List Token} {frame : Frame} {place : Place}
  {t head : Token} {more : List Token}

theorem tokensBefore_append (t : Token) (params ts : List Token) :
    tokensBefore t (params ++ ts) ts = return params := by
  rw [tokensBefore, if_pos (by simp), List.length_append, Nat.add_sub_cancel, List.take_left]

theorem Frame.Grows.addSlots {start : Frame} {opened : List Bracket} (place : Place)
    {slots : List Slot} (neat : ∀ slot ∈ slots, slot.Neat)
    (grows : start.Grows source ts opened frame rest) :
    start.Grows source ts opened (frame.addSlots place slots) rest := by
  fun_induction Frame.addSlots frame place slots with
  | case1 frame => exact grows
  | case2 frame slot => exact grows.code (neat slot List.mem_cons_self).tidy_render .word
  | case3 frame slot slots _ ih =>
    obtain ⟨slot_neat, others⟩ := List.forall_mem_cons.1 neat
    exact ih others ((grows.code slot_neat.tidy_render .word).operator (by decide) place)

theorem has_of_hasTop {text : String} (holds : source.Holds ts) (top : hasTop (·.isOp text) ts = true) :
    source.Has text := by
  obtain ⟨s, split⟩ := Option.isSome_iff_exists.1 top
  exact ⟨s.found, (holds.within.splitTop split).2.1, found_of_splitTopAt split⟩

/-- The tokens of the parameters, without the parentheses around them. -/
theorem takes_paramGroup {inside : List Token}
    (same : ((paramGroup? head more).map Split.before).getD (head :: more) = inside)
    (takes : source.Takes inside 0 []) : source.Takes (head :: more) 0 [] := by
  unfold paramGroup? at same
  split at same
  · next opens =>
    cases split : splitClose .parenthesis more with
    | none => rw [split] at same; simpa [← same] using takes
    | some s =>
      rw [split] at same
      cases empty : s.after.isEmpty with
      | false => simpa [Option.filter, empty, ← same] using takes
      | true =>
        have inside : source.Takes s.before 0 [] := by simpa [Option.filter, empty, ← same] using takes
        have all := Source.Takes.splitClose split inside
        rw [List.isEmpty_iff.1 empty] at all
        exact all.cons (Token.isCopiedLiteral_of_isOp opens)
  · simpa [← same] using takes

theorem holds_paramGroup (holds : source.Holds (head :: more)) :
    source.Holds (((paramGroup? head more).map Split.before).getD (head :: more)) := by
  unfold paramGroup?
  split
  · cases split : splitClose .parenthesis more with
    | none => simpa using holds
    | some s =>
      have before := (holds.within.tail.splitClose split).1.holds
      cases empty : s.after.isEmpty with
      | false => simpa [Option.filter, empty] using holds
      | true => simpa [Option.filter, empty] using before
  · simpa using holds

theorem Reachable.take {pieces : List Piece} {mark place : Nat} (reachable : Reachable pieces place)
    (le : place ≤ mark) : Reachable (pieces.take mark) place := by
  obtain ⟨bound, count, moves⟩ := reachable
  exact ⟨by rw [List.length_take]; omega, count, by rwa [List.take_take, Nat.min_eq_left le]⟩

/-- The frame after the parameters of a lambda, whose arrow `t` comes next. -/
theorem convertParams_sound (sound : frame.Sound source whole (t :: rest)) (isArrow : t.isOp "=>" = true)
    (member : t ∈ source.tokens) (parts : frame.params = params ++ t :: rest)
    (found : significant params = head :: more) (holds : source.Holds params) :
    source.Finds (convertParams place frame head more) fun frame' =>
      Covers source whole frame'.pieces frame'.tuple (t :: rest) ∧
        (source.Tame → source.Has "~" → Reachable frame'.pieces frame'.segment) := by
  obtain ⟨covers, marks, segment⟩ := sound
  obtain ⟨count, front, counted⟩ := marks.reaches
  have holds : source.Holds (head :: more) := found ▸ holds.significant
  unfold convertParams
  refine .ite (fun typed => ?_) fun _ => .ite (fun _ => ?_) fun _ => ?_
  · -- With types: the pieces from the first parameter on are written anew.
    have arrow : source.Has "=>" := ⟨t, member, isArrow⟩
    have colon := has_of_hasTop (holds_paramGroup holds) typed
    refine .bind (readSlots_sound (holds_paramGroup holds)) fun slots read => .pure ?_
    have literals_params : source.Takes params 0 [] := .of_significant (by
      rw [found]
      exact takes_paramGroup rfl read.1)
    have takes : source.Takes whole (copiedLiterals (frame.pieces.take frame.paramsMark)) (t :: rest) := by
      refine marks.takes.before ⟨marks.suffix, fun direct => ?_⟩
      rw [parts, literals_append, literals_params.literals_eq direct]
    have settled : source.Tame → count = frame.tuple.opened := fun tame =>
      counted.resolve_right fun both => tame ⟨both.1, both.2, arrow, colon⟩
    have front : source.Reaches (frame.pieces.take frame.paramsMark) (parens frame.tuple.opened) :=
      ⟨front.lines, fun tame => settled tame ▸ front.moves tame⟩
    have covers : Covers source whole (frame.pieces.take frame.paramsMark) frame.tuple (t :: rest) :=
      ⟨takes, front, covers.tuple⟩
    have grows := (((Frame.Grows.refl source (frame.truncate frame.paramsMark)
      (t :: rest)).opening .round place).addSlots place read.2).closing place
    refine ⟨covers.grow grows, fun tame tuples => ?_⟩
    · have notBehind : ¬ frame.paramsMark < frame.segment := fun lt =>
        tame ⟨tuples, (segment.behind tame tuples lt).1, arrow, colon⟩
      have reachable := (segment.reachable tame tuples).take (Nat.le_of_not_lt notBehind)
      exact reachable.grow grows
  · exact .pure ⟨covers, segment.reachable⟩
  · -- Without: they are put in parentheses.
    have inserted := reaches_withOpening covers.reaches fun tame => ⟨count, front.moves tame⟩
    have closed := inserted.code (by decide) (by decide) (nest_extend (nest_closer .round))
      (operatorSpacing ")" ((frame.insertOpening frame.paramsMark).endsOperand place))
    refine .pure ⟨⟨?_, closed, covers.tuple⟩, fun tame tuples => ?_⟩
    · change source.Takes whole (copiedLiterals (withOpening frame.pieces frame.paramsMark ++ _)) _
      rw [copiedLiterals_append, copiedLiterals_withOpening]
      simpa using covers.takes
    · have reachable := segment.reachable tame tuples
      have shifted : Reachable (withOpening frame.pieces frame.paramsMark) frame.segment := by
        by_cases behind : frame.paramsMark < frame.segment
        · exact reachable_withOpening_of_lt (segment.behind tame tuples behind).2
            ⟨count, front.moves tame⟩ behind reachable.1
        · exact reachable_withOpening_of_le reachable (Nat.le_of_not_lt behind)
      exact shifted.append _

/-- A lambda in a frame, from its arrow on. -/
theorem convertLambda_sound {inner : Converters} {region : List Token} (inner_sound : inner.SoundBlocks source region)
    (sound : frame.Sound source whole (t :: rest)) (isArrow : t.isOp "=>" = true)
    (holds : source.Holds whole) (within : source.Within region rest) :
    source.Finds (convertLambda inner place frame t rest) (Flow.Sound source place whole rest) := by
  have member : t ∈ source.tokens := (sound.1.takes.within holds.within).head
  obtain ⟨params, parts⟩ := sound.2.1.suffix
  have params_holds : source.Holds params := by
    have all := holds.suffix sound.2.1.takes.suffix
    rw [← parts] at all
    exact (Source.holds_append.1 all).1
  refine .note_bind member (Token.canPlay_of_isOp isArrow (by decide) _) ?_
  rw [← parts, tokensBefore_append, pure_bind]
  cases found : significant params with
  | nil => exact .fail (Source.blames_missing member _)
  | cons head more =>
    have params_sound : frame.vary.Sound source whole (t :: rest) := sound
    refine .bind (convertParams_sound params_sound isArrow member parts.symm found params_holds)
      fun frame' converted => ?_
    obtain ⟨covers, reachable⟩ := converted
    have arrow : frame'.Grows source (t :: rest) [] (frame'.operator place "=>") rest :=
      ((Frame.Grows.refl source frame' (t :: rest)).operator (by decide) place).skip
        (.cons (Token.isCopiedLiteral_of_isOp isArrow) .refl)
    have covers := covers.grow arrow
    have restarted := covers.restart
    cases started : skipTrivia rest with
    | nil => exact .pure ⟨List.suffix_rfl, restarted⟩
    | cons first body =>
      refine .ite (fun _ => .pure ⟨List.suffix_rfl, restarted⟩) fun braced => ?_
      have body_within := started ▸ within.skipTrivia
      cases split : splitClose .brace body with
      | none => exact .fail (Source.blames_missing body_within.head _)
      | some s =>
        have inside := (body_within.tail.splitClose split).1
        refine .bind (inner_sound.block _ [] inside).capture fun pieces captured => .pure ?_
        obtain ⟨taken, leads⟩ := captured
        have braced : first.isOp "\x7b" = true := by simpa using braced
        have takes : source.Takes rest (copiedLiterals pieces) s.after :=
          .of_skipTrivia started (.cons (Token.isCopiedLiteral_of_isOp braced) (.splitClose split taken))
        have grows := (Frame.Grows.refl source (frame'.operator place "=>") rest).block
          leads takes place.scope.level
        refine ⟨takes.suffix, (covers.grow grows).markParams fun tame tuples => ?_⟩
        exact ((reachable tame tuples).grow arrow).grow grows

end Params

end Sharp
