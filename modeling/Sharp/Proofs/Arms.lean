import Sharp.Proofs.Lambdas
import Sharp.Switch.Expression

/-!
# The arms of switches

* `splitSwitch_sound`, `splitArms_sound`: the parts of a switch are among its tokens.
* `convertSwitchExpression_sound`: a switch in an expression.
-/

namespace Sharp

open Source

variable {arm : Arm} {first : Token} {more : List Token} {arms : List Arm}

section Splitting

variable {source : Source} {region : List Token} {t : Token} {ts rest : List Token}

/-- The parts of a switch belong to the source. -/
structure SwitchParts.Sound (source : Source) (region rest : List Token) (parts : SwitchParts) : Prop where
  subject : source.Within region parts.subject
  opening : parts.opening ∈ source.tokens
  inside : source.Within region parts.inside
  closing : parts.closing ∈ source.tokens
  after : parts.after <:+ rest

theorem splitSwitch_sound (member : t ∈ source.tokens) (within : source.Within region ts) :
    source.Checks (splitSwitch t ts) (SwitchParts.Sound source region ts) := by
  unfold splitSwitch
  cases split : splitTop (·.isOp "\x7b") ts with
  | none => exact .error (blames_missing member _)
  | some head =>
    obtain ⟨subject, opening, after⟩ := within.splitTop split
    refine .ite (fun _ => .error (blames_missing member _)) fun _ => ?_
    cases split' : splitClose .brace head.after with
    | none => exact .error (blames_missing opening _)
    | some body =>
      obtain ⟨inside, closing, -⟩ := after.splitClose split'
      have suffix := (suffix_of_split (eq_of_splitClose split')).trans (suffix_of_split (eq_of_splitTop split))
      exact .ok ⟨subject, opening, inside, closing, suffix⟩

/-- The parts of an arm belong to the source. -/
structure Arm.Sound (source : Source) (region : List Token) (arm : Arm) : Prop where
  pattern : source.Within region arm.pattern
  arrow : arm.arrow ∈ source.tokens
  body : source.Within region (arm.body ++ arm.separator.toList)

theorem Arm.Sound.separator (sound : arm.Sound source region) : ∀ t ∈ arm.separator, t ∈ source.tokens := by
  intro t member
  refine sound.body.holds t (List.mem_append_right _ ?_)
  simpa using member

/-- What stands behind a token that is not the first one. -/
theorem after_suffix_of_split {s : Split} (parts : first :: more = s.before ++ s.found :: s.after)
    (nonempty : s.before ≠ []) :
    s.after <:+ more := by
  obtain ⟨before, found, after⟩ := s
  cases before with
  | nil => exact absurd rfl nonempty
  | cons b before =>
    obtain ⟨rfl, rfl⟩ := List.cons.inj parts
    exact ⟨before ++ [found], by simp⟩

theorem splitArmBody_sound {blocks : Bool} {head : Split} {first : Token} {more : List Token}
    (pattern : source.Within region head.before) (arrow : head.found ∈ source.tokens)
    (within : source.Within region (first :: more)) :
    source.Checks (splitArmBody blocks head first more) fun arm =>
      arm.value.Sound source region ∧ arm.rest <:+ more := by
  unfold splitArmBody
  refine .ite (fun _ => ?_) fun _ => .ite (fun _ => .error (Source.blames_missing arrow _)) fun separates => ?_
  · cases split : splitClose .brace more with
    | none => exact .error (Source.blames_missing within.head _)
    | some body =>
      have inside := (within.tail.splitClose split).1
      exact .ok ⟨⟨pattern, arrow, by simpa using inside⟩, Source.suffix_of_split (eq_of_splitClose split)⟩
  · cases split : splitTop Token.isArmSeparator (first :: more) with
    | none => exact .ok ⟨⟨pattern, arrow, by simpa using within⟩, List.nil_suffix⟩
    | some body =>
      have parts := eq_of_splitTop split
      refine .ok ⟨⟨pattern, arrow, within.part ?_⟩, after_suffix_of_split parts fun empty => ?_⟩
      · rw [parts]
        exact ⟨[], body.after, by simp⟩
      · -- The first token of the body separates nothing.
        rw [empty] at parts
        obtain ⟨same, -⟩ := List.cons.inj parts
        exact separates (same ▸ found_of_splitTopAt split)

theorem splitArmRound_sound {blocks : Bool} (within : source.Within region (first :: more))
    (arms_sound : ∀ arm ∈ arms, arm.Sound source region) :
    source.Finds (splitArmRound blocks arms first more) (Step.Meets more
      (fun arms rest => source.Within region rest ∧ ∀ arm ∈ arms, arm.Sound source region)
      fun arms => ∀ arm ∈ arms, arm.Sound source region) := by
  unfold splitArmRound
  refine .ite (fun _ => .pure ⟨List.suffix_rfl, within.tail, arms_sound⟩) fun _ => ?_
  cases split : splitTop (·.isOp "=>") (first :: more) with
  | none => exact .fail (Source.blames_missing within.head _)
  | some head =>
    obtain ⟨pattern, arrow, after⟩ := within.splitTop split
    have isArrow := found_of_splitTopAt split
    refine .note_bind arrow (Token.canPlay_of_isOp isArrow (by decide) _)
      (.guard (Source.blames_missing arrow _) fun nonempty => ?_)
    cases started : skipTrivia head.after with
    | nil => exact .fail (Source.blames_missing arrow _)
    | cons bodyFirst bodyMore =>
      have body_within := started ▸ after.skipTrivia
      have checks := @splitArmBody_sound source region blocks head bodyFirst bodyMore pattern arrow body_within
      dsimp only
      cases armBody : splitArmBody blocks head bodyFirst bodyMore with
      | error fault => exact .fail (checks.blames armBody)
      | ok arm =>
        obtain ⟨arm_sound, suffix⟩ := checks.holds armBody
        have body_suffix : bodyMore <:+ head.after :=
          (List.suffix_cons bodyFirst bodyMore).trans (started ▸ List.dropWhile_suffix _)
        have after_suffix : head.after <:+ more :=
          after_suffix_of_split (eq_of_splitTop split) (by simpa using nonempty)
        have taken := suffix.trans (body_suffix.trans after_suffix)
        exact .pure ⟨taken, within.tail.suffix taken,
          List.forall_mem_append.2 ⟨arms_sound, List.forall_mem_singleton.2 arm_sound⟩⟩

theorem splitArms_sound (blocks : Bool) (within : source.Within region ts) :
    source.Finds (splitArms blocks ts) fun arms => ∀ arm ∈ arms, arm.Sound source region := by
  unfold splitArms
  refine .walk (fun (arms : List Arm) rest =>
    source.Within region rest ∧ ∀ arm ∈ arms, arm.Sound source region) ?_ (fun arms invariant => ?_)
    ⟨within, List.forall_mem_nil _⟩
  · exact fun arms first more invariant => splitArmRound_sound invariant.1 invariant.2
  · exact .pure invariant.2

end Splitting

/-! ## Switches in expressions -/

section Expression

variable {source : Source} {inner : Converters} {region : List Token} {place : Place} {whole rest : List Token}
  {frame frame' : Frame} {t closing : Token}

/-- Whole lines have been added to the frame. -/
def Frame.AddsLines (source : Source) (frame frame' : Frame) : Prop :=
  ∃ added, frame'.pieces = frame.pieces ++ added ∧
    (frame'.tuple, frame'.segment, frame'.params, frame'.paramsMark) =
      (frame.tuple, frame.segment, frame.params, frame.paramsMark) ∧
    source.Leads ⟨.quiet, []⟩ added ⟨.quiet, []⟩

section

variable (inner_sound : inner.SoundExpressions source region) (closing_member : closing ∈ source.tokens)
include inner_sound closing_member

theorem convertArm_sound (arm_sound : arm.Sound source region) :
    source.Finds (convertArm inner place closing frame arm) (frame.AddsLines source) := by
  have arrow : ∀ t ∈ some arm.arrow, t ∈ source.tokens := by simpa using arm_sound.arrow
  have fence : ∀ t ∈ some (arm.separator.getD closing), t ∈ source.tokens := by
    cases separator : arm.separator with
    | none => simpa using closing_member
    | some t => simpa using arm_sound.separator t separator
  have body := arm_sound.body.part (List.prefix_append _ _).isInfix
  refine .bind (inner_sound.group arrow rfl arm_sound.pattern) fun pattern patternGiven =>
    .bind (inner_sound.group fence rfl body) fun value valueGiven => .pure ?_
  let arrowed := (frame.append (Piece.indents (place.scope.level + 1))).append pattern.value.pieces
  let spacing := operatorSpacing "=>" (arrowed.endsOperand place)
  refine ⟨Piece.indents (place.scope.level + 1) ++ (pattern.value.pieces ++
    ([Piece.code "=>" spacing] ++ (value.value.pieces ++ ([Piece.raw ","] ++ [Piece.lineBreak])))),
    ?_, rfl, ?_⟩
  · simp [Frame.append, Frame.operator, Frame.push, spacing, arrowed]
  · have arrow : source.Leads ⟨.indented, []⟩ [.code "=>" spacing] ⟨.loud, []⟩ :=
      (leads_code (by decide) (by decide) rfl).weaken (LineState.loud_le_ofSpacing spacing)
    have comma : source.Leads ⟨.loud, []⟩ [.raw ","] ⟨.quiet, []⟩ :=
      leads_raw (by decide) (by decide) rfl
    have body : source.Leads ⟨.loud, []⟩ value.value.pieces ⟨.loud, []⟩ :=
      valueGiven.2.leads_loud (by decide)
    have ends : source.Leads ⟨.quiet, []⟩ [.lineBreak] ⟨.quiet, []⟩ :=
      leads_lineBreak (by decide)
    exact (leads_indents _).append (patternGiven.2.leads_indented.append (arrow.append
      (body.append (comma.append ends))))

theorem convertArms_sound (arms_sound : ∀ arm ∈ arms, arm.Sound source region) (frame : Frame) :
    source.Finds (convertArms inner place closing frame arms) (frame.AddsLines source) := by
  induction arms generalizing frame with
  | nil => exact .pure ⟨[], (List.append_nil _).symm, rfl, .refl⟩
  | cons arm arms ih =>
    obtain ⟨arm_sound, others_sound⟩ := List.forall_mem_cons.1 arms_sound
    refine .bind (convertArm_sound inner_sound closing_member arm_sound) fun frame' first => ?_
    refine (ih others_sound frame').mono fun frame'' second => ?_
    obtain ⟨added, pieces, others, leads⟩ := first
    obtain ⟨added', pieces', others', leads'⟩ := second
    exact ⟨added ++ added', by rw [pieces', pieces, List.append_assoc], others'.trans others, leads.append leads'⟩

end

/-- What is known about a frame does not depend on whether the value is constant. -/
theorem Frame.Grows.congr {start frame'' : Frame} {ts : List Token} {opened : List Bracket}
    (grows : start.Grows source ts opened frame' rest) (pieces : frame''.pieces = frame'.pieces)
    (others : (frame''.tuple, frame''.segment, frame''.params, frame''.paramsMark) =
      (frame'.tuple, frame'.segment, frame'.params, frame'.paramsMark)) :
    start.Grows source ts opened frame'' rest := by
  obtain ⟨added, pieces', others', reaches, takes⟩ := grows
  exact ⟨added, pieces.trans pieces', others.trans others', reaches, takes⟩

theorem convertSwitchExpression_sound (inner_sound : inner.SoundExpressions source region)
    (sound : frame.Sound source whole (t :: rest)) (isSwitch : t.isKeyword "switch" = true)
    (member : t ∈ source.tokens) (within : source.Within region rest) :
    source.Finds (convertSwitchExpression inner place frame t rest) (Flow.Sound source place whole rest) := by
  have checks := splitSwitch_sound member within
  unfold convertSwitchExpression
  refine .note_bind member (Token.canPlay_of_isKeyword isSwitch _) ?_
  cases split : splitSwitch t rest with
  | error fault => exact .fail (checks.blames split)
  | ok parts =>
    have parts_sound := checks.holds split
    have fence : ∀ t ∈ some parts.opening, t ∈ source.tokens := by simpa using parts_sound.opening
    refine .bind (inner_sound.group fence rfl parts_sound.subject) fun subject given =>
      .bind (splitArms_sound false parts_sound.inside) fun arms arms_sound =>
      .bind (convertArms_sound inner_sound parts_sound.closing arms_sound _) fun frame' lines => .pure ?_
    obtain ⟨added, pieces, others, leads⟩ := lines
    have none : source.Takes (t :: rest) (copiedLiterals subject.value.pieces) (t :: rest) :=
      .of_suffix (Source.not_direct_of_switch isSwitch member) List.suffix_rfl
    have suffix := parts_sound.after.trans (List.suffix_cons t rest)
    have grows := (((Frame.Grows.refl source frame (t :: rest)).append given.2 none).code
      (by decide : Tidy "switch") .keyword).block leads
      (.of_suffix (Source.not_direct_of_switch isSwitch member) suffix) place.scope.level
    refine ⟨parts_sound.after, sound.grow (grows.congr ?_ others)⟩
    simp [Frame.append, Frame.push, Frame.keyword, Piece.keyword, pieces]

end Expression

end Sharp
