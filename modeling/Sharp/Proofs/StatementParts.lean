import Sharp.ControlFlow.Basic
import Sharp.Proofs.Drafting
import Sharp.Proofs.TypeReading

/-!
# Parts of statements

* `convertRightSide_sound`: an expression and the `;` after it.
* `convertBraced_sound`: a block in braces.
* `convertCondition_sound`, `convertBody_sound`: the parts of control flow.
-/

namespace Sharp

open Source Token

section Parts

variable {source : Source} {inner : Converters} {region : List Token} {scope : Scope} {q : LineState}
  {opened : List Bracket} {t before opening fence : Token} {ts : List Token}

theorem takes_skipSemicolons (ts : List Token) : source.Takes ts 0 (skipSemicolons ts) := by
  refine ⟨List.dropWhile_suffix _, fun _ => ?_⟩
  rw [zero_add]
  exact (literals_dropWhile fun t _ semicolon => isCopiedLiteral_of_isOp semicolon).symm

/-- At least the `;` is taken. -/
theorem convertRightSide_sound (inner_sound : inner.SoundExpressions source region)
    (member : before ∈ source.tokens) (within : source.Within region ts) :
    source.Drafts ⟨q, opened⟩ (convertRightSide inner scope before ts) ⟨.quiet, opened⟩
      fun value used => source.Takes ts used value.rest ∧ ∃ t, t :: value.rest <:+ ts := by
  have missing := blames_missing (within.holds.significant.getLastD member) .semicolon
  unfold convertRightSide
  refine .reading_bind (inner_sound.expression (by simp [Place.Sound]) within) fun e expresses => ?_
  obtain ⟨e, rest⟩ := e
  obtain ⟨takes, steady, -, -⟩ := expresses
  cases rest with
  | nil => exact .fail missing
  | cons semicolon rest =>
    have semicolon_member := (takes.within within).head
    refine .require missing fun isSemicolon => .guard (blames_missing semicolon_member _) fun _ => ?_
    have ends : source.Leads ⟨.indented, opened⟩ [.raw ";"] ⟨.quiet, opened⟩ :=
      leads_raw_of_tidy (by decide) (by decide)
    refine .emit_literals_bind (steady.leads_indented.append
      (ends.append (leads_lineBreak nofun))) (.pure ⟨?_, semicolon, takes.suffix⟩)
    simpa using takes.before (.cons (isCopiedLiteral_of_isOp isSemicolon) .refl)

theorem leads_closeBrace (level : Nat) :
    source.Leads ⟨.quiet, .curly :: opened⟩ (closeBrace level) ⟨.quiet, opened⟩ := by
  have moved : nest [.curly] "\x7d".toList = some [] := by decide
  exact (leads_indents level).append (leads_line (by decide) (by decide) (nest_extend moved))

theorem leads_openBrace : source.Leads ⟨q, opened⟩ [.line " \x7b"] ⟨.quiet, .curly :: opened⟩ := by
  have moved : nest [] " \x7b".toList = some [.curly] := by decide
  exact leads_line (by decide) (by decide) (nest_extend moved)

theorem convertBraced_sound (inner_sound : inner.SoundBlocks source region) (outer : Nat)
    (member : opening ∈ source.tokens) (within : source.Within region ts) :
    source.Drafts ⟨q, opened⟩ (convertBraced inner outer scope opening ts) ⟨.quiet, opened⟩
      fun rest used => source.Takes ts used rest := by
  unfold convertBraced
  cases split : splitClose .brace ts with
  | none => exact .fail (blames_missing member _)
  | some s =>
    have inside := (within.splitClose split).1
    refine .emit_bind leads_openBrace rfl (.bind (inner_sound.block scope (.curly :: opened) inside)
      fun _ used taken => .emit_bind (leads_closeBrace outer) (by simp [closeBrace]) (.pure ?_))
    simpa using Takes.splitClose split taken

/-! ## Headers -/

/-- A header, the token after it and the tokens after that. -/
structure Split.SoundHeader (source : Source) (region ts : List Token) (s : Split) : Prop where
  before : source.Within region s.before
  found : s.found ∈ source.tokens
  after : source.Within region s.after
  takes : ∀ used, source.Takes s.before used [] → source.Takes ts used s.after

theorem splitHeader_sound {allowsSingle : Bool} {spot : Spot} (member : t ∈ source.tokens)
    (within : source.Within region ts) :
    source.Drafts spot (splitHeader allowsSingle t ts) spot fun s used =>
      used = 0 ∧ s.SoundHeader source region ts := by
  unfold splitHeader
  cases split : splitTop (fun t => t.isOp "\x7b" || (allowsSingle && t.isOp ";")) ts with
  | none => exact .fail (blames_missing member _)
  | some s =>
    obtain ⟨before, found, after⟩ := within.splitTop split
    have other : s.found.isCopiedLiteral = false := by
      have ends := found_of_splitTopAt split
      simp only [Bool.or_eq_true, Bool.and_eq_true] at ends
      exact ends.elim isCopiedLiteral_of_isOp fun single => isCopiedLiteral_of_isOp single.2
    exact .pure ⟨rfl, before, found, after, fun used => .splitTop split other⟩

theorem convertInHeader_sound (inner_sound : inner.SoundExpressions source region) {spot : Spot}
    (member : fence ∈ source.tokens) (within : source.Within region ts) :
    source.Drafts spot (convertInHeader inner scope fence ts) spot fun pieces used =>
      used = 0 ∧ source.Takes ts (copiedLiterals pieces) [] ∧ source.Steady pieces := by
  have fence_member : ∀ t ∈ some fence, t ∈ source.tokens := by simpa using member
  unfold convertInHeader
  exact .reading_bind (inner_sound.group fence_member rfl within) fun e given => .pure ⟨rfl, given⟩

theorem convertCondition_sound (inner_sound : inner.SoundExpressions source region) (settled : q ≠ .indented)
    (member : t ∈ source.tokens) (fence_member : fence ∈ source.tokens) (within : source.Within region ts) :
    source.Drafts ⟨q, opened⟩ (convertCondition inner scope t fence ts) ⟨.loud, opened⟩
      fun _ used => source.Takes ts used [] := by
  unfold convertCondition
  refine .guard (blames_missing member _) fun _ =>
    .plain_bind (convertInHeader_sound inner_sound fence_member within) fun pieces given => ?_
  obtain ⟨takes, steady⟩ := given
  split
  · exact .emit (steady.leads_loud settled) takes
  · have opening : source.Leads ⟨q, opened⟩ [.raw "("] ⟨.quiet, .round :: opened⟩ :=
      leads_raw (by decide) (by decide) (nest_extend (nest_opener .round))
    have closing : source.Leads ⟨.loud, .round :: opened⟩ [.raw ")"] ⟨.quiet, opened⟩ :=
      leads_raw (by decide) (by decide) (nest_extend (nest_closer .round))
    have inside : source.Leads ⟨.quiet, .round :: opened⟩ pieces ⟨.loud, .round :: opened⟩ :=
      steady.leads_loud nofun
    have enclosed := ((opening.append inside).append closing).weaken (LineState.le_quiet .loud)
    exact .emit enclosed (by simpa using takes)

theorem Modifiers.Sound.ensureEmpty {mods : Modifiers} (sound : mods.Sound source) :
    source.Checks mods.ensureEmpty fun _ => True := by
  unfold Modifiers.ensureEmpty
  cases latest : mods.latest with
  | none => exact .ok trivial
  | some t => exact .error (blames_blame (sound.latest t latest) nofun)

theorem Modifiers.sound_empty : Modifiers.Sound source {} := by
  constructor <;> simp

theorem convertBody_sound (inner_sound : inner.Sound source region) (settled : q ≠ .indented)
    (member : t ∈ source.tokens) (within : source.Within region ts) :
    source.Drafts ⟨q, opened⟩ (convertBody inner scope t ts) ⟨.quiet, opened⟩
      fun rest used => source.Takes ts used rest := by
  unfold convertBody
  refine .ite (fun _ => convertBraced_sound inner_sound.blocks _ member within) fun _ =>
    .emit_bind (leads_lineBreak settled) rfl ?_
  cases started : skipTrivia ts with
  | nil => exact .fail (blames_missing member _)
  | cons first more =>
    have body_within := started ▸ within.skipTrivia
    refine .bind (inner_sound.statements scope.enterBody {} first more opened Modifiers.sound_empty
      body_within) fun statement used given => ?_
    refine .ofExcept_bind given.pending.ensureEmpty fun _ _ => .pure ?_
    simpa using Takes.of_skipTrivia started (given.takes.before (takes_skipSemicolons _))

theorem takes_dropLet (ts : List Token) : source.Takes ts 0 (dropLet ts) := by
  cases ts with
  | nil => exact .refl
  | cons t ts =>
    rw [dropLet]
    by_cases keyword : t.isKeyword "let" = true
    · rw [if_pos keyword]
      exact .cons (isCopiedLiteral_of_isKeyword keyword) .refl
    · rw [if_neg keyword]
      exact .refl

theorem readLoopVariable_sound (member : t ∈ source.tokens) (holds : source.Holds ts) :
    source.Finds (readLoopVariable t ts) fun text => source.Takes ts 0 [] ∧ Tidy text := by
  have missing := Source.blames_missing member .variableName
  have dropped := @takes_dropLet source (significant ts)
  unfold readLoopVariable
  cases declared : dropLet (significant ts) with
  | nil => exact .fail missing
  | cons name rest =>
    rw [declared] at dropped
    have within := dropped.within holds.significant.within
    refine .require missing fun isName => ?_
    have isWord := Token.isWord_of_isNameLike isName
    refine .note_bind within.head (Token.canPlay_of_isNameLike isName _) ?_
    have name_other := Token.isCopiedLiteral_of_isWord isWord
    have name_tidy := Source.tidy_of_isWord within.head isWord
    cases rest with
    | nil =>
      exact .pure ⟨.of_significant (dropped.after (.cons name_other .refl)), Tidy.append (by decide) name_tidy⟩
    | cons colon typePart =>
      refine .require (Source.blames_unexpected within.tail.head) fun isColon => ?_
      refine .bind (TypeExpr.readWhole_sound within.tail.head within.tail.tail.holds) fun type read =>
        .pure ⟨.of_significant (dropped.after ?_), ?_⟩
      · exact (read.1.cons (Token.isCopiedLiteral_of_isOp isColon)).cons name_other
      · exact ((read.2.tidy_render type .plain).append (by decide)).append name_tidy

end Parts

end Sharp
