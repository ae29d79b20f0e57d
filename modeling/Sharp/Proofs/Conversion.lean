import Sharp.Program
import Sharp.Proofs.Expressions
import Sharp.Proofs.Properties
import Sharp.Proofs.StatementForms

/-!
# Converting programs

Every converter is sound if those inside it are.  What is inside is shorter, so that all of them are
sound.

* `Source.block_sound`: what holds of the pieces for the tokens of a text.
-/

namespace Sharp

open Source Token

variable {scope : Scope} {t : Token} {rest tokens : List Token} {pending : Modifiers}
  {opened : List Bracket} {inner : Converters} {region : List Token} {word text : String}

/-! ## Statements -/

section Statements

variable {source : Source} {draft : Draft (List Token)}

theorem plainStatement_sound (drafts : source.DraftsLines opened draft fun after used =>
      source.Takes (t :: rest) used after ∧ after <:+ rest) :
    source.DraftsLines opened (plainStatement draft) (Statement.Completes source t rest) :=
  .bind drafts fun after used taken =>
    .pure ⟨by simpa using taken.1, taken.2, Modifiers.sound_empty⟩

theorem plainStatement_word (isWord : t.isWord = true) (drafts : source.DraftsFrom rest opened draft) :
    source.DraftsLines opened (plainStatement draft) (Statement.Completes source t rest) :=
  plainStatement_sound (drafts.mono fun _ _ taken =>
    ⟨taken.cons (isCopiedLiteral_of_isWord isWord), taken.suffix⟩)

theorem unmodified_sound (pending_sound : pending.Sound source)
    (drafts : source.DraftsLines opened (plainStatement draft) (Statement.Completes source t rest)) :
    source.DraftsLines opened (unmodified pending draft) (Statement.Completes source t rest) :=
  .ofExcept_bind pending_sound.ensureEmpty fun _ _ => drafts

theorem convertExpressionStatement_sound (expressions : inner.SoundExpressions source region)
    (within : source.Within region (t :: rest)) :
    source.DraftsLines opened (plainStatement (convertExpressionStatement inner scope t rest))
      (Statement.Completes source t rest) := by
  refine plainStatement_sound ?_
  unfold convertExpressionStatement
  refine .emit_bind (leads_indents _) (by simp) (.bind
    (convertRightSide_sound expressions within.head within) fun value used taken => .pure ?_)
  obtain ⟨takes, semicolon, suffix⟩ := taken
  exact ⟨by simpa using takes, suffix_tail suffix⟩

theorem Token.isKeyword_of_text (keyword : t.category = .keyword) (text : t.text = word) :
    t.isKeyword word = true := by
  simp [isKeyword, keyword, text]

theorem Token.isWord_of_keyword (keyword : t.category = .keyword) : t.isWord = true :=
  isWord_of_isKeyword (isKeyword_of_text keyword rfl)

theorem convertYield_sound (expressions : inner.SoundExpressions source region)
    (keyword : t.category = .keyword) (within : source.Within region (t :: rest)) :
    source.DraftsLines opened (plainStatement (convertYield inner scope t rest))
      (Statement.Completes source t rest) := by
  refine plainStatement_sound ?_
  have value : source.Drafts ⟨.indented, opened⟩ (do
        emit [.keyword "yield"]
        let value ← convertRightSide inner scope t (t :: rest)
        return value.rest)
      ⟨.quiet, opened⟩ fun after used => source.Takes (t :: rest) used after ∧ after <:+ rest := by
    refine .emit_bind (steady_code (by decide) .keyword).leads_indented rfl (.bind
      (convertRightSide_sound expressions within.head within) fun value used taken => .pure ?_)
    obtain ⟨takes, semicolon, suffix⟩ := taken
    exact ⟨by simpa using takes, suffix_tail suffix⟩
  unfold convertYield
  refine .note_bind within.head (.inl keyword) (.emit_bind (leads_indents _) (by simp) ?_)
  cases started : skipTrivia rest with
  | nil => exact value
  | cons next more =>
    refine .ite (fun isSemicolon => ?_) fun _ => value
    refine .emit_bind (leads_line_of_tidy (by decide) (by decide)) rfl (.pure ?_)
    have taken : source.Takes rest 0 more :=
      .of_skipTrivia started (.cons (isCopiedLiteral_of_isOp isSemicolon) .refl)
    have isWord := isWord_of_keyword keyword
    exact ⟨taken.cons (isCopiedLiteral_of_isWord isWord), taken.suffix⟩

theorem convertControlFlow_sound (inner_sound : inner.Sound source region) (keyword : t.category = .keyword)
    (member : t ∈ source.tokens) (within : source.Within region rest) :
    source.DraftsFrom rest opened (convertControlFlow inner scope t rest) := by
  have isWord := isWord_of_keyword keyword
  unfold convertControlFlow
  split
  · exact convertIf_sound inner_sound member within
  · exact .fail (blames_blame member nofun)
  · exact .fail (blames_blame member nofun)
  · exact .fail (blames_blame member nofun)
  · exact .fail (blames_blame member nofun)
  · exact convertFor_sound inner_sound member within
  · exact convertForeach_sound inner_sound member within
  · exact convertDo_sound inner_sound member within
  · exact convertTry_sound inner_sound isWord member within
  · next text =>
    exact convertSwitch_sound inner_sound (isKeyword_of_text keyword text) member within
  · exact convertBare_sound inner_sound.blocks isWord member within
  · exact convertBare_sound inner_sound.blocks isWord member within
  · exact convertGuarded_sound inner_sound (tidy_of_isWord member isWord) member within

theorem holdModifier_sound (pending_sound : pending.Sound source) (keyword : t.category = .keyword)
    (member : t ∈ source.tokens) :
    source.DraftsLines opened (holdModifier pending t rest) (Statement.Completes source t rest) :=
  .note_bind member (.inl keyword) (.ofExcept_bind (pending_sound.apply member) fun _ applied => .pure
    ⟨.cons (isCopiedLiteral_of_isWord (isWord_of_keyword keyword)) .refl, List.suffix_rfl, applied⟩)

/-- A statement is sound if the converters inside are sound for slices of the tokens after the first one, and
those for expressions also for slices of all tokens. -/
theorem convertStatement_sound (inner_sound : inner.Sound source rest)
    (expressions : inner.SoundExpressions source (t :: rest)) (pending_sound : pending.Sound source)
    (holds : source.Holds (t :: rest)) :
    source.DraftsLines opened (convertStatement inner scope pending t rest)
      (Statement.Completes source t rest) := by
  have within := holds.within
  have member := within.head
  have rest_within := (holds_cons.1 holds).2.within
  have form := @convertStatement_form inner scope pending t rest
  generalize convertStatement inner scope pending t rest = draft at form ⊢
  cases form with
  | refused among inside => exact .fail (blames_blame (within.holds _ among) inside)
  | empty ends => exact .pure ⟨.cons (isCopiedLiteral_of_isOp ends) .refl, List.suffix_rfl, pending_sound⟩
  | modifier keyword => exact holdModifier_sound pending_sound keyword member
  | typeDecl keyword _ kind =>
    have isWord := isWord_of_keyword keyword
    exact plainStatement_word isWord
      (convertTypeDecl_sound inner_sound.blocks pending_sound kind isWord member rest_within)
  | function keyword =>
    exact plainStatement_word (isWord_of_keyword keyword)
      (convertFn_sound inner_sound.blocks pending_sound member rest_within)
  | declared keyword =>
    exact plainStatement_word (isWord_of_keyword keyword)
      (convertVariable_sound inner_sound.expressions pending_sound member rest_within)
  | property keyword word =>
    exact plainStatement_word (isWord_of_keyword keyword)
      (convertProp_sound inner_sound pending_sound (isKeyword_of_text keyword word) member rest_within)
  | imported keyword =>
    exact unmodified_sound pending_sound (plainStatement_word (isWord_of_keyword keyword)
      (convertUsing_sound member rest_within))
  | inNamespace keyword =>
    refine .ofExcept_bind pending_sound.ensureEmpty fun _ _ =>
      (convertNamespace_sound inner_sound.blocks member rest_within).mono fun statement _ given => ?_
    exact ⟨given.1.cons (isCopiedLiteral_of_isWord (isWord_of_keyword keyword)), given.1.suffix,
      given.2 ▸ Modifiers.sound_empty⟩
  | yielded keyword => exact unmodified_sound pending_sound (convertYield_sound expressions keyword within)
  | controlFlow keyword =>
    exact unmodified_sound pending_sound (plainStatement_word (isWord_of_keyword keyword)
      (convertControlFlow_sound inner_sound keyword member rest_within))
  | expression => exact unmodified_sound pending_sound (convertExpressionStatement_sound expressions within)

end Statements

/-! ## Blocks -/

section Blocks

variable {source : Source} {ts : List Token}

theorem leads_blankLines (ts : List Token) : source.Leads ⟨.quiet, opened⟩ (blankLines ts) ⟨.quiet, opened⟩ := by
  have blank : source.Leads ⟨.quiet, opened⟩ [.lineBreak] ⟨.quiet, opened⟩ :=
    leads_lineBreak nofun
  unfold blankLines
  induction (ts.takeWhile isBlank).countP isLineBreak with
  | zero => exact .refl
  | succ count ih => exact blank.append ih

theorem copiedLiterals_blankLines (ts : List Token) : copiedLiterals (blankLines ts) = 0 := by
  unfold blankLines
  induction (ts.takeWhile isBlank).countP isLineBreak with
  | zero => rfl
  | succ count ih => simpa [List.replicate_succ] using ih

theorem leads_commentPieces (regular : RegularText .comment text) (level : Nat) :
    source.Leads ⟨.quiet, opened⟩ (commentPieces level text) ⟨.quiet, opened⟩ := by
  have comment : source.Leads ⟨.indented, opened⟩ [.comment text] ⟨.quiet, opened⟩ :=
    ⟨.comment regular.1 regular.2 .refl, fun _ => moves_single rfl⟩
  exact (leads_indents level).append (comment.append (leads_lineBreak nofun))

theorem Token.isTrivia_of_isBlank (blank : t.isBlank = true) : t.isTrivia = true := by
  simp only [isBlank, Bool.or_eq_true, beq_iff_eq] at blank
  rcases blank with category | category <;> simp [isTrivia, category]

theorem takes_dropBlanks (ts : List Token) : source.Takes ts 0 (ts.dropWhile isBlank) := by
  refine ⟨List.dropWhile_suffix _, fun _ => ?_⟩
  rw [zero_add]
  exact (literals_dropWhile fun t _ blank =>
    isCopiedLiteral_of_isTrivia (isTrivia_of_isBlank blank)).symm

/-- The tokens up to others have been taken. -/
def BlockState.Takes (source : Source) (whole : List Token) (state : BlockState) (ts : List Token)
    (used : Multiset String) : Prop :=
  source.Takes whole used ts ∧ state.pending.Sound source

theorem convertBlockRound_sound {state : BlockState} {used : Multiset String}
    (inner_sound : inner.SoundStatements source region) (within : source.Within region ts)
    (taken : state.Takes source ts (t :: rest) used) :
    source.DraftsLines opened (convertBlockRound inner state t rest)
      fun result used' => result.Meets rest (BlockState.Takes source ts · · (used + used'))
        fun _ => source.Takes ts (used + used') [] := by
  obtain ⟨takes, pending⟩ := taken
  have t_within := takes.within within
  have blank (trivia : t.isTrivia = true) : source.Takes ts used rest :=
    takes.before (.cons (isCopiedLiteral_of_isTrivia trivia) .refl)
  unfold convertBlockRound
  split
  · next category =>
    have trivia : t.isTrivia = true := by simp [isTrivia, category]
    refine .emit_bind (leads_blankLines rest) (copiedLiterals_blankLines rest) (.pure
      ⟨List.dropWhile_suffix _, ?_, pending⟩)
    simpa using (blank trivia).before (takes_dropBlanks rest)
  · next category =>
    have trivia : t.isTrivia = true := by simp [isTrivia, category]
    exact .pure ⟨List.suffix_rfl, by simpa using blank trivia, pending⟩
  · next category =>
    have trivia : t.isTrivia = true := by simp [isTrivia, category]
    have regular : RegularText .comment t.text := category ▸ source.regular t t_within.head
    refine .emit_bind (leads_commentPieces regular _) (by simp [commentPieces]) (.pure
      ⟨List.suffix_rfl, by simpa using blank trivia, pending⟩)
  · refine .bind (inner_sound _ _ t rest opened pending t_within) fun statement used' given => .pure ?_
    have skips : source.Takes statement.rest 0 (skipSemicolons statement.rest) :=
      takes_skipSemicolons statement.rest
    refine ⟨skips.suffix.trans given.suffix, ?_, given.pending⟩
    simpa using (takes.trans given.takes).before skips

theorem convertBlock_sound (inner_sound : inner.SoundStatements source region) (within : source.Within region ts) :
    source.DraftsLines opened (convertBlock inner scope ts) fun _ used => source.Takes ts used [] := by
  unfold convertBlock
  refine .walk (fun (state : BlockState) rest used => state.Takes source ts rest used)
    (fun state t rest used taken => convertBlockRound_sound inner_sound within taken)
    (fun state used taken => .ofExcept taken.2.ensureEmpty fun _ _ => ?_)
    ⟨.refl, Modifiers.sound_empty⟩
  simpa using taken.1

end Blocks

/-! ## Layers -/

namespace Layers

variable (source : Source)

/-- What the converters inside are sound for: slices that rank below `rank`. -/
structure SoundBelow (rank : Nat) (inner : Converters) : Prop where
  expressions : ∀ region, 3 * region.length < rank + 3 → inner.SoundExpressions source region
  statements : ∀ region, 3 * region.length < rank + 2 → inner.SoundStatements source region
  blocks : ∀ region, 3 * region.length < rank + 1 → inner.SoundBlocks source region

/-- Each layer is sound if the converters inside are sound for the slices of its tokens that it hands on. -/
structure Sound (layers : Layers) : Prop where
  expression : ∀ {inner place t rest}, inner.Sound source rest → place.Sound source → source.Holds (t :: rest) →
    source.Finds (layers.expression inner place (t :: rest)) (source.Expresses place (t :: rest))
  statement : ∀ {inner scope pending t rest opened}, inner.Sound source rest →
    inner.SoundExpressions source (t :: rest) → pending.Sound source → source.Holds (t :: rest) →
    source.DraftsLines opened (layers.statement inner scope pending t rest) (Statement.Completes source t rest)
  block : ∀ {inner scope t rest opened}, inner.SoundStatements source (t :: rest) → source.Holds (t :: rest) →
    source.DraftsLines opened (layers.block inner scope (t :: rest)) fun _ used => source.Takes (t :: rest) used []

theorem standard_sound : standard.Sound source where
  expression inner_sound place_sound holds :=
    convertExpression_sound inner_sound place_sound (holds_cons.1 holds).2.within (holds_cons.1 holds).1
  statement inner_sound expressions pending_sound holds :=
    convertStatement_sound inner_sound expressions pending_sound holds
  block inner_sound holds := convertBlock_sound inner_sound holds.within

variable {source} {rank : Nat} {layers : Layers}

/-- What follows the first token of a part ranks below that part. -/
theorem SoundBelow.sound (below : SoundBelow source rank inner) (le : 3 * region.length ≤ rank) :
    inner.Sound source region :=
  ⟨below.expressions region (by omega), below.statements region (by omega), below.blocks region (by omega)⟩

section Ranks

variable (sound : layers.Sound source)
include sound

theorem expressionFrom_sound {place : Place}
    (below : SoundBelow source (expressionRank rest.length) (layers.converters (expressionRank rest.length)))
    (place_sound : place.Sound source) (within : source.Within region (t :: rest)) :
    source.Finds (layers.all.expressionFrom place t rest) (source.Expresses place (t :: rest)) :=
  sound.expression (below.sound le_rfl) place_sound within.holds

theorem statementFrom_sound
    (below : SoundBelow source (statementRank rest.length) (layers.converters (statementRank rest.length)))
    (pending_sound : pending.Sound source) (within : source.Within region (t :: rest)) :
    source.DraftsLines opened (layers.all.statementFrom scope pending t rest)
      (Statement.Completes source t rest) := by
  have same : 3 * (t :: rest).length < statementRank rest.length + 3 := by
    rw [statementRank, List.length_cons]
    omega
  exact sound.statement (below.sound (Nat.le_succ _)) (below.expressions _ same) pending_sound within.holds

theorem blockFrom_sound
    (below : SoundBelow source (blockRank rest.length) (layers.converters (blockRank rest.length)))
    (within : source.Within region (t :: rest)) :
    source.DraftsLines opened (layers.all.blockFrom scope t rest)
      fun _ used => source.Takes (t :: rest) used [] := by
  have same : 3 * (t :: rest).length < blockRank rest.length + 2 := by
    rw [blockRank, List.length_cons]
    omega
  exact sound.block (below.statements _ same) within.holds

theorem Sound.below (rank : Nat) : SoundBelow source rank (layers.converters rank) := by
  induction rank using Nat.strongRecOn with
  | ind rank ih =>
    refine ⟨fun region bound place t rest place_sound within => ?_,
      fun region bound scope pending t rest opened pending_sound within => ?_,
      fun region bound scope t rest opened within => ?_⟩
    -- A slice is no longer than what it is a slice of, so it ranks below.
    all_goals have shorter : rest.length + 1 ≤ region.length := within.slice.length_le
    · have below : expressionRank rest.length < rank := by rw [expressionRank]; omega
      rw [converters_expressionFrom below]
      exact expressionFrom_sound sound (ih _ below) place_sound within
    · have below : statementRank rest.length < rank := by rw [statementRank]; omega
      rw [converters_statementFrom below]
      exact statementFrom_sound sound (ih _ below) pending_sound within
    · have below : blockRank rest.length < rank := by rw [blockRank]; omega
      rw [converters_blockFrom below]
      exact blockFrom_sound sound (ih _ below) within

theorem Sound.all (region : List Token) : layers.all.Sound source region :=
  ⟨fun _ _ _ => expressionFrom_sound sound (sound.below _),
    fun _ _ _ _ _ => statementFrom_sound sound (sound.below _),
    fun _ _ _ _ => blockFrom_sound sound (sound.below _)⟩

end Ranks

end Layers

/-! ## Programs -/

/-- The tokens that a text consists of. -/
def Source.ofTokens {text : String} {tokens : List Token} (tokenized : tokenize text = .ok tokens) : Source :=
  ⟨tokens, regular_of_tokenize tokenized⟩

theorem Source.block_sound (tokenized : tokenize text = .ok tokens) :
    (ofTokens tokenized).Drafts ⟨.quiet, []⟩ (Layers.standard.all.block .root tokens) ⟨.quiet, []⟩
      fun _ used => (ofTokens tokenized).Takes tokens used [] :=
  ((Layers.standard_sound _).all _).blocks.block .root [] (Holds.within fun _ member => member)

end Sharp
