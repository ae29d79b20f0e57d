import Sharp.Declaration.Property
import Sharp.Proofs.Declarations

/-!
# Properties

A property is taken apart before its parts are converted, so that the tokens it takes are followed
but not the literals among them.

* `convertProp_sound`: the declaration.
-/

namespace Sharp

open Source Token

variable {accessors : List PropAccessor} {header : PropHeader} {source : Source}
  {inner : Converters} {region : List Token} {scope : Scope} {q : LineState} {opened : List Bracket}
  {t name : Token} {ts rest : List Token} {accessor : PropAccessor}

section Accessors

variable {first : Token} {more after : List Token}

/-- The tokens of the body belong to the source. -/
def AccessorBody.Sound (source : Source) (region : List Token) : AccessorBody → Prop
  | .auto => True
  | .expression t ts | .block t ts => t ∈ source.tokens ∧ source.Within region ts

structure PropAccessor.Sound (source : Source) (region : List Token) (accessor : PropAccessor) : Prop where
  access : ∀ word ∈ accessor.access, Tidy word
  body : accessor.body.Sound source region

theorem PropAccessor.Sound.tidy_text (sound : accessor.Sound source region) : Tidy accessor.text := by
  have readonly : Tidy (if accessor.isReadonly then "readonly " else "") :=
    .ite (by decide) (by decide)
  have kind : Tidy accessor.kind.text := by cases accessor.kind <;> decide
  exact ((tidy_accessText sound.access).append readonly).append kind

theorem readAccessorImmut_sound (within : source.Within region (t :: rest)) :
    source.Finds (readAccessorImmut t rest) fun word =>
      word.2.1 ∈ source.tokens ∧ word.2.2 <:+ rest := by
  unfold readAccessorImmut
  refine .ite (fun _ => .pure ⟨within.head, List.suffix_rfl⟩) fun isImmut =>
    .note_bind within.head (.inr (by simpa using isImmut)) ?_
  have suffix : skipTrivia rest <:+ rest := List.dropWhile_suffix _
  cases started : skipTrivia rest with
  | nil => exact .fail (blames_missing within.head _)
  | cons word more =>
    rw [started] at suffix
    exact .pure ⟨(within.tail.suffix suffix).head, (List.suffix_cons word more).trans suffix⟩

theorem readAccessorAccess_sound (holds : source.Holds ts) : source.Finds (readAccessorAccess ts) fun access =>
      access.rest <:+ ts ∧ ∀ word ∈ access.value, Tidy word := by
  unfold readAccessorAccess
  have suffix : skipTrivia ts <:+ ts := List.dropWhile_suffix _
  cases started : skipTrivia ts with
  | nil => exact .pure ⟨List.nil_suffix, List.forall_mem_nil _⟩
  | cons marker rest =>
    rw [started] at suffix
    obtain ⟨member, rest_holds⟩ := holds_cons.1 (holds.suffix suffix)
    refine .ite (fun isMark => ?_) fun _ => .pure ⟨suffix, List.forall_mem_nil _⟩
    exact (readAccess_sound member isMark rest_holds).mono fun access read =>
      ⟨(read.1.suffix.trans (List.suffix_cons marker rest)).trans suffix, read.2⟩

/-- An expression is converted from all tokens that follow it in the source. -/
theorem readAccessorBody_sound (member : t ∈ source.tokens) (within : source.Within region (ts ++ after)) :
    source.Finds (readAccessorBody t after ts) fun body =>
      body.rest <:+ ts ∧ body.value.Sound source region := by
  cases ts with
  | nil => exact .fail (blames_missing member _)
  | cons marker rest =>
    have marker_member := within.head
    have rest_suffix := List.suffix_cons marker rest
    have rest_within : source.Within region (rest ++ after) := within.tail
    unfold readAccessorBody
    refine .ite (fun _ => .pure ⟨rest_suffix, trivial⟩) fun _ => .ite (fun isArrow =>
      .note_bind marker_member (canPlay_of_isOp isArrow (by decide) _) ?_) fun _ => .ite (fun _ => ?_) fun _ => .fail (blames_unexpected marker_member)
    · dsimp only
      cases split : splitTop (·.isOp ";") rest with
      | none => exact .fail (blames_missing marker_member _)
      | some s =>
        have suffix := (suffix_of_split (eq_of_splitTop split)).trans rest_suffix
        exact .pure ⟨suffix, marker_member, rest_within⟩
    · cases split : splitClose .brace rest with
      | none => exact .fail (blames_missing marker_member _)
      | some s =>
        have suffix := (suffix_of_split (eq_of_splitClose split)).trans rest_suffix
        exact .pure ⟨suffix, marker_member, rest_within.part (List.prefix_append _ _).isInfix⟩

theorem checkAfter_sound (member : t ∈ source.tokens) (kind : AccessorKind) (before : List AccessorKind) :
    source.Checks (kind.checkAfter t before) fun _ => True := by
  unfold AccessorKind.checkAfter
  cases before.find? kind.conflicts with
  | none => exact .ok trivial
  | some other =>
    refine .error (blames_blame member ?_)
    split <;> nofun

theorem append_suffix (suffix : rest <:+ more) (after : List Token) : rest ++ after <:+ more ++ after := by
  obtain ⟨front, rfl⟩ := suffix
  exact ⟨front, by simp⟩

theorem AccessorKind.canPlay_of_ofToken {kind : AccessorKind}
    (known : AccessorKind.ofToken? t = some kind) (part : KeywordRole) :
    t.CanPlay (.keyword part) := by
  unfold AccessorKind.ofToken? at known
  split at known
  · next isGet => exact canPlay_of_isKeyword isGet part
  · split at known
    · next isSet => exact canPlay_of_isKeyword isSet part
    · split at known
      · next isInit => exact canPlay_of_isKeyword isInit part
      · cases known

theorem readPropAccessor_sound (within : source.Within region (first :: more ++ after)) :
    source.Finds (readPropAccessor after accessors first more) fun accessor =>
      accessor.rest <:+ more ∧ accessor.value.Sound source region := by
  have first_within : source.Within region (first :: more) :=
    within.part (List.prefix_append _ _).isInfix
  unfold readPropAccessor
  refine .bind (readAccessorImmut_sound first_within) fun word read => ?_
  obtain ⟨isReadonly, t, rest⟩ := word
  obtain ⟨member, suffix⟩ := read
  dsimp only
  cases known : AccessorKind.ofToken? t with
  | none => exact .fail (blames_unexpected member)
  | some kind =>
    have checks := checkAfter_sound member kind (accessors.map PropAccessor.kind)
    refine .note_bind member (AccessorKind.canPlay_of_ofToken known _) ?_
    cases checked : kind.checkAfter t (accessors.map PropAccessor.kind) with
    | error fault => exact .fail (checks.blames checked)
    | ok _ =>
      refine .bind (readAccessorAccess_sound (first_within.tail.suffix suffix).holds) fun access accessRead => ?_
      have access_suffix := accessRead.1.trans suffix
      have body_within : source.Within region (access.rest ++ after) :=
        within.tail.suffix (append_suffix access_suffix after)
      exact .bind (readAccessorBody_sound member body_within) fun body bodyRead =>
        .pure ⟨bodyRead.1.trans access_suffix, accessRead.2, bodyRead.2⟩

theorem readPropAccessorRound_sound (within : source.Within region (first :: more ++ after))
    (accessors_sound : ∀ accessor ∈ accessors, accessor.Sound source region) :
    source.Finds (readPropAccessorRound after accessors first more) (Step.Meets more
      (fun accessors rest => source.Within region (rest ++ after) ∧ ∀ accessor ∈ accessors, accessor.Sound source region)
      fun accessors => ∀ accessor ∈ accessors, accessor.Sound source region) := by
  unfold readPropAccessorRound
  refine .ite (fun _ => .pure ⟨List.suffix_rfl, within.tail, accessors_sound⟩) fun _ =>
    .bind (readPropAccessor_sound within) fun accessor read => .pure ⟨read.1, ?_, ?_⟩
  · exact within.tail.suffix (append_suffix read.1 after)
  · exact List.forall_mem_append.2 ⟨accessors_sound, List.forall_mem_singleton.2 read.2⟩

theorem readPropAccessors_sound (within : source.Within region (ts ++ after)) :
    source.Finds (readPropAccessors after ts) fun accessors =>
      ∀ accessor ∈ accessors, accessor.Sound source region := by
  unfold readPropAccessors
  refine .walk (fun (accessors : List PropAccessor) rest => source.Within region (rest ++ after) ∧
    ∀ accessor ∈ accessors, accessor.Sound source region) ?_ (fun accessors invariant => ?_)
    ⟨within, List.forall_mem_nil _⟩
  · exact fun accessors first more invariant => readPropAccessorRound_sound invariant.1 invariant.2
  · exact .pure invariant.2

theorem convertPropAccessor_sound (inner_sound : inner.Sound source region) (sound : accessor.Sound source region) :
    source.DraftsLines opened (convertPropAccessor inner scope accessor) fun _ _ => True := by
  have body_sound := sound.body
  unfold convertPropAccessor
  refine .emit_bind (leads_start_indented _ sound.tidy_text) (by simp) ?_
  cases body : accessor.body with
  | auto => exact .emit (leads_line_of_tidy (by decide) (by decide)) trivial
  | expression arrow ts =>
    rw [body] at body_sound
    exact .emit_bind (leads_raw_of_tidy (by decide) (by decide)) rfl
      (.bind (convertRightSide_sound inner_sound.expressions body_sound.1 body_sound.2) fun _ _ _ => .pure trivial)
  | block opening ts =>
    rw [body] at body_sound
    exact .bind (convertBraced_sound inner_sound.blocks _ body_sound.1 body_sound.2) fun _ _ _ => .pure trivial

theorem convertPropAccessorLines_sound (inner_sound : inner.Sound source region)
    (sound : ∀ accessor ∈ accessors, accessor.Sound source region) :
    source.DraftsLines opened (convertPropAccessorLines inner scope accessors) fun _ _ => True := by
  induction accessors with
  | nil => exact .pure trivial
  | cons accessor accessors ih =>
    obtain ⟨accessor_sound, others_sound⟩ := List.forall_mem_cons.1 sound
    exact .bind (convertPropAccessor_sound inner_sound accessor_sound) fun _ _ _ => ih others_sound

theorem tidy_autoAccessorsText (sound : ∀ accessor ∈ accessors, accessor.Sound source region) :
    Tidy (autoAccessorsText accessors) := by
  induction accessors with
  | nil => decide
  | cons accessor accessors ih =>
    obtain ⟨accessor_sound, others_sound⟩ := List.forall_mem_cons.1 sound
    exact (accessor_sound.tidy_text.append (by decide)).append (ih others_sound)

theorem convertPropAccessors_sound (inner_sound : inner.Sound source region)
    (sound : ∀ accessor ∈ accessors, accessor.Sound source region) :
    source.Drafts ⟨q, opened⟩ (convertPropAccessors inner scope accessors) ⟨.quiet, opened⟩ fun _ _ => True := by
  unfold convertPropAccessors
  refine .ite (fun _ => .emit (leads_raw (by simp) ?_ ?_) trivial) fun _ =>
    .emit_bind leads_openBrace rfl (.bind (convertPropAccessorLines_sound inner_sound sound)
      fun _ _ _ => .emit (leads_start _ (by decide) (by decide) ?_) trivial)
  · have last : "\x7d".toList.getLast? = some '\x7d' := by decide
    rw [OnLine, String.toList_append, List.getLast?_append, last]
    simp
  · have opening : nest [] " \x7b ".toList = some [.curly] := by decide
    rw [String.toList_append, nest_append, (tidy_autoAccessorsText sound).1.nest_after opening opened]
    exact nest_extend (nest_closer .curly)
  · exact nest_extend (nest_closer .curly)

end Accessors

/-! ## Declarations -/

section Properties

variable {pending : Modifiers} {access : List String} {whole block : List Token}

structure PropHeader.Sound (source : Source) (header : PropHeader) : Prop where
  type : header.type.Neat
  member : header.name ∈ source.tokens
  isWord : header.name.isWord = true

theorem PropHeader.Sound.tidy_text (sound : header.Sound source)
    (access_tidy : ∀ word ∈ access, Tidy word) : Tidy (header.text access) := by
  have front := (tidy_accessText access_tidy).append (tidy_inheritance header.inheritance)
  have typed := front.append (sound.type.tidy_render header.type .plain)
  exact (typed.append (by decide)).append (tidy_of_isWord sound.member sound.isWord)

theorem convertPropExpression_sound (inner_sound : inner.Sound source region)
    (header_sound : header.Sound source) (access_tidy : ∀ word ∈ access, Tidy word)
    (isArrow : t.isOp "=>" = true) (member : t ∈ source.tokens) (within : source.Within region ts) :
    source.DraftsLines opened (convertPropExpression inner scope header access t ts)
      fun after _ => after <:+ ts := by
  have tidy := header_sound.tidy_text access_tidy
  have suffix : skipTrivia ts <:+ ts := List.dropWhile_suffix _
  unfold convertPropExpression
  refine .note_bind member (canPlay_of_isOp isArrow (by decide) _) ?_
  cases started : skipTrivia ts with
  | nil => exact .fail (blames_missing member _)
  | cons body more =>
    rw [started] at suffix
    have body_within := within.suffix suffix
    refine .emit_bind (leads_indents _) (by simp) (.ite (fun _ => ?_) fun _ => ?_)
    · refine .emit_bind (leads_raw_of_tidy (by simp) (tidy.append (by decide))) rfl
        (.bind (convertRightSide_sound inner_sound.expressions member within) fun value _ given =>
        .pure given.1.suffix)
    · have opening : nest [] " \x7b".toList = some [.curly] := by decide
      have moved : nest opened (header.text access ++ " \x7b").toList = some (.curly :: opened) := by
        rw [String.toList_append, nest_append, tidy.1.nest opened]
        exact nest_extend opening
      have onLine : OnLine (header.text access ++ " \x7b") := by
        have last : " \x7b".toList.getLast? = some '\x7b' := by decide
        rw [OnLine, String.toList_append, List.getLast?_append, last]
        simp
      have getter : source.Leads ⟨.indented, .curly :: opened⟩ [.raw "get"]
          ⟨.quiet, .curly :: opened⟩ := leads_raw_of_tidy (by decide) (by decide)
      refine .emit_bind (((leads_line (by simp) onLine moved).append
        (leads_indents _)).append getter) (by simp) (.bind
        (convertBraced_sound inner_sound.blocks _ body_within.head body_within.tail)
        fun after _ taken => .emit_bind (leads_closeBrace _) (by simp [closeBrace]) (.pure ?_))
      exact (taken.suffix.trans (List.suffix_cons body more)).trans suffix

theorem readPropAccessAfter_sound (access_tidy : ∀ word ∈ access, Tidy word) (holds : source.Holds ts) :
    source.Finds (readPropAccessAfter access ts) fun after =>
      after.rest <:+ ts ∧ ∀ word ∈ after.value, Tidy word := by
  have suffix : skipTrivia ts <:+ ts := List.dropWhile_suffix _
  unfold readPropAccessAfter
  cases started : skipTrivia ts with
  | nil => exact .pure ⟨List.nil_suffix, access_tidy⟩
  | cons marker rest =>
    rw [started] at suffix
    obtain ⟨member, rest_holds⟩ := holds_cons.1 (holds.suffix suffix)
    refine .iteNot (fun _ => .pure ⟨suffix, access_tidy⟩) fun isMark =>
      .ite (fun _ => .fail (blames_blame member nofun)) fun _ => ?_
    cases split : splitTop (·.isOpIn ["=", "=>", ";"]) rest with
    | none =>
      exact .bind (readWholeAccess_sound member isMark rest_holds) fun _ read =>
        .pure ⟨List.nil_suffix, read.2⟩
    | some s =>
      have front := (rest_holds.within.splitTop split).1
      have found_suffix : s.found :: s.after <:+ rest := ⟨s.before, (eq_of_splitTop split).symm⟩
      refine .bind (readWholeAccess_sound member isMark front.holds) fun _ read => .pure ⟨?_, read.2⟩
      exact (found_suffix.trans (List.suffix_cons marker rest)).trans suffix

theorem convertPropValue_sound (inner_sound : inner.SoundExpressions source region)
    (within : source.Within region whole) (block_suffix : block <:+ whole) (suffix : ts <:+ whole) :
    source.DraftsLines opened (convertPropValue inner scope block ts) fun after _ => after <:+ whole := by
  have ends : source.Leads ⟨.quiet, opened⟩ [.lineBreak] ⟨.quiet, opened⟩ :=
    leads_lineBreak nofun
  cases ts with
  | nil => exact .emit_bind ends rfl (.pure block_suffix)
  | cons t rest =>
    have t_within := within.suffix suffix
    have rest_suffix := (List.suffix_cons t rest).trans suffix
    unfold convertPropValue
    refine .ite (fun isAssignment => .note_bind t_within.head
      (canPlay_of_isOp isAssignment (by decide) _) ?_) fun _ =>
      .guard (blames_blame t_within.head nofun) fun _ => .emit_bind ends rfl
      (.ite (fun _ => .pure rest_suffix) fun _ => .pure block_suffix)
    exact .emit_bind (leads_raw_of_tidy (by decide) (by decide)) rfl
      (.bind (convertRightSide_sound inner_sound t_within.head t_within.tail) fun value _ given =>
      .pure (given.1.suffix.trans rest_suffix))

theorem convertPropBlock_sound (inner_sound : inner.Sound source region) (header_sound : header.Sound source)
    (access_tidy : ∀ word ∈ access, Tidy word)
    (member : t ∈ source.tokens) (within : source.Within region ts) :
    source.DraftsLines opened (convertPropBlock inner scope header access t ts) fun after _ => after <:+ ts := by
  unfold convertPropBlock
  cases split : splitClose .brace ts with
  | none => exact .fail (blames_missing member _)
  | some s =>
    have parts := eq_of_splitClose split
    have after_suffix := suffix_of_split parts
    have after_holds := (within.suffix after_suffix).holds
    refine .reading_bind (readPropAccessors_sound (parts ▸ within)) fun accessors sound =>
      .guard (blames_missing member _) fun _ =>
      .reading_bind (readPropAccessAfter_sound access_tidy after_holds) fun after read =>
      .emit_bind (leads_start_indented _ (header_sound.tidy_text read.2)) (by simp) ?_
    exact .bind (convertPropAccessors_sound inner_sound sound) fun _ _ _ =>
      convertPropValue_sound inner_sound.expressions within after_suffix (read.1.trans after_suffix)

theorem readPropAccess_sound {s : Split} (member : name ∈ source.tokens)
    (found : s.found ∈ source.tokens) (holds : source.Holds s.after) :
    source.Finds (readPropAccess name s) fun body =>
      (∀ word ∈ body.1, Tidy word) ∧ body.2.1 ∈ source.tokens ∧ body.2.2 <:+ s.after := by
  unfold readPropAccess
  refine .ite (fun _ => .pure ⟨List.forall_mem_nil _, found, List.suffix_rfl⟩) fun isMark => ?_
  cases split : splitTop startsPropBody s.after with
  | none => exact .fail (blames_missing member _)
  | some body =>
    obtain ⟨front, body_found, -⟩ := holds.within.splitTop split
    exact .bind (readWholeAccess_sound found (by simpa using isMark) front.holds) fun access read =>
      .pure ⟨read.2, body_found, suffix_of_split (eq_of_splitTop split)⟩

theorem readPropName_sound (member : t ∈ source.tokens) (within : source.Within region ts) :
    source.Finds (readPropName t ts) fun named =>
      named.value.1 ∈ source.tokens ∧ named.value.1.isWord = true ∧
        named.value.2 ∈ source.tokens ∧ named.rest <:+ ts := by
  have suffix : skipTrivia ts <:+ ts := List.dropWhile_suffix _
  unfold readPropName
  cases started : skipTrivia ts with
  | nil => exact .fail (blames_missing member _)
  | cons name rest =>
    rw [started] at suffix
    have name_within := within.suffix suffix
    have suffix' : skipTrivia rest <:+ rest := List.dropWhile_suffix _
    refine .require (blames_missing member _) fun isName => ?_
    refine .note_bind name_within.head (canPlay_of_isNameLike isName _) ?_
    dsimp only
    cases started' : skipTrivia rest with
    | nil => exact .fail (blames_missing member _)
    | cons colon more =>
      rw [started'] at suffix'
      have colon_member := (name_within.tail.suffix suffix').head
      refine .guard (blames_missing member _) fun isColon => .note_bind colon_member
        (canPlay_of_isOp (by simpa using isColon) (by decide) _) (.pure
        ⟨name_within.head, isWord_of_isNameLike isName, colon_member, ?_⟩)
      exact ((List.suffix_cons colon more).trans suffix').trans ((List.suffix_cons name rest).trans suffix)

structure PropParts.Sound (source : Source) (rest : List Token) (parts : PropParts) : Prop where
  header : parts.header.Sound source
  access : ∀ word ∈ parts.access, Tidy word
  marker : parts.marker ∈ source.tokens
  body : parts.body <:+ rest

theorem readProp_sound (pending_sound : pending.Sound source) (isProp : t.isKeyword "prop" = true)
    (member : t ∈ source.tokens)
    (within : source.Within region rest) :
    source.Finds (readProp scope pending t rest) (PropParts.Sound source rest) := by
  unfold readProp
  refine .note_bind member (Token.canPlay_of_isKeyword isProp _)
    (.guard (Source.blames_blame member nofun) fun _ => .bind (.ofExcept (pending_sound.forProp scope.container)) fun inheritance _ =>
    .bind (readPropName_sound member within) fun named read => ?_)
  obtain ⟨name_member, isWord, colon_member, suffix⟩ := read
  have named_within := within.suffix suffix
  dsimp only
  cases split : splitTop (fun t => t.isOp "@" || t.startsPropBody) named.rest with
  | none => exact .fail (Source.blames_missing name_member _)
  | some s =>
    obtain ⟨front, found, after⟩ := named_within.splitTop split
    have after_suffix := (Source.suffix_of_split (eq_of_splitTop split)).trans suffix
    refine .bind (TypeExpr.readWhole_sound colon_member front.holds.significant)
      fun type typeRead => .bind (readPropAccess_sound name_member found after.holds)
      fun body bodyRead => .pure ⟨⟨typeRead.2, name_member, isWord⟩, bodyRead.1, bodyRead.2.1, ?_⟩
    exact bodyRead.2.2.trans after_suffix

theorem convertProp_sound (inner_sound : inner.Sound source region) (pending_sound : pending.Sound source)
    (isProp : t.isKeyword "prop" = true) (member : t ∈ source.tokens)
    (within : source.Within region rest) :
    source.DraftsFrom rest opened (convertProp inner scope pending t rest) := by
  have indirect := not_direct_of_prop isProp member
  unfold convertProp
  refine .reading_bind (readProp_sound pending_sound isProp member within) fun parts sound => ?_
  have body_within := within.suffix sound.body
  refine .ite (fun isArrow => ?_) fun _ => .ite (fun _ => ?_) fun _ =>
    .ite (fun _ => .fail (blames_blame sound.marker nofun))
    fun _ => .fail (blames_missing sound.header.member _)
  · exact .mono (convertPropExpression_sound inner_sound sound.header sound.access isArrow
      sound.marker body_within) fun _ _ suffix => .of_suffix indirect (suffix.trans sound.body)
  · exact .mono (convertPropBlock_sound inner_sound sound.header sound.access sound.marker
      body_within) fun _ _ suffix => .of_suffix indirect (suffix.trans sound.body)

end Properties

end Sharp
