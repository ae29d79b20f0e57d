import Sharp.Proofs.TypeParts

/-!
# Reading types

A type is read from at least one token, the tokens that it is read from are tokens of types, and it is
neat.  Where some tokens can be read as a type, the same tokens farther on in a source can be read as the
same type.

* `TypeExpr.readWhole_moved`: reading a whole type farther on.
-/

namespace Sharp

open Token hiding id
open TypeExpr

variable {t : Token} {text : String} {shift : Shift} {reader : TypeReader} {opts : TypeOptions}
  {n waiting : Nat} {tokens ts rest rest' after : List Token} {qualifier : Qualifier}
  {element : TupleElement} {accessor : Accessor} {strict : Prop}

theorem Source.tidy_of_isWord {source : Source} (member : t ∈ source.tokens) (isWord : t.isWord = true) :
    Tidy t.text :=
  (source.regular t member).tidy_word isWord

/-! ## States -/

def TypeProgress.moved (shift : Shift) : TypeProgress → TypeProgress
  | .start => .start
  | .single type => .single (type.moved shift)
  | .tuple front last connector =>
    .tuple (front.map (TupleElement.moved shift)) (last.moved shift) (connector.map (Token.moved shift))

def TypeState.moved (shift : Shift) (state : TypeState) : TypeState :=
  ⟨state.first.moved shift, state.progress.moved shift, state.pending.map (Qualifier.moved shift)⟩

def TypeStep.moved (shift : Shift) : TypeStep → TypeStep :=
  Step.moved shift (TypeState.moved shift) (Parsed.moved shift (TypeExpr.moved shift))

/-- What has been read is neat, and a connector is one of the tokens. -/
def TypeProgress.Sound (tokens : List Token) : TypeProgress → Prop
  | .start => True
  | .single type => AllRegular tokens → type.Neat
  | .tuple front last connector =>
    (AllRegular tokens → ∀ element ∈ front ++ [last], element.Neat) ∧ ∀ t ∈ connector, t ∈ tokens

/-- The name is neat, and the operator after it is one of the tokens. -/
structure Qualifier.Sound (tokens : List Token) (qualifier : Qualifier) : Prop where
  neat : AllRegular tokens → qualifier.Neat
  located : ∃ t ∈ tokens, t.span = qualifier.accessorSpan

/-- What has been read is sound, and so are the names in front of the next term. -/
structure TypeState.Sound (tokens : List Token) (state : TypeState) : Prop where
  first : state.first ∈ tokens
  progress : state.progress.Sound tokens
  pending : ∀ qualifier ∈ state.pending, qualifier.Sound tokens

/-- What a round comes to is sound.  Only a type that has begun ends in front of the first of the tokens. -/
def TypeStep.Sound (tokens : List Token) (state : TypeState) (t : Token) (rest : List Token) : TypeStep → Prop
  | .next state rest' => Takes True t rest rest' ∧ state.Sound tokens
  | .stop type => Spends True 0 (t :: rest) type.rest ∧ (type.rest <:+ rest ∨ state.progress ≠ .start) ∧
    (AllRegular tokens → type.value.Neat)

/-- A round of reading a type is sound, and comes to the same farther on. -/
def TypeState.Rounds (tokens : List Token) (shift : Shift) (state : TypeState) (t : Token) (rest : List Token)
    (round : TypeState → Token → List Token → Reading TypeStep) : Prop :=
  Parses tokens (round state t rest) (round (state.moved shift) (t.moved shift) (movedAll shift rest))
    (TypeStep.moved shift) (TypeStep.Sound tokens state t rest)

section Terms

variable {progress : TypeProgress} {state : TypeState} {type : TypeExpr}

theorem TypeExpr.Neat.withQualifiers (neat : type.Neat) {qualifiers : List Qualifier}
    (qualifiers_neat : ∀ qualifier ∈ qualifiers, qualifier.Neat) :
    (type.withQualifiers qualifiers).Neat := by
  obtain ⟨shape_neat, -⟩ := neat
  exact .mk shape_neat qualifiers_neat

theorem TypeExpr.Neat.withNullable (neat : type.Neat) (isNullable : Bool) :
    (type.withNullable isNullable).Neat := by
  obtain ⟨shape_neat, qualifiers_neat⟩ := neat
  exact .mk shape_neat qualifiers_neat

theorem TupleElement.Neat.neat_type (neat : element.Neat) : element.type.Neat := by
  cases neat with
  | unnamed type_neat => exact type_neat
  | named slot_neat =>
    obtain ⟨-, type_neat⟩ := slot_neat
    exact type_neat

theorem TupleElement.Neat.setType (neat : element.Neat) (type_neat : type.Neat) : (element.setType type).Neat := by
  cases neat with
  | unnamed => exact .unnamed type_neat
  | named slot_neat =>
    obtain ⟨name_tidy, -⟩ := slot_neat
    exact .named (.mk name_tidy type_neat)

namespace TypeProgress

@[simp] theorem canStart_moved (progress : TypeProgress) : (progress.moved shift).canStart = progress.canStart := by
  cases progress with
  | start => rfl
  | single type => rfl
  | tuple front last connector => cases connector <;> rfl

theorem addTerm_moved (progress : TypeProgress) (type : TypeExpr) :
    (progress.addTerm type).moved shift = (progress.moved shift).addTerm (type.moved shift) := by
  cases progress <;> simp [addTerm, moved, TupleElement.moved]

theorem addNamed_moved (progress : TypeProgress) (slot : Slot) :
    (progress.addNamed slot).moved shift = (progress.moved shift).addNamed (slot.moved shift) := by
  cases progress <;> simp [addNamed, moved, TupleElement.moved]

section

variable (sound : progress.Sound tokens)
include sound

theorem Sound.addTerm (type_neat : AllRegular tokens → type.Neat) : (progress.addTerm type).Sound tokens := by
  cases progress with
  | tuple front last connector =>
    refine ⟨fun regular => List.forall_mem_append.2 ⟨sound.1 regular, ?_⟩, nofun⟩
    exact List.forall_mem_singleton.2 (.unnamed (type_neat regular))
  | start | single _ => exact type_neat

theorem Sound.addNamed {slot : Slot}
    (slot_neat : AllRegular tokens → slot.Neat) : (progress.addNamed slot).Sound tokens := by
  have named : AllRegular tokens → ∀ element ∈ [TupleElement.named slot], element.Neat :=
    fun regular => List.forall_mem_singleton.2 (.named (slot_neat regular))
  cases progress with
  | tuple front last connector =>
    exact ⟨fun regular => List.forall_mem_append.2 ⟨sound.1 regular, named regular⟩, nofun⟩
  | start | single _ => exact ⟨named, nofun⟩

theorem Sound.mark (member : t ∈ tokens) {t' : Token} {apply apply' : TypeExpr → Reading TypeExpr}
    (applied : ∀ type : TypeExpr, (AllRegular tokens → type.Neat) → Parses tokens (apply type)
      (apply' (type.moved shift)) (TypeExpr.moved shift) fun type => AllRegular tokens → type.Neat) :
    Parses tokens (progress.mark t apply) ((progress.moved shift).mark t' apply') (TypeProgress.moved shift)
      (TypeProgress.Sound tokens) := by
  cases progress with
  | start => exact .blame member nofun
  | single type => exact .bind (applied type sound) fun _ type_neat => .pure type_neat rfl
  | tuple front last connector =>
    cases connector with
    | some _ => exact .blame member nofun
    | none =>
      have last_neat (regular : AllRegular tokens) : last.Neat := sound.1 regular last (by simp)
      have applied := applied _ fun regular => (last_neat regular).neat_type
      rw [← TupleElement.type_moved] at applied
      refine .bind applied fun type type_neat => .pure ⟨fun regular => ?_, nofun⟩ ?_
      · exact List.forall_mem_append.2 ⟨(List.forall_mem_append.1 (sound.1 regular)).1,
          List.forall_mem_singleton.2 ((last_neat regular).setType (type_neat regular))⟩
      · rw [TypeProgress.moved, TupleElement.setType_moved, Option.map_none]

theorem Sound.connect (member : t ∈ tokens) :
    Parses tokens (progress.connect t) ((progress.moved shift).connect (t.moved shift))
      (TypeProgress.moved shift) (TypeProgress.Sound tokens) := by
  have connector : ∀ t' ∈ some t, t' ∈ tokens := by simpa using member
  cases progress with
  | start => exact .blame member nofun
  | single type =>
    exact .pure ⟨fun regular => List.forall_mem_singleton.2 (.unnamed (sound regular)), connector⟩ rfl
  | tuple front last open_ =>
    cases open_ with
    | none => exact .pure ⟨sound.1, connector⟩ rfl
    | some _ => exact .blame member nofun

end

end TypeProgress

namespace TypeState

theorem addTerm_moved (state : TypeState) (type : TypeExpr) :
    (state.addTerm type).moved shift = (state.moved shift).addTerm (type.moved shift) := by
  simp [addTerm, moved, TypeProgress.addTerm_moved, withQualifiers_moved]

theorem addClosedTerm_moved (state : TypeState) (type : TypeExpr) (rest : List Token) :
    (state.addClosedTerm type rest).moved shift =
      (state.moved shift).addClosedTerm (type.moved shift) (movedAll shift rest) := by
  obtain ⟨first, progress, pending⟩ := state
  cases progress with
  | start => rfl
  | single type => rfl
  | tuple front last connector =>
    simp [addClosedTerm, moved, TypeStep.moved, Step.moved, TypeProgress.moved, TypeProgress.addTerm,
      TupleElement.moved]

theorem addQualifier_moved (state : TypeState) (qualifier : Qualifier) :
    (state.addQualifier qualifier).moved shift = (state.moved shift).addQualifier (qualifier.moved shift) := by
  simp [addQualifier, moved]

theorem getLast?_moved (state : TypeState) :
    (state.moved shift).pending.getLast? = state.pending.getLast?.map (Qualifier.moved shift) :=
  List.getLast?_map

namespace Sound

section

variable (sound : state.Sound tokens)
include sound

theorem concerns_last (last : state.pending.getLast? = some qualifier)
    {cause : Cause} (inside : cause ≠ .outsideRange) : Concerns tokens ⟨cause, some qualifier.accessorSpan⟩ :=
  ⟨inside, nofun, by simpa using (sound.pending qualifier (List.mem_of_getLast? last)).located⟩

/-- A type that has not begun has no end. -/
theorem finish : Parses tokens state.finish (state.moved shift).finish (TypeExpr.moved shift) fun type =>
      (AllRegular tokens → type.Neat) ∧ state.progress ≠ .start := by
  have unqualified (qualifier : Qualifier) (last : state.pending.getLast? = some qualifier) :
      Concerns tokens ⟨.missing .type, some qualifier.accessorSpan⟩ := sound.concerns_last last nofun
  have last := @getLast?_moved shift state
  obtain ⟨first, progress, pending⟩ := state
  obtain ⟨first_member, progress_sound, -⟩ := sound
  simp only [TypeState.finish, TypeState.moved, TypeProgress.finish] at unqualified last ⊢
  rw [last]
  cases found : pending.getLast? with
  | some qualifier =>
    have concerns := unqualified qualifier found
    cases progress with
    | start | single type => exact .fail concerns
    | tuple front last connector =>
      cases connector with
      | some connector => exact .blame (progress_sound.2 _ rfl) nofun
      | none => exact .fail concerns
  | none =>
    cases progress with
    | start => exact .blame first_member nofun
    | single type => exact .pure ⟨progress_sound, nofun⟩ rfl
    | tuple front last connector =>
      cases connector with
      | some connector => exact .blame (progress_sound.2 _ rfl) nofun
      | none =>
        refine .pure ⟨fun regular => ?_, nofun⟩ (by simp [plain_moved, Shape.moved])
        exact .mk (.tuple (progress_sound.1 regular)) (by simp)

theorem endAt :
    Parses tokens (state.endAt (t :: rest)) ((state.moved shift).endAt (t.moved shift :: movedAll shift rest))
      (TypeStep.moved shift) (TypeStep.Sound tokens state t rest) :=
  .bind sound.finish fun _ finished => .pure ⟨.refl, .inr finished.2, finished.1⟩ rfl

theorem withProgress (progress_sound : progress.Sound tokens) : TypeState.Sound tokens { state with progress } :=
  ⟨sound.first, progress_sound, sound.pending⟩

section

variable (type_neat : AllRegular tokens → type.Neat)
include type_neat

theorem withQualifiers : AllRegular tokens → (type.withQualifiers state.pending).Neat :=
  fun regular => (type_neat regular).withQualifiers fun qualifier member =>
    (sound.pending qualifier member).neat regular

theorem addTerm : (state.addTerm type).Sound tokens :=
  ⟨sound.first, sound.progress.addTerm (sound.withQualifiers type_neat), by simp [TypeState.addTerm]⟩

theorem addClosedTerm (takes : Takes True t rest rest') :
    TypeStep.Sound tokens state t rest (state.addClosedTerm type rest') := by
  unfold TypeState.addClosedTerm
  split
  · exact ⟨takes, sound.first, sound.progress.addTerm type_neat, by simp⟩
  · exact ⟨takes.spends, .inl takes.suffix, type_neat⟩

end

theorem addQualifier (qualifier_sound : qualifier.Sound tokens) : (state.addQualifier qualifier).Sound tokens :=
  ⟨sound.first, sound.progress,
    List.forall_mem_append.2 ⟨sound.pending, List.forall_mem_singleton.2 qualifier_sound⟩⟩

end

theorem of_start (member : t ∈ tokens) : TypeState.Sound tokens { first := t } :=
  ⟨member, trivial, by simp⟩

end Sound

end TypeState

/-! ## Terms -/

theorem Accessor.isOpIn_of_ofToken (found : Accessor.ofToken? t = some accessor) :
    t.isOpIn [".", "?.", "!."] = true := by
  simp only [Accessor.ofToken?, isOp, Bool.and_eq_true, beq_iff_eq] at found
  simp only [isOpIn_iff, List.mem_cons, List.not_mem_nil, or_false]
  grind

theorem eq_cons_of_splitAccessor {mark : Token} (found : splitAccessor? ts = some (accessor, mark, after)) :
    ts = mark :: after ∧ mark.isOpIn [".", "?.", "!."] = true := by
  cases ts with
  | nil => cases found
  | cons t ts =>
    simp only [splitAccessor?, Option.map_eq_some_iff, Prod.mk.injEq] at found
    obtain ⟨accessor, found, rfl, rfl, rfl⟩ := found
    exact ⟨rfl, Accessor.isOpIn_of_ofToken found⟩

theorem spends_accessor (isAccessor : t.isOpIn [".", "?.", "!."] = true) : Spends True 0 (t :: rest) rest := by
  simp only [isOpIn_iff, List.mem_cons, List.not_mem_nil, or_false] at isAccessor
  obtain ⟨operator, text⟩ := isAccessor
  have isOp : t.isOp t.text = true := by simp [Token.isOp, operator]
  refine .operator isOp ?_
  rcases text with text | text | text <;> rw [text] <;> decide

theorem splitAccessor_moved (ts : List Token) :
    splitAccessor? (movedAll shift ts) = (splitAccessor? ts).map fun found =>
      (found.1, found.2.1.moved shift, movedAll shift found.2.2) := by
  cases ts with
  | nil => rfl
  | cons t ts =>
    have same : Accessor.ofToken? (t.moved shift) = Accessor.ofToken? t := rfl
    simp only [List.map_cons, splitAccessor?, same]
    cases Accessor.ofToken? t <;> rfl

theorem readGroup_reads (reads : reader.Parses tokens shift n) (sound : state.Sound tokens)
    (opens : t.isOp "(" = true) (among : Among tokens (n + 1) (t :: rest)) :
    state.Rounds tokens shift t rest (readGroup reader opts) := by
  refine .ite (by simp [TypeState.moved]) (fun _ => sound.endAt) fun _ => ?_
  rw [splitClose, splitClose, splitCloseAt_moved]
  cases split : splitCloseAt .parenthesis 0 rest with
  | none => exact .blame among.head (by simp)
  | some s =>
    have inside := among.pred.splitClose split
    refine .guard (by simp [Split.moved]) (.blame among.head (by simp)) fun _ =>
      .bind (reads.read _ (.blame among.head (by simp)) inside) fun inner read => ?_
    obtain ⟨inner, extra⟩ := inner
    obtain ⟨spent, inner_neat⟩ := read
    cases extra with
    | cons extra _ => exact .blame (inside.spends spent).head (by simp)
    | nil =>
      have takes : Takes True t rest s.after :=
        ⟨.group opens split spent, Source.suffix_of_split (eq_of_splitClose split)⟩
      dsimp only [Split.moved]
      rw [splitAccessor_moved]
      cases accessed : splitAccessor? s.after with
      | none =>
        exact .pure ⟨takes, sound.addTerm inner_neat⟩
          (by rw [TypeStep.moved, Step.moved, TypeState.addTerm_moved]; rfl)
      | some found =>
        obtain ⟨accessor, mark, after⟩ := found
        obtain ⟨after_eq, isAccessor⟩ := eq_cons_of_splitAccessor accessed
        rw [after_eq] at takes
        have mark_member := (among.spends takes.spends).head
        refine .guard (by simp [Parsed.moved]) (.blame among.head (by simp)) fun _ => .note_bind mark_member
          (canPlay_of_isOpIn isAccessor (by decide) _) (.pure ⟨takes.before (spends_accessor isAccessor), ?_⟩ ?_)
        · exact sound.addQualifier ⟨fun regular => .mk (inner_neat regular), mark, mark_member, rfl⟩
        · rw [TypeStep.moved, Step.moved, TypeState.addQualifier_moved, Qualifier.moved,
            ← Span.between_moved, ← Token.span_moved]
          rfl

theorem markNullable_reads (member : t ∈ tokens) {t' : Token} (neat : AllRegular tokens → type.Neat) :
    Parses tokens (markNullable t type) (markNullable t' (type.moved shift)) (TypeExpr.moved shift)
      fun type => AllRegular tokens → type.Neat :=
  .ite (by simp) (fun _ => .blame member nofun) fun _ =>
    .pure (fun regular => (neat regular).withNullable true) (withNullable_moved ..).symm

theorem markArray_reads (member : t ∈ tokens) (isMark : t.isOp "#" = true) {t' : Token}
    (neat : AllRegular tokens → type.Neat) :
    Parses tokens (markArray t type) (markArray t' (type.moved shift)) (TypeExpr.moved shift)
      fun type => AllRegular tokens → type.Neat :=
  .note_bind member (canPlay_of_isOp isMark (by decide) _)
    (.pure (fun regular => .mk (.array (neat regular)) (by simp)) (by rw [plain_moved, Shape.moved]))

theorem readTypeOperator_reads (sound : state.Sound tokens) (operator : t.category = .operator)
    (member : t ∈ tokens) : state.Rounds tokens shift t rest (readTypeOperator opts) := by
  have isOp {text : String} (same : t.text = text) : t.isOp text = true := by
    simp [Token.isOp, operator, same]
  have takes {text : String} (same : t.text = text)
      (listed : text ∈ typeOperators.filter (· ∉ "=>" :: bracketOperators)) : Takes True t rest rest :=
    .cons (.operator (isOp same) listed) .refl
  have text : (t.moved shift).text = t.text := rfl
  unfold TypeState.Rounds readTypeOperator
  rw [text]
  split
  · next same =>
    exact .bind (sound.progress.mark member fun _ => markNullable_reads member) fun _ progress_sound =>
      .pure ⟨takes same (by decide), sound.withProgress progress_sound⟩ rfl
  · next same =>
    exact .bind (sound.progress.mark member fun _ => markArray_reads member (isOp same))
      fun _ progress_sound => .pure ⟨takes same (by decide), sound.withProgress progress_sound⟩ rfl
  · next same =>
    exact .ite Iff.rfl (fun _ => sound.endAt) fun _ => .bind (sound.progress.connect member)
      fun _ progress_sound => .note_bind member (canPlay_of_isOp (isOp same) (by decide) _)
        (.pure ⟨takes same (by decide), sound.withProgress progress_sound⟩ rfl)
  · exact .ite Iff.rfl (fun _ => sound.endAt) fun _ => .blame member (by simp)

theorem skipOp_moved (shift : Shift) (text : String) (ts : List Token) :
    skipOp text (movedAll shift ts) = movedAll shift (skipOp text ts) ∧
      startsWithOp text (movedAll shift ts) = startsWithOp text ts := by
  cases ts with
  | nil => exact ⟨rfl, rfl⟩
  | cons t ts =>
    have same : (t.moved shift).isOp text = t.isOp text := rfl
    refine ⟨?_, same⟩
    by_cases isOp : t.isOp text = true <;> simp [skipOp, startsWithOp, same, isOp]

theorem spends_skipOp (text : String) (listed : text ∈ typeOperators.filter (· ∉ "=>" :: bracketOperators))
    (ts : List Token) : Spends True 0 ts (skipOp text ts) := by
  cases ts with
  | nil => exact .refl
  | cons t ts =>
    unfold skipOp
    split
    · next isOp => exact .operator isOp listed
    · exact .refl

theorem readFunctionTerm_reads (reads : reader.Parses tokens shift n) (sound : state.Sound tokens)
    (isKeyword : t.isKeyword "fn" = true) (among : Among tokens (n + 1) (t :: rest)) :
    state.Rounds tokens shift t rest (readFunctionTerm reader opts) := by
  have skipped := spends_skipOp "?" (by decide) rest
  obtain ⟨skip, starts⟩ := skipOp_moved shift "?" rest
  unfold TypeState.Rounds readFunctionTerm
  rw [skip, starts]
  generalize skipOp "?" rest = body at skipped ⊢
  have body_among := among.pred.spends skipped
  cases body with
  | nil => exact .blame among.head nofun
  | cons colon body =>
    refine .require rfl (.blame among.head nofun) fun isColon =>
      .note_bind body_among.head (canPlay_of_isOp isColon (by decide) _) ?_
    rw [TypeState.getLast?_moved]
    cases last : state.pending.getLast? with
    | some qualifier => exact .fail (sound.concerns_last last nofun)
    | none =>
      refine .guard (by simp [TypeState.moved]) (.blame among.head nofun) fun _ =>
        .bind (readFunction_reads reads _ body_among.tail) fun function read =>
          .pure (sound.addClosedTerm (fun regular => ?_) ?_) ?_
      · obtain ⟨args_neat, returned_neat⟩ := read.2 regular
        exact TypeExpr.Neat.withNullable (.mk (.function args_neat returned_neat) (by simp)) _
      · have others := skipped.trans (.cons (.operator isColon (by decide)) read.1)
        exact ⟨.fn isKeyword others, others.suffix⟩
      · simp [TypeState.addClosedTerm_moved, withNullable_moved, plain_moved, Shape.moved, Parsed.moved,
          movedFunction]

theorem name_neat (among : Among tokens n (t :: rest)) (isName : t.isTypeName = true) :
    AllRegular tokens → (TypeExpr.normal t.text).Neat :=
  fun regular => normal_neat ((regular t among.head).tidy_word (isWord_of_isTypeName isName))

theorem readPlainName_reads (shift : Shift) (sound : state.Sound tokens) (isName : t.isTypeName = true)
    (among : Among tokens n (t :: rest)) : state.Rounds tokens shift t rest readPlainName := by
  unfold TypeState.Rounds readPlainName
  refine .guard (by simp [TypeState.moved]) (.blame among.head nofun) fun _ =>
    .bind (noteTypeName_reads among.head isName) fun _ _ => .pure ⟨.cons (.typeName isName) .refl, ?_⟩ ?_
  · exact sound.addTerm (name_neat among isName)
  · rw [TypeStep.moved, Step.moved, TypeState.addTerm_moved, normal_moved]
    rfl

theorem readNameTerm_reads (reads : reader.Parses tokens shift n) (sound : state.Sound tokens)
    (isName : t.isTypeName = true) (among : Among tokens (n + 1) (t :: rest)) :
    state.Rounds tokens shift t rest (readNameTerm reader opts) := by
  have plain := readPlainName_reads shift sound isName among
  cases rest with
  | nil => exact plain
  | cons mark after =>
    have sameAccessor : Accessor.ofToken? (mark.moved shift) = Accessor.ofToken? mark := rfl
    have mark_member := among.tail.head
    simp only [TypeState.Rounds, readNameTerm, List.map_cons]
    refine .ite (by simp [Token.moved, isOp]) (fun dash => ?_) fun _ => ?_
    · -- Generics.
      simp only [Bool.and_eq_true] at dash
      refine .guard (by simp [TypeState.moved]) (.blame among.head (by simp)) fun _ =>
        .bind (readGenerics_reads reads opts isName dash.1 among) fun generics read =>
          .pure (sound.addClosedTerm (sound.withQualifiers read.2) read.1) ?_
      rw [TypeState.addClosedTerm_moved, withQualifiers_moved]
      rfl
    rw [sameAccessor, TypeState.getLast?_moved]
    cases accessed : Accessor.ofToken? mark with
    | some accessor =>
      have isAccessor := Accessor.isOpIn_of_ofToken accessed
      refine .guard (by simp) (.blame mark_member (by simp)) fun _ => .bind (noteTypeName_reads among.head isName)
        fun _ _ => .note_bind mark_member (canPlay_of_isOpIn isAccessor (by decide) _)
          (.pure ⟨.cons (.typeName isName) (spends_accessor isAccessor), ?_⟩ ?_)
      · exact sound.addQualifier ⟨fun regular => .mk (name_neat among isName regular), mark, mark_member, rfl⟩
      · rw [TypeStep.moved, Step.moved, TypeState.addQualifier_moved, Qualifier.moved, normal_moved,
          ← Token.span_moved, ← Token.span_moved]
        rfl
    | none =>
      refine .ite (by simp [Token.moved, isOp]) (fun _ => ?_) fun _ => plain
      -- A named element of a tuple.
      cases last : state.pending.getLast? with
      | some qualifier => exact .fail (sound.concerns_last last (by simp))
      | none =>
        refine .guard (by simp [TypeState.moved]) (.blame among.head (by simp)) fun _ =>
          .bind (readNamedSlot_reads reads _ _ among) fun slot read => .pure ⟨read.1.weaken fun _ => rfl, ?_⟩ ?_
        · exact sound.withProgress (sound.progress.addNamed read.2)
        · simp only [TypeStep.moved, Step.moved, TypeState.moved, TypeProgress.addNamed_moved]
          rfl

theorem readTerm_reads (reads : reader.Parses tokens shift n) (sound : state.Sound tokens)
    (among : Among tokens (n + 1) (t :: rest)) : state.Rounds tokens shift t rest (readTerm reader opts) := by
  refine .ite Iff.rfl (fun opens => ?_) fun _ => .ite Iff.rfl (fun operator => ?_) fun _ =>
    .ite Iff.rfl (fun isFn => ?_) fun _ => .ite Iff.rfl (fun isName => ?_) fun _ => .blame among.head nofun
  · exact readGroup_reads reads sound opens among
  · exact readTypeOperator_reads sound operator among.head
  · exact readFunctionTerm_reads reads sound isFn among
  · exact readNameTerm_reads reads sound isName among

/-! ## Dotted names -/

theorem dottedTail_moved (shift : Shift) (ts : List Token) : dottedTail? (movedAll shift ts) = dottedTail? ts := by
  fun_induction dottedTail? ts with
  | case1 => rfl
  | case2 => rfl
  | case3 dot name ts isPair ih =>
    have isPair' : ((dot.moved shift).isOp "." && (name.moved shift).isTypeName) = true := isPair
    rw [movedAll, List.map_cons, List.map_cons, dottedTail?, if_pos isPair', ih]
    rfl
  | case4 dot name ts other =>
    have other' : ¬ ((dot.moved shift).isOp "." && (name.moved shift).isTypeName) = true := other
    rw [movedAll, List.map_cons, List.map_cons, dottedTail?, if_neg other']

theorem dottedName_moved (shift : Shift) (ts : List Token) : dottedName? (movedAll shift ts) = dottedName? ts := by
  match ts with
  | [] => rfl
  | [_] => rfl
  | name :: dot :: ts =>
    have tail := dottedTail_moved shift (dot :: ts)
    rw [movedAll, List.map_cons] at tail
    rw [movedAll, List.map_cons, List.map_cons, dottedName?, tail]
    rfl

/-- A dotted name consists of names of types and of dots. -/
structure DottedTokens (ts : List Token) : Prop where
  spends : Spends True 0 ts []
  names : ∀ t ∈ ts, ¬ t.isOp "." = true → t.isTypeName = true

theorem dotted_of_tail (found : dottedTail? ts = some text) : DottedTokens ts ∧ (AllRegular ts → Tidy text) := by
  fun_induction dottedTail? ts generalizing text with
  | case1 => cases found; exact ⟨⟨.refl, nofun⟩, fun _ => by decide⟩
  | case2 | case4 => cases found
  | case3 dot name ts isPair ih =>
    simp only [Option.map_eq_some_iff, Bool.and_eq_true] at found isPair
    obtain ⟨tail, found, rfl⟩ := found
    obtain ⟨dotted, tidy⟩ := ih found
    refine ⟨⟨.cons (.operator isPair.1 (by decide)) (.cons (.typeName isPair.2) dotted.spends), ?_⟩,
      fun regular => ?_⟩
    · simp only [List.forall_mem_cons]
      exact ⟨fun other => absurd isPair.1 other, fun _ => isPair.2, dotted.names⟩
    · simp only [AllRegular, List.forall_mem_cons] at regular
      have dot_tidy : Tidy dot.text := by
        rw [(isOp_iff.1 isPair.1).2]
        decide
      have name_tidy := regular.2.1.tidy_word (isWord_of_isTypeName isPair.2)
      exact (dot_tidy.append name_tidy).append (tidy regular.2.2)

theorem dotted_of_name (found : dottedName? ts = some text) : DottedTokens ts ∧ (AllRegular ts → Tidy text) := by
  unfold dottedName? at found
  split at found
  · split at found
    · next isName =>
      simp only [Option.map_eq_some_iff] at found
      obtain ⟨tail, found, rfl⟩ := found
      obtain ⟨dotted, tidy⟩ := dotted_of_tail found
      refine ⟨⟨.cons (.typeName isName) dotted.spends, ?_⟩, fun regular => ?_⟩
      · exact List.forall_mem_cons.2 ⟨fun _ => isName, dotted.names⟩
      · obtain ⟨first, others⟩ := List.forall_mem_cons.1 regular
        exact (first.tidy_word (isWord_of_isTypeName isName)).append (tidy others)
    · cases found
  · cases found

theorem noteDotted_reads (members : ∀ t ∈ ts, t ∈ tokens)
    (names : ∀ t ∈ ts, ¬ t.isOp "." = true → t.isTypeName = true) :
    Parses tokens (noteDotted ts) (noteDotted (movedAll shift ts)) id fun _ => True := by
  induction ts with
  | nil => exact .pure trivial rfl
  | cons t ts ih =>
    obtain ⟨member, members⟩ := List.forall_mem_cons.1 members
    obtain ⟨isName, names⟩ := List.forall_mem_cons.1 names
    change Parses tokens (_ >>= fun _ => noteDotted ts) (_ >>= fun _ => noteDotted (movedAll shift ts)) _ _
    refine .bind (P := fun _ => True) (f := id) ?_ fun _ _ => ih members names
    exact .ite Iff.rfl (fun isDot => .note member (canPlay_of_isOp isDot (by decide) _))
      fun other => noteTypeName_reads member (isName other)

/-! ## Types -/

theorem readTypeWith_reads (reads : reader.Parses tokens shift n) (opts : TypeOptions)
    (among : Among tokens (n + 1) (t :: rest)) :
    Parses tokens (readTypeWith reader opts t rest) (readTypeWith reader opts (t.moved shift) (movedAll shift rest))
      (Parsed.moved shift (TypeExpr.moved shift)) fun type =>
        Takes True t rest type.rest ∧ (AllRegular tokens → type.value.Neat) := by
  have same := dottedName_moved shift (t :: rest)
  rw [movedAll, List.map_cons] at same
  unfold readTypeWith
  rw [same]
  cases found : dottedName? (t :: rest) with
  | some name =>
    obtain ⟨dotted, tidy⟩ := dotted_of_name found
    refine .bind (noteDotted_reads among.member dotted.names) fun _ _ =>
      .pure ⟨⟨dotted.spends, List.nil_suffix⟩, fun regular => normal_neat (tidy ?_)⟩
        (by rw [Parsed.moved, normal_moved]; rfl)
    exact fun t member => regular t (among.member t member)
  | none =>
    -- Either all tokens are left and no term has been read, or the first token is taken.
    refine .walk (g := TypeState.moved shift) (fun state ts => state.Sound tokens ∧
      (Takes True t rest ts ∨ ts = t :: rest ∧ state.progress = .start)) ?_ ?_
      ⟨.of_start among.head, .inr ⟨rfl, rfl⟩⟩
    · rintro state first more ⟨sound, takes | ⟨whole, start⟩⟩
      · refine (readTerm_reads reads sound (among.spends takes.spends)).mono fun step read => ?_
        cases step with
        | next state ts => exact ⟨read.1.suffix, read.2, .inl (takes.before read.1.spends)⟩
        | stop type => exact ⟨takes.before read.1, read.2.2⟩
      · obtain ⟨rfl, rfl⟩ := List.cons.inj whole
        refine (readTerm_reads reads sound among).mono fun step read => ?_
        cases step with
        | next state ts => exact ⟨read.1.suffix, read.2, .inl read.1⟩
        | stop type => exact ⟨⟨read.1, read.2.1.resolve_right fun begun => begun start⟩, read.2.2⟩
    · rintro state ⟨sound, takes | ⟨whole, -⟩⟩
      · exact .bind sound.finish fun _ finished => .pure ⟨takes, finished.1⟩ rfl
      · cases whole

theorem typeReader_reads (tokens : List Token) (shift : Shift) (n : Nat) :
    (typeReader n).Parses tokens shift n := by
  induction n using Nat.strongRecOn with
  | ind n ih =>
    intro opts t rest among
    have shorter : rest.length < n := among.length_le
    rw [typeReader]
    refine .ite (by rw [List.length_map]) (fun _ => ?_) fun long => absurd shorter long
    rw [List.length_map]
    exact readTypeWith_reads (ih rest.length shorter) opts ⟨among.member, le_rfl⟩

theorem TypeExpr.reader_reads (tokens : List Token) (shift : Shift) (n : Nat) :
    TypeExpr.reader.Parses tokens shift n := by
  intro opts t rest among
  have reads := readTypeWith_reads (typeReader_reads tokens shift rest.length) opts ⟨among.member, le_rfl⟩
  simpa only [TypeExpr.reader, List.length_map] using reads

theorem TypeExpr.readWhole_reads (shift : Shift) {before : Token} (before' : Token) (member : before ∈ tokens)
    (members : ∀ t ∈ ts, t ∈ tokens) :
    Parses tokens (readWhole before ts) (readWhole before' (movedAll shift ts)) (TypeExpr.moved shift)
      fun type => Spends True 0 ts [] ∧ (AllRegular tokens → type.Neat) := by
  have among : Among tokens ts.length ts := ⟨members, le_rfl⟩
  refine .bind ((reader_reads tokens shift _).read _ (.blame member nofun) among) fun type read => ?_
  obtain ⟨type, rest⟩ := type
  cases rest with
  | nil => exact .pure read rfl
  | cons extra _ => exact .blame (among.spends read.1).head nofun

theorem TypeExpr.readWhole_moved (shift : Shift) (before before' : Token) {type : TypeExpr} {notes : List Note}
    (read : readWhole before ts = .done type notes) :
    TypeTokens 0 ts ∧ ∃ notes', readWhole before' (movedAll shift ts) = .done (type.moved shift) notes' := by
  have reads := readWhole_reads shift before' (List.mem_cons_self (l := ts))
    fun t member => List.mem_cons_of_mem before member
  exact (reads.done read).imp_left fun read => read.1.typeTokens

/-- Only where there are no tokens there is no type to read.  A type is read from at least one token, and
each token that it takes can be in a type; the parentheses among them are in order. -/
theorem TypeExpr.read_material (opts : TypeOptions) (ts : List Token) :
    ((∀ missing, TypeExpr.read opts missing ts = .fail missing) ↔ ts = []) ∧
    ∀ missing type notes, TypeExpr.read opts missing ts = .done type notes →
      ∃ used, ts = used ++ type.rest ∧ 1 ≤ used.length ∧ WellBracketed used ∧
        ∀ t ∈ used, t.isTypeMaterial = true := by
  cases ts with
  | nil => exact ⟨iff_of_true (fun _ => rfl) rfl, fun _ _ _ read => by cases read⟩
  | cons t rest =>
    have same (missing : Fault) : TypeExpr.read opts missing (t :: rest) =
        readTypeWith (typeReader rest.length) opts t rest := rfl
    simp only [same]
    refine ⟨iff_of_false (fun fails => ?_) (List.cons_ne_nil _ _), fun _ type notes read => ?_⟩
    · -- What is read does not depend on the fault for no tokens.
      have both := (fails (.missing t .type)).symm.trans (fails (.unexpected t))
      simp [Fault.missing, Fault.unexpected, Fault.blame] at both
    · have reads := readTypeWith_reads (typeReader_reads (t :: rest) ⟨0, 0⟩ rest.length) opts
        ⟨fun _ member => member, le_rfl⟩
      obtain ⟨⟨⟨⟨used, parts, -, types⟩, suffix⟩, -⟩, -⟩ := reads.done read
      have length := congrArg List.length parts
      have fewer := suffix.length_le
      simp only [List.length_cons, List.length_append] at length
      exact ⟨used, parts, by omega, (types trivial).bracketed, (types trivial).material⟩

/-- In `(a?), b`, a type is read up to the closing parenthesis. -/
theorem TypeExpr.read_material_nullable :
    let name (text : String) : Token := ⟨0, text, 0, 0, .identifier, none⟩
    let operator (text : String) : Token := ⟨0, text, 0, 0, .operator, none⟩
    let ts := [operator "(", name "a", operator "?", operator ")", operator ",", name "b"]
    ∃ type notes, TypeExpr.read .declaration (.missing (name "a") .type) ts = .done type notes ∧
      type.rest.length = 2 ∧ ∃ used, ts = used ++ type.rest ∧ 1 ≤ used.length ∧ WellBracketed used ∧
        ∀ t ∈ used, t.isTypeMaterial = true := by
  intro name operator ts
  obtain ⟨type, notes, read, left⟩ : ∃ type notes,
      TypeExpr.read .declaration (.missing (name "a") .type) ts = .done type notes ∧ type.rest.length = 2 :=
    Logged.exists_done (by decide +kernel +zetaReduce)
  exact ⟨type, notes, read, left, (TypeExpr.read_material .declaration ts).2 _ type notes read⟩

end Terms

/-! ## Types of a source -/

section Sources

variable {source : Source} {before : Token}

theorem takes_append (none : ∀ t ∈ ts, t.isCopiedLiteral = false) : source.Takes (ts ++ rest) 0 rest :=
  ⟨List.suffix_append ts rest, fun _ => by rw [literals_append, literals_eq_zero none]⟩

theorem Spends.takes (spends : Spends strict waiting ts rest) : source.Takes ts 0 rest := by
  obtain ⟨used, rfl, none, -⟩ := spends
  exact takes_append none

theorem Takes.passes (takes : Takes strict t rest rest') : source.Passes t rest rest' := by
  obtain ⟨⟨used, parts, none, -⟩, suffix⟩ := takes
  cases used with
  | nil =>
    obtain rfl : t :: rest = rest' := parts
    exact absurd suffix.length_le (by simp)
  | cons first used =>
    rw [List.cons_append, List.cons.injEq] at parts
    obtain ⟨rfl, rfl⟩ := parts
    obtain ⟨other, none⟩ := List.forall_mem_cons.1 none
    exact ⟨other, takes_append none⟩

theorem sound_reader (opts : TypeOptions) (holds : source.Holds (t :: rest)) :
    source.Finds (TypeExpr.reader.readFrom opts t rest) fun type =>
      source.Passes t rest type.rest ∧ type.value.Neat :=
  (reader_reads source.tokens ⟨0, 0⟩ _ opts t rest ⟨holds, le_rfl⟩).finds.mono
    fun _ read => ⟨read.1.passes, read.2 source.regular⟩

theorem TypeExpr.readWhole_sound (member : before ∈ source.tokens) (holds : source.Holds ts) :
    source.Finds (TypeExpr.readWhole before ts) fun type => source.Takes ts 0 [] ∧ type.Neat :=
  (readWhole_reads ⟨0, 0⟩ before member holds).finds.mono fun _ read => ⟨read.1.takes, read.2 source.regular⟩

theorem readSlots_sound (holds : source.Holds ts) :
    source.Finds (readSlots ts) fun slots => source.Takes ts 0 [] ∧ ∀ slot ∈ slots, slot.Neat := by
  unfold readSlots
  refine .walk (fun (slots : List Slot) rest =>
    source.Takes ts 0 rest ∧ ∀ slot ∈ slots, slot.Neat) ?_
    (fun slots invariant => ?_) ⟨.refl, List.forall_mem_nil _⟩
  swap
  · exact .pure invariant
  rintro slots first more ⟨takes, slots_neat⟩
  have among : Among source.tokens (more.length + 1) (first :: more) := ⟨holds.suffix takes.suffix, le_rfl⟩
  refine .bind (readNamedSlot_reads (reader_reads _ ⟨0, 0⟩ _) _ _ among).finds fun slot read => ?_
  obtain ⟨slot, rest⟩ := slot
  obtain ⟨slot_takes, slot_neat⟩ := read
  have rest_among := among.spends slot_takes.spends
  have slots_neat := List.forall_mem_append.2 ⟨slots_neat, List.forall_mem_singleton.2 (slot_neat source.regular)⟩
  cases rest with
  | nil => exact .pure ⟨takes.before slot_takes.spends.takes, slots_neat⟩
  | cons t rest =>
    refine .guard (Source.blames_unexpected rest_among.head) fun comma => ?_
    simp only [Bool.or_eq_true, Bool.not_eq_true', not_or, Bool.not_eq_false] at comma
    refine .note_bind rest_among.head (canPlay_of_isOp comma.1 (by decide) _) (.pure ?_)
    have slot_takes := slot_takes.before (.operator comma.1 (by decide))
    exact ⟨slot_takes.suffix, takes.before slot_takes.spends.takes, slots_neat⟩

theorem readSignature_sound (holds : source.Holds ts) : source.Finds (readSignature ts) fun function =>
      source.Takes ts 0 function.rest ∧ NeatFunction function.value :=
  (readFunction_reads (reader_reads _ ⟨0, 0⟩ ts.length) _ ⟨holds, le_rfl⟩).finds.mono
    fun _ read => ⟨read.1.takes, read.2 source.regular⟩

end Sources

end Sharp
