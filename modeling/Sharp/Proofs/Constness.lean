import Sharp.Proofs.BuiltFrames

/-!
# Constant expressions

An expression counts as constant exactly if it is written with literals and operators alone, and none of the
operators belongs to a construct that depends on the run of the program.

* `convertRightSide_isConst_iff`: when the right side of a statement is constant, and what a constant can be
  declared with.
-/

namespace Sharp

open Layers Source Token

variable {t : Token} {ts rest rest' : List Token} {inner : Converters} {place : Place}
  {frame frame' : Frame} {flow : Flow}

/-! ## Tokens -/

/-- The keywords that are literals. -/
def literalWords : List String := ["true", "false", "null"]

/-- The operators of indexers, tuples, lambdas and initializers. -/
def varyingOperators : List String := ["#", "~", "=>", "\x7b", "\x7d"]

/-- The token can stand in a constant expression: it is a literal, or an operator that combines them. -/
def Token.IsConstPart (t : Token) : Prop :=
  t.isCopiedLiteral = true ∨ (t.category = .keyword ∧ t.text ∈ literalWords) ∨
    (t.category = .operator ∧ t.text ∉ varyingOperators)

/-- The tokens can be a constant expression. -/
structure ConstTokens (ts : List Token) : Prop where
  parts : ∀ t ∈ ts, t.isTrivia = false → t.IsConstPart
  /-- No `@` makes a name of the word right after it. -/
  names : ∀ mark word, mark.isOp "@" = true → word.isWord = true → ¬ [mark, word] <:+: ts

def StartsWithWord (ts : List Token) : Prop := ∃ word, ts.head? = some word ∧ word.isWord = true

/-- The tokens `used` can be a part of a constant expression that goes on with `rest`. -/
def ConstPrefix : List Token → List Token → Prop
  | [], _ => True
  | t :: used, rest =>
    (t.isTrivia = false → t.IsConstPart) ∧ ¬ (t.isOp "@" = true ∧ StartsWithWord (used ++ rest)) ∧ ConstPrefix used rest

section Tokens

variable {used more : List Token}

theorem startsWithWord_cons_iff : StartsWithWord (t :: ts) ↔ t.isWord = true := by
  simp [StartsWithWord]

theorem not_startsWithWord_nil : ¬ StartsWithWord [] := by
  simp [StartsWithWord]

theorem Token.isWord_of_isOp {text : String} (operator : t.isOp text = true) : t.isWord = false := by
  simp [isWord, (isOp_iff.1 operator).1]

theorem constPrefix_append (rest : List Token) :
    ConstPrefix (used ++ more) rest ↔ ConstPrefix used (more ++ rest) ∧ ConstPrefix more rest := by
  induction used with
  | nil => simp [ConstPrefix]
  | cons t used ih => simp only [List.cons_append, ConstPrefix, ih, List.append_assoc, and_assoc]

/-- Of the tokens that follow, only the first one matters, and only if it is a word. -/
theorem constPrefix_congr (same : StartsWithWord rest ↔ StartsWithWord rest') :
    ConstPrefix used rest ↔ ConstPrefix used rest' := by
  induction used with
  | nil => rfl
  | cons t used ih =>
    have next : StartsWithWord (used ++ rest) ↔ StartsWithWord (used ++ rest') := by
      cases used with
      | nil => exact same
      | cons first used => simp [StartsWithWord]
    rw [ConstPrefix, ConstPrefix, next, ih]

theorem constTokens_cons_iff : ConstTokens (t :: ts) ↔
      (t.isTrivia = false → t.IsConstPart) ∧ ¬ (t.isOp "@" = true ∧ StartsWithWord ts) ∧ ConstTokens ts := by
  have pair (mark word : Token) :
      [mark, word] <:+: t :: ts ↔ (mark = t ∧ ts.head? = some word) ∨ [mark, word] <:+: ts := by
    rw [List.infix_cons_iff, List.cons_prefix_cons, List.singleton_prefix_iff_head?_eq_some]
  constructor
  · intro constant
    obtain ⟨first, others⟩ := List.forall_mem_cons.1 constant.parts
    refine ⟨first, ?_, others, fun mark word isMark isWord inside => ?_⟩
    · rintro ⟨isMark, word, starts, isWord⟩
      exact constant.names t word isMark isWord ((pair t word).2 (.inl ⟨rfl, starts⟩))
    · exact constant.names mark word isMark isWord ((pair mark word).2 (.inr inside))
  · rintro ⟨first, noName, constant⟩
    refine ⟨List.forall_mem_cons.2 ⟨first, constant.parts⟩, fun mark word isMark isWord inside => ?_⟩
    rcases (pair mark word).1 inside with ⟨rfl, starts⟩ | inside
    · exact noName ⟨isMark, word, starts, isWord⟩
    · exact constant.names mark word isMark isWord inside

theorem constPrefix_iff (ends : ¬ StartsWithWord rest) : ConstPrefix used rest ↔ ConstTokens used := by
  induction used with
  | nil => exact ⟨fun _ => ⟨by simp, by simp⟩, fun _ => trivial⟩
  | cons t used ih =>
    have next : StartsWithWord (used ++ rest) ↔ StartsWithWord used := by
      cases used with
      | nil => exact iff_of_false ends not_startsWithWord_nil
      | cons first used => simp [StartsWithWord]
    rw [ConstPrefix, constTokens_cons_iff, next, ih]

end Tokens

/-! ## Rounds -/

/-- From the tokens `ts` to their end `rest`, a value stays constant exactly if the tokens between allow it. -/
def Tells (wasConst : Bool) (ts : List Token) (isConst : Bool) (rest : List Token) : Prop :=
  ∃ taken, ts = taken ++ rest ∧ (isConst = true ↔ wasConst = true ∧ ConstPrefix taken rest)

/-- The round takes tokens and tells whether the value stays constant.  In brackets it does not end the expression. -/
def Flow.Tells (place : Place) (wasConst : Bool) (ts : List Token) : Flow → Prop
  | .next frame rest => Sharp.Tells wasConst ts frame.isConst rest
  | .stop e => place.mode ≠ .group ∧ Sharp.Tells wasConst ts e.value.isConst e.rest

def Flow.Varies (place : Place) (rest : List Token) : Flow → Prop
  | .next frame rest' => frame.isConst = false ∧ rest' <:+ rest
  | .stop e => place.mode ≠ .group ∧ e.value.isConst = false ∧ e.rest <:+ rest

/-- The expressions inside tell whether they are constant, and fill their brackets. -/
def Converters.TellsConst (inner : Converters) : Prop :=
  ∀ place t rest, (inner.expressionFrom place t rest).Ensures fun e =>
    Tells true (t :: rest) e.value.isConst e.rest ∧ (place.mode = .group → e.rest = [])

section Rounds

variable {wasConst isConst isConst' : Bool}

theorem Tells.refl (isConst : Bool) (ts : List Token) : Tells isConst ts isConst ts :=
  ⟨[], rfl, by simp [ConstPrefix]⟩

theorem Tells.trans (first : Tells wasConst ts isConst rest) (second : Tells isConst rest isConst' rest') :
    Tells wasConst ts isConst' rest' := by
  obtain ⟨taken, rfl, same⟩ := first
  obtain ⟨more, rfl, same'⟩ := second
  refine ⟨taken ++ more, (List.append_assoc ..).symm, ?_⟩
  rw [same', same, constPrefix_append, and_assoc]

theorem tells_single (part : t.isTrivia = false → t.IsConstPart)
    (noName : ¬ (t.isOp "@" = true ∧ StartsWithWord rest)) : Tells isConst (t :: rest) isConst rest :=
  ⟨[t], rfl, by simp [ConstPrefix, noName, eq_true part]⟩

theorem tells_of_varies (significant : t.isTrivia = false) (varying : ¬ t.IsConstPart)
    (varies : flow.Varies place rest) : flow.Tells place wasConst (t :: rest) := by
  have tells {isConst : Bool} {rest' : List Token} (varied : isConst = false) (suffix : rest' <:+ rest) :
      Tells wasConst (t :: rest) isConst rest' := by
    obtain ⟨taken, rfl⟩ := suffix
    refine ⟨t :: taken, rfl, ?_⟩
    simp [ConstPrefix, significant, varying, varied]
  cases flow with
  | next frame rest' => exact tells varies.1 varies.2
  | stop e =>
    obtain ⟨outside, varied, suffix⟩ := varies
    exact ⟨outside, tells varied suffix⟩

theorem Converters.TellsConst.expression (tells : inner.TellsConst) (place : Place) (ts : List Token) :
    (inner.expression place ts).Ensures fun e =>
      Tells true ts e.value.isConst e.rest ∧ (place.mode = .group → e.rest = []) := by
  cases ts with
  | nil => exact .pure ⟨.refl true [], fun _ => rfl⟩
  | cons t rest => exact tells place t rest

end Rounds

/-! ## Frames -/

namespace Frame

@[simp] theorem isConst_closeTuple : (frame.closeTuple place).isConst = frame.isConst := by
  unfold closeTuple
  split <;> rfl

@[simp] theorem isConst_openTuple : (frame.openTuple place).isConst = frame.isConst := by
  unfold openTuple
  split
  · split <;> rfl
  · rfl

@[simp] theorem isConst_finish : (frame.finish place).isConst = frame.isConst := isConst_closeTuple

@[simp] theorem isConst_operator (text : String) : (frame.operator place text).isConst = frame.isConst :=
  rfl

@[simp] theorem isConst_word (text : String) : (frame.word text).isConst = frame.isConst := rfl

@[simp] theorem isConst_markSegment : frame.markSegment.isConst = frame.isConst := rfl

@[simp] theorem isConst_markParams (ts : List Token) : (frame.markParams ts).isConst = frame.isConst :=
  rfl

@[simp] theorem isConst_vary : frame.vary.isConst = false := rfl

@[simp] theorem isConst_addInner (e : Expression) : (frame.addInner e).isConst = (frame.isConst && e.isConst) :=
  rfl

theorem isConst_addSlots (slots : List Slot) : (frame.addSlots place slots).isConst = frame.isConst := by
  induction slots generalizing frame with
  | nil => rfl
  | cons slot slots ih =>
    cases slots with
    | nil => rfl
    | cons next slots => exact ih

end Frame

/-! ## Operators -/

section Operators

section

variable (operator : t.category = .operator)
include operator

theorem Token.isConstPart_of_operator (other : t.text ∉ varyingOperators) : t.IsConstPart :=
  .inr (.inr ⟨operator, other⟩)

theorem Token.not_isConstPart_of_operator (varying : t.text ∈ varyingOperators) : ¬ t.IsConstPart := by
  simp [Token.IsConstPart, isCopiedLiteral, operator, varying]

theorem Token.isTrivia_of_operator : t.isTrivia = false := by
  simp [isTrivia, operator]

theorem convertPlainOperator_tells (other : t.text ∉ varyingOperators)
    (noName : ¬ (t.isOp "@" = true ∧ StartsWithWord rest)) :
    (convertPlainOperator place frame t rest).Ensures (Flow.Tells place frame.isConst (t :: rest)) := by
  have tells : Tells frame.isConst (t :: rest) frame.isConst rest :=
    tells_single (fun _ => Token.isConstPart_of_operator operator other) noName
  unfold convertPlainOperator
  refine .ite (fun _ => .next fun _ => .pure ?_) fun _ => .pure ?_
  · simpa [Flow.Tells] using tells
  · change Tells _ _ (Frame.isConst (if paramOperators.contains t.text then _ else _)) _
    split
    · simpa using tells
    · simpa using tells

end

/-- Parentheses hold an expression of their own. -/
theorem tells_group {s : Split} {e : Expression} (opens : t.isOp "(" = true)
    (split : splitClose .parenthesis rest = some s) (tells : Tells true s.before e.isConst []) :
    Tells frame.isConst (t :: rest) (frame.isConst && e.isConst) s.after := by
  have parenthesis {t : Token} {text : String} (is : t.isOp text = true) (other : text ∉ varyingOperators)
      (noMark : text ≠ "@") : (t.isTrivia = false → t.IsConstPart) ∧ t.isOp "@" = false := by
    obtain ⟨operator, rfl⟩ := isOp_iff.1 is
    exact ⟨fun _ => Token.isConstPart_of_operator operator other, by simp [isOp, noMark]⟩
  have closes : s.found.isOp ")" = true := found_of_splitCloseAt split
  obtain ⟨opener, noMark⟩ := parenthesis opens (by decide) (by decide)
  obtain ⟨closer, noMark'⟩ := parenthesis closes (by decide) (by decide)
  obtain ⟨taken, same, inside⟩ := tells
  rw [List.append_nil] at same
  subst same
  -- A mark in front of the closing parenthesis names nothing, as it would at the end of the tokens.
  have ends : StartsWithWord (s.found :: s.after) ↔ StartsWithWord [] := by
    rw [startsWithWord_cons_iff, Token.isWord_of_isOp closes]
    exact iff_of_false (by decide) not_startsWithWord_nil
  refine ⟨t :: (s.before ++ [s.found]), by simp [eq_of_splitClose split], ?_⟩
  rw [Bool.and_eq_true, inside, ConstPrefix, constPrefix_append, List.singleton_append, constPrefix_congr ends]
  simp [ConstPrefix, noMark, noMark', eq_true opener, eq_true closer]

theorem convertGroup_tells (tells : inner.TellsConst) (opens : t.isOp "(" = true) :
    (convertGroup inner place frame t rest).Ensures (Flow.Tells place frame.isConst (t :: rest)) := by
  unfold convertGroup
  cases split : splitClose .parenthesis rest with
  | none => exact .fail _
  | some s =>
    have fills {e : Parsed Expression}
        (told : Tells true s.before e.value.isConst e.rest ∧ (Mode.group = .group → e.rest = [])) :
        Tells frame.isConst (t :: rest) (frame.isConst && e.value.isConst) s.after :=
      tells_group opens split (told.2 rfl ▸ told.1)
    refine .ite (fun _ => ?_) fun _ => ?_
    · exact .bind (tells.expression _ _) fun e told => .pure (fills told)
    · exact .bind (tells.expression _ _) fun e told => .pure (fills told)

theorem convertBraces_varies : (convertBraces inner place frame t rest).Ensures (Flow.Varies place rest) := by
  unfold convertBraces
  cases split : splitClose .brace rest with
  | none => exact .fail _
  | some s => exact .next fun e => .pure ⟨rfl, suffix_of_split (eq_of_splitClose split)⟩

theorem convertAt_tells (mark : t.isOp "@" = true) :
    (convertAt place frame t rest).Ensures (Flow.Tells place frame.isConst (t :: rest)) := by
  obtain ⟨operator, text⟩ := isOp_iff.1 mark
  have other : t.text ∉ varyingOperators := by rw [text]; decide
  unfold convertAt
  cases rest with
  | nil => exact convertPlainOperator_tells operator other fun name => not_startsWithWord_nil name.2
  | cons word after =>
    refine .ite (fun isWord => .pure ?_) fun notWord => ?_
    · -- The mark and the word are a name, which is not constant.
      refine ⟨[t, word], rfl, ?_⟩
      simp [ConstPrefix, mark, startsWithWord_cons_iff, isWord]
    · refine convertPlainOperator_tells operator other fun name => ?_
      exact notWord (startsWithWord_cons_iff.1 name.2)

end Operators

/-! ## Constructs that vary -/

section Varying

/-- A value that varies is never constant again. -/
theorem Frame.Builds.isConst {written : Bool} (varied : frame.isConst = false)
    (built : frame.Builds inner place t written frame') : frame'.isConst = false := by
  have same (closing : Token) (arms : List Arm) (frame : Frame) :
      (convertArms inner place closing frame arms).Ensures fun frame' => frame'.isConst = frame.isConst := by
    induction arms generalizing frame with
    | nil => exact .pure rfl
    | cons arm arms ih =>
      refine .bind (Q := fun frame' => frame'.isConst = frame.isConst) ?_ fun frame' same => same ▸ ih frame'
      exact .next fun _ => .next fun _ => .pure rfl
  induction built with
  | start => exact varied
  | operator _ _ ih | word _ _ ih | literal _ _ ih | keyword _ _ ih | argument _ _ ih | markSegment _ ih
  | markParams _ _ ih | opened _ ih | block _ _ ih => exact ih
  | vary => rfl
  | doubled _ _ _ _ _ ih | addInner _ _ ih => rw [isConst_addInner, ih, Bool.false_and]
  | closeTuple _ ih => rwa [isConst_closeTuple]
  | connect _ _ ih => rwa [isConst_markParams, isConst_operator, isConst_openTuple]
  | typed _ slots ih => rwa [isConst_operator, isConst_addSlots]
  | switch _ _ _ _ armed ih => exact (same _ _ _ _ _ armed).trans ih

theorem Flow.Builds.varies (tells : inner.TellsConst) (varied : frame.isConst = false)
    (builds : flow.Builds inner place t frame rest) : flow.Varies place rest := by
  have shortens : inner.Shortens := by
    intro place ts e notes done
    obtain ⟨taken, same, -⟩ := (tells.expression place ts e notes done).1
    exact ⟨taken, same.symm⟩
  cases flow with
  | next frame' rest' => exact ⟨builds.1.isConst varied, builds.2 shortens⟩
  | stop e =>
    obtain ⟨outside, suffix, frame', built, ended⟩ := builds
    refine ⟨outside, ?_, suffix shortens⟩
    rw [ended, Frame.isConst_finish]
    exact built.isConst varied

end Varying

/-! ## Keywords -/

section Keywords

theorem Token.isLiteral_iff_of_keyword (keyword : t.category = .keyword) :
    t.isLiteral = true ↔ t.text ∈ literalWords := by
  have role : t.vocabularyRole? = Sharp.keywordRole? t.text := by simp [vocabularyRole?, keyword]
  constructor
  · intro literal
    obtain ⟨kind, found, listed⟩ : ∃ kind, Sharp.keywordRole? t.text = some kind ∧
        (kind = .literal .bool ∨ kind = .literal .null) := by
      simp only [isLiteral, isCopiedLiteral, keyword, role, Bool.false_or] at literal
      split at literal
      · next found => exact ⟨_, found, .inl rfl⟩
      · next found => exact ⟨_, found, .inr rfl⟩
      · cases literal
    obtain ⟨group, first, same⟩ := Option.map_eq_some_iff.1 found
    have member : t.text ∈ group.words := by simpa using List.find?_some first
    have known : ∀ group ∈ keywordGroups, (group.role = .literal .bool ∨ group.role = .literal .null) →
        ∀ word ∈ group.words, word ∈ literalWords := by decide
    exact known group (List.mem_of_find?_eq_some first) (same ▸ listed) t.text member
  · intro listed
    have known : ∀ word ∈ literalWords,
        Sharp.keywordRole? word = some (.literal .bool) ∨ Sharp.keywordRole? word = some (.literal .null) := by decide
    rcases known t.text listed with found | found <;> simp [isLiteral, role, found]

theorem Token.isLiteral_of_context (context : t.category = .contextKeyword) : t.isLiteral = false := by
  have role : t.vocabularyRole? = contextKeywordRole? t.text := by simp [vocabularyRole?, context]
  cases found : contextKeywordRole? t.text with
  | none => simp [isLiteral, isCopiedLiteral, context, role, found]
  | some given =>
    obtain ⟨group, first, same⟩ := Option.map_eq_some_iff.1 found
    have known : ∀ group ∈ contextKeywordGroups, group.role ≠ .literal .bool ∧ group.role ≠ .literal .null := by decide
    obtain ⟨noBool, noNull⟩ := known group (List.mem_of_find?_eq_some first)
    rw [same] at noBool noNull
    simp only [isLiteral, isCopiedLiteral, context, role, found, Bool.false_or]
    split
    · next is => exact absurd (Option.some.inj is) noBool
    · next is => exact absurd (Option.some.inj is) noNull
    · rfl

theorem convertKeyword_tells (tells : inner.TellsConst)
    (keyword : t.category = .keyword ∨ t.category = .contextKeyword) :
    (convertKeyword inner place frame t rest).Ensures (Flow.Tells place frame.isConst (t :: rest)) := by
  have noMark : t.isOp "@" = false := by
    rcases keyword with keyword | keyword <;> simp [isOp, keyword]
  have significant : t.isTrivia = false := by
    rcases keyword with keyword | keyword <;> simp [isTrivia, keyword]
  have part : t.IsConstPart ↔ t.isLiteral = true := by
    rcases keyword with keyword | context
    · rw [Token.isLiteral_iff_of_keyword keyword]
      simp [Token.IsConstPart, isCopiedLiteral, keyword]
    · simp [Token.IsConstPart, isCopiedLiteral, context, Token.isLiteral_of_context context]
  by_cases literal : t.isLiteral = true
  · rw [convertKeyword, if_pos literal]
    exact .pure (tells_single (fun _ => part.2 literal) (by simp [noMark]))
  · intro flow notes done
    have builds := convertKeyword_builds keyword (by simpa using literal) flow notes done
    exact tells_of_varies significant (mt part.1 literal) (builds.varies tells Frame.isConst_vary)

end Keywords

/-! ## Whole expressions -/

section Expressions

theorem convertOperator_tells (tells : inner.TellsConst) (operator : t.category = .operator) :
    (convertOperator inner place frame t rest).Ensures (Flow.Tells place frame.isConst (t :: rest)) := by
  have is {text : String} (same : t.text = text) : t.isOp text = true := isOp_iff.2 ⟨operator, same⟩
  have varies {text : String} {x : Reading Flow} (same : t.text = text) (listed : text ∈ varyingOperators)
      (varies : x.Ensures (Flow.Varies place rest)) : x.Ensures (Flow.Tells place frame.isConst (t :: rest)) := by
    have varying : ¬ t.IsConstPart := Token.not_isConstPart_of_operator operator (same ▸ listed)
    exact fun flow log done => tells_of_varies (Token.isTrivia_of_operator operator) varying (varies flow log done)
  have builds {x : Reading Flow} (builds : x.Ensures (Flow.Builds inner place t frame.vary rest)) :
      x.Ensures (Flow.Varies place rest) :=
    fun flow log done => (builds flow log done).varies tells Frame.isConst_vary
  have stops (outside : place.mode ≠ .group) :
      Flow.Tells place frame.isConst (t :: rest) (frame.stopAt place (t :: rest)) :=
    ⟨outside, by simpa [Frame.stopAt] using Tells.refl frame.isConst (t :: rest)⟩
  unfold convertOperator
  split
  case h_1 text => exact .ite (fun _ => .fail _) fun outside => .pure (stops outside)
  case h_2 text =>
    refine .ite (fun args => .pure (stops (by simp [args]))) fun _ => .pure ?_
    have part : t.IsConstPart := Token.isConstPart_of_operator operator (by rw [text]; decide)
    have same : (convertComma place frame rest).isConst = frame.isConst := by
      unfold convertComma
      dsimp only
      split <;> simp
    rw [Flow.Tells, same]
    exact tells_single (fun _ => part) (by simp [isOp, text])
  case h_3 text => exact convertGroup_tells tells (is text)
  case h_4 text => exact varies text (by decide) convertBraces_varies
  case h_5 => exact .fail _
  case h_6 => exact .fail _
  case h_7 text => exact varies text (by decide) (builds convertIndexer_builds)
  case h_8 text => exact varies text (by decide) (builds convertConnector_builds)
  case h_9 text => exact varies text (by decide) (builds convertLambda_builds)
  case h_10 text => exact convertAt_tells (is text)
  case h_11 _ _ _ noBrace _ noBrace' noIndex noTuple noLambda noMark =>
    refine convertPlainOperator_tells operator ?_ fun name => noMark (isOp_iff.1 name.1).2
    simp only [varyingOperators, List.mem_cons, List.not_mem_nil, or_false, not_or]
    exact ⟨noIndex, noTuple, noLambda, noBrace, noBrace'⟩

theorem convertToken_tells (tells : inner.TellsConst) :
    (convertToken inner place frame t rest).Ensures (Flow.Tells place frame.isConst (t :: rest)) := by
  unfold convertToken
  cases category : t.category with
  | lineBreak | space | comment =>
    exact .pure (tells_single (by simp [isTrivia, category]) (by simp [isOp, category]))
  | operator => exact convertOperator_tells tells category
  | keyword => exact convertKeyword_tells tells (.inl category)
  | contextKeyword => exact convertKeyword_tells tells (.inr category)
  | identifier =>
    refine .pure (tells_of_varies (by simp [isTrivia, category]) ?_ ⟨rfl, List.suffix_rfl⟩)
    simp [Token.IsConstPart, isCopiedLiteral, category]
  | stringLiteral | rawStringLiteral | charLiteral | numberLiteral =>
    have literal : t.isCopiedLiteral = true := by simp [isCopiedLiteral, category]
    exact .pure (tells_single (fun _ => .inl literal) (by simp [isOp, category]))

/-- An expression is constant exactly if the tokens that it takes are, if that holds for what it contains. -/
theorem convertExpression_tells (tells : inner.TellsConst) (ts : List Token) :
    (convertExpression inner place ts).Ensures fun e =>
      Tells true ts e.value.isConst e.rest ∧ (place.mode = .group → e.rest = []) := by
  unfold convertExpression
  refine .walk_tokens (fun frame rest => Tells true ts frame.isConst rest) (fun frame t rest before => ?_)
    (fun frame before => .pure ⟨by simpa using before, fun _ => rfl⟩) (.refl true ts)
  intro flow log done
  have round := convertToken_tells tells flow log done
  cases flow with
  | next frame' rest' => exact before.trans round
  | stop e => exact ⟨before.trans round.2, fun inside => absurd inside round.1⟩

theorem tellsConst (rank : Nat) : (standard.converters rank).TellsConst := by
  induction rank using Nat.strongRecOn with
  | ind rank ih =>
    intro place t rest
    rw [converters]
    exact .ite (fun below => convertExpression_tells (ih _ below) (t :: rest)) fun _ => .fail _

end Expressions

/-! ## Right sides and declarations -/

section RightSides

variable {scope : Scope} {before : Token}

theorem convertRightSide_tells (tells : inner.TellsConst) :
    (convertRightSide inner scope before ts).Ensures fun value => ∃ used semicolon,
      ts = used ++ semicolon :: value.rest ∧ semicolon.isOp ";" = true ∧
        (value.value = true ↔ ConstTokens used) := by
  unfold convertRightSide
  refine .bind (.ofReading (tells.expression _ ts)) fun e told => ?_
  obtain ⟨used, same, isConst⟩ := told.1
  cases ends : e.rest with
  | nil => exact .fail _
  | cons semicolon rest =>
    rw [ends] at same isConst
    refine .ite (fun _ => .fail _) fun isSemicolon => .ite (fun _ => .fail _) fun _ => .next fun _ => .pure ?_
    have isSemicolon : semicolon.isOp ";" = true := by simpa using isSemicolon
    have noWord : ¬ StartsWithWord (semicolon :: rest) := by
      rw [startsWithWord_cons_iff, Token.isWord_of_isOp isSemicolon]
      decide
    refine ⟨used, semicolon, same, isSemicolon, ?_⟩
    rw [isConst, constPrefix_iff noWord]
    exact and_iff_right rfl

/-- A constant is declared with a constant expression. -/
theorem convertVariable_constTokens (tells : inner.TellsConst) (pending : Modifiers) :
    (convertVariable inner .constant scope pending t rest).Ensures fun after => ∃ s used semicolon,
      splitTop (fun t => t.isAssignment || t.isOp ";") rest = some s ∧ s.found.isOp "=" = true ∧
        s.after = used ++ semicolon :: after ∧ semicolon.isOp ";" = true ∧ ConstTokens used := by
  unfold convertVariable
  refine .next fun _ => ?_
  cases split : splitTop (fun t => t.isAssignment || t.isOp ";") rest with
  | none => exact .next fun _ => .fail _
  | some s =>
    refine .next fun header => .ite (fun _ => .fail _) fun _ => .next fun type => .ite (fun _ => ?_) fun hasValue => ?_
    · exact .ite (fun _ => .fail _) fun other => absurd rfl other
    · refine .next fun _ => .next fun _ => .bind (convertRightSide_tells tells) fun value told => ?_
      obtain ⟨used, semicolon, same, isSemicolon, isConst⟩ := told
      refine .ite (fun _ => .fail _) fun constant => .pure ⟨s, used, semicolon, rfl, ?_, same, isSemicolon, ?_⟩
      · simpa using hasValue
      · exact isConst.1 (by simpa using constant)

end RightSides

/-- A right side is constant exactly if it consists of literals and of operators that combine them, and so does
what a constant is declared with. -/
theorem convertRightSide_isConst_iff :
    (∀ (rank : Nat) (scope : Scope) (before : Token) (ts : List Token) (value : Parsed Bool) (output : Output),
      convertRightSide (standard.converters rank) scope before ts = .done value output →
      ∃ used semicolon, ts = used ++ semicolon :: value.rest ∧ semicolon.isOp ";" = true ∧
        (value.value = true ↔ ConstTokens used)) ∧
    ∀ (rank : Nat) (scope : Scope) (pending : Modifiers) (t : Token) (rest after : List Token) (output : Output),
      convertVariable (standard.converters rank) .constant scope pending t rest = .done after output →
      ∃ s used semicolon, splitTop (fun t => t.isAssignment || t.isOp ";") rest = some s ∧
        s.found.isOp "=" = true ∧ s.after = used ++ semicolon :: after ∧ semicolon.isOp ";" = true ∧
        ConstTokens used :=
  ⟨fun rank _ _ _ value output => convertRightSide_tells (tellsConst rank) value output,
    fun rank _ pending _ _ after output => convertVariable_constTokens (tellsConst rank) pending after output⟩

/-- Signs and parentheses leave a value constant, and `@` before a word does not. -/
theorem convertRightSide_isConst_iff_mark :
    let before : Token := ⟨0, "", 0, 0, .space, none⟩
    (∃ tokens value output used semicolon, tokenize "-(1 + (2)) * 'a';" = .ok tokens ∧
      convertRightSide (standard.converters 100) .root before tokens = .done value output ∧
      tokens = used ++ semicolon :: value.rest ∧ ConstTokens used) ∧
    (∃ tokens value output used semicolon, tokenize "(1 + @null);" = .ok tokens ∧
      convertRightSide (standard.converters 100) .root before tokens = .done value output ∧
      tokens = used ++ semicolon :: value.rest ∧ ¬ ConstTokens used) ∧
    ∃ tokens t after output s used semicolon, tokenize "const X: int = (1 + 2) * -3;" = .ok (t :: tokens) ∧
      convertVariable (standard.converters 100) .constant .root {} t tokens = .done after output ∧
      splitTop (fun t => t.isAssignment || t.isOp ";") tokens = some s ∧ s.after = used ++ semicolon :: after ∧
      ConstTokens used := by
  intro before
  let inner := standard.converters 100
  obtain ⟨rightSides, constants⟩ := convertRightSide_isConst_iff
  refine ⟨?_, ?_, ?_⟩
  · let tokens := (tokenize "-(1 + (2)) * 'a';").toOption.getD []
    have read : tokenize "-(1 + (2)) * 'a';" = .ok tokens := by decide +kernel +zetaReduce
    have evaluated : (convertRightSide inner .root before tokens).toExcept.toOption.map Parsed.value = some true := by
      decide +kernel +zetaReduce
    obtain ⟨value, output, done, isConst⟩ := Logged.exists_done evaluated
    obtain ⟨used, semicolon, same, -, tells⟩ := rightSides _ _ _ _ _ _ done
    exact ⟨tokens, value, output, used, semicolon, read, done, same, tells.1 isConst⟩
  · let tokens := (tokenize "(1 + @null);").toOption.getD []
    have read : tokenize "(1 + @null);" = .ok tokens := by decide +kernel +zetaReduce
    have evaluated : (convertRightSide inner .root before tokens).toExcept.toOption.map Parsed.value = some false := by
      decide +kernel +zetaReduce
    obtain ⟨value, output, done, varies⟩ := Logged.exists_done evaluated
    obtain ⟨used, semicolon, same, -, tells⟩ := rightSides _ _ _ _ _ _ done
    refine ⟨tokens, value, output, used, semicolon, read, done, same, fun constant => ?_⟩
    rw [tells.2 constant] at varies
    cases varies
  · let tokens := (tokenize "const X: int = (1 + 2) * -3;").toOption.getD []
    let first : Token := tokens.getD 0 before
    have read : tokenize "const X: int = (1 + 2) * -3;" = .ok (first :: tokens.drop 1) := by decide +kernel +zetaReduce
    have evaluated : (convertVariable inner .constant .root {} first (tokens.drop 1)).toExcept.toOption.map
        List.length = some 0 := by decide +kernel +zetaReduce
    obtain ⟨after, output, done, -⟩ := Logged.exists_done evaluated
    obtain ⟨s, used, semicolon, split, -, same, -, constant⟩ := constants _ _ _ _ _ _ _ done
    exact ⟨tokens.drop 1, first, after, output, s, used, semicolon, read, done, split, same, constant⟩

end Sharp
