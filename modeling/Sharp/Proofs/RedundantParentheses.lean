import Sharp.Proofs.Tuples

/-!
# Redundant parentheses

Parentheses around nothing but other parentheses are left out, so any number of pairs around an
expression comes to what one pair does.  The pairs left out still tell the expression which token comes
after it, but that shows only in where a fault is found.

* `convertRightSide_parenthesized`: one pair is as good as many.
-/

namespace Sharp

variable {n : Nat} {inner : Converters} {place : Place} {frame : Frame} {rest ts group : List Token}

/-! ## Faults with one cause -/

/-- The computations have the same result, or they fail for the same cause, maybe at other tokens. -/
inductive Logged.Resembles {ω α : Type} : Logged ω α → Logged ω α → Prop where
  | same (x : Logged ω α) : Resembles x x
  | fails {fault fault' : Fault} (cause : fault.cause = fault'.cause) : Resembles (.fail fault) (.fail fault')

namespace Logged.Resembles

variable {ω σ α β : Type}

theorem ite {c : Prop} [Decidable c] {x y x' y' : Logged ω α} (yes : Resembles x y)
    (no : Resembles x' y') : Resembles (if c then x else x') (if c then y else y') := by
  by_cases holds : c
  · simpa only [if_pos holds] using yes
  · simpa only [if_neg holds] using no

theorem ofReading {x y : Reading α} (resembles : Resembles x y) : Resembles (liftM x : Draft α) (liftM y) := by
  cases resembles with
  | same => exact .same _
  | fails cause => exact .fails cause

variable [Log ω]

theorem after {x y : Logged ω α} (resembles : Resembles x y) (u : ω) : Resembles (x.after u) (y.after u) := by
  cases resembles with
  | same => exact .same _
  | fails cause => exact .fails cause

theorem bind {x y : Logged ω α} {f g : α → Logged ω β} (first : Resembles x y)
    (second : ∀ a, Resembles (f a) (g a)) : Resembles (x >>= f) (y >>= g) := by
  cases first with
  | fails cause => exact .fails cause
  | same =>
    cases x with
    | fail fault => exact .same _
    | done a u => exact (second a).after u

theorem walk {round round' : σ → Token → List Token → Logged ω (Step σ α)} {finish finish' : σ → Logged ω α}
    (rounds : ∀ state t rest, Resembles (round state t rest) (round' state t rest))
    (ends : ∀ state, Resembles (finish state) (finish' state)) (state : σ) (ts : List Token) :
    Resembles (Sharp.walk round finish state ts) (Sharp.walk round' finish' state ts) := by
  induction state, ts using walk.induct with
  | case1 state =>
    rw [walk_nil, walk_nil]
    exact ends state
  | case2 state t rest ih =>
    rw [walk_cons, walk_cons]
    refine .bind (rounds state t rest) fun step => ?_
    cases step with
    | stop a => exact .same _
    | next state' rest' =>
      by_cases shorter : rest'.length < (t :: rest).length
      · simp only [if_pos shorter]
        exact ih state' rest' shorter
      · simp only [if_neg shorter]
        exact .same _

end Logged.Resembles

open Logged (Resembles)

/-! ## The token after an expression -/

/-- The token after an expression matters to the converters only for where a fault is. -/
def Converters.FenceBlind (inner : Converters) : Prop :=
  ∀ place fence t rest, Resembles (inner.expressionFrom place t rest)
    (inner.expressionFrom { place with fence } t rest)

section Fences

variable {t : Token}

theorem ArgumentKind.cause_missing (kind : ArgumentKind) (fence : Option Token) (before : Token)
    (next : Option Token) :
    (kind.missing place before next).cause = (kind.missing { place with fence } before next).cause := by
  cases kind with
  | type keyword => rfl
  | expression => rfl

section

variable (fence : Option Token)

theorem Frame.addSlots_fence (slots : List Slot) (frame : Frame) :
    frame.addSlots { place with fence } slots = frame.addSlots place slots := by
  induction slots generalizing frame with
  | nil => rfl
  | cons slot slots ih =>
    cases slots with
    | nil => rfl
    | cons next slots => exact ih _

theorem convertArms_fence (closing : Token) (arms : List Arm) (frame : Frame) :
    convertArms inner { place with fence } closing frame arms =
      convertArms inner place closing frame arms := by
  induction arms generalizing frame with
  | nil => rfl
  | cons arm arms ih => exact bind_congr fun frame => ih frame

theorem convertLambda_fence :
    convertLambda inner { place with fence } frame t rest = convertLambda inner place frame t rest := by
  have params (frame : Frame) (head : Token) (more : List Token) :
      convertParams { place with fence } frame head more = convertParams place frame head more := by
    simp only [convertParams, Frame.addSlots_fence]
    rfl
  simp only [convertLambda, params]
  rfl

theorem convertSwitchExpression_fence :
    convertSwitchExpression inner { place with fence } frame t rest =
      convertSwitchExpression inner place frame t rest := by
  simp only [convertSwitchExpression, convertArms_fence]
  rfl

end

section

variable (blind : inner.FenceBlind) (fence : Option Token)
include blind

theorem convertArguments_resembles (kind : ArgumentKind) (closer : String) (before : Token) :
    Resembles (convertArguments inner kind closer place frame before ts)
      (convertArguments inner kind closer { place with fence } frame before ts) := by
  refine .walk (fun state first more => ?_) (fun state => .fails (kind.cause_missing fence _ _)) _ _
  refine .bind ?_ fun arg => .same _
  cases kind with
  | type keyword => exact .same _
  | expression =>
    refine .bind (blind _ fence first more) fun arg => ?_
    exact .ite (.fails (ArgumentKind.cause_missing .expression fence _ _)) (.same _)

theorem convertOperator_resembles : Resembles (convertOperator inner place frame t rest)
      (convertOperator inner { place with fence } frame t rest) := by
  unfold convertOperator
  split
  any_goals exact .same _
  · refine .bind (.same _) fun _ => ?_
    cases emptyParens? rest with
    | some opening => exact .same _
    | none => exact .ite (.same _) (convertArguments_resembles blind fence _ _ _)
  · rw [convertLambda_fence fence]
    exact .same _

theorem convertKeyword_resembles : Resembles (convertKeyword inner place frame t rest)
      (convertKeyword inner { place with fence } frame t rest) := by
  unfold convertKeyword
  refine .ite (.same _) (.ite (.same _) (.ite ?_ ?_))
  · unfold convertMethodKeyword
    refine .ite (.same _) (.ite (.same _) (.bind (.same _) fun _ => ?_))
    exact convertArguments_resembles blind fence _ _ _
  · split
    any_goals exact .same _
    rw [convertSwitchExpression_fence fence]
    exact .same _

theorem convertExpression_resembles (ts : List Token) :
    Resembles (convertExpression inner place ts) (convertExpression inner { place with fence } ts) := by
  refine .walk (fun frame t rest => ?_) (fun frame => .same _) _ _
  unfold convertToken
  split
  any_goals exact .same _
  · exact convertOperator_resembles blind fence
  all_goals exact convertKeyword_resembles blind fence

end

end Fences

open Layers

theorem converters_fenceBlind (rank : Nat) : (standard.converters rank).FenceBlind := by
  induction rank using Nat.strong_induction_on with
  | _ rank ih =>
    intro place fence t rest
    rw [converters]
    by_cases below : expressionRank rest.length < rank
    · simp only [if_pos below]
      exact convertExpression_resembles (ih _ below) fence (t :: rest)
    · simp only [if_neg below]
      exact .same _

theorem all_fenceBlind : standard.all.FenceBlind :=
  fun _ fence t rest => convertExpression_resembles (converters_fenceBlind _) fence (t :: rest)

/-! ## Groups -/

section Groups

variable {opening closing : Token} {scope : Scope} {afterOperand : Bool}

theorem walk_group_append {finish : Frame → Reading (Parsed Expression)} (bracketed : WellBracketed ts)
    (opens : opening.isOp "(" = true) (closes : closing.isOp ")" = true) (frame : Frame)
    (rest : List Token) :
    walk (convertToken inner place) finish frame (opening :: (ts ++ closing :: rest)) =
      groupedExpression inner place.scope (frame.endsOperand place) closing ts >>= fun e =>
        walk (convertToken inner place) finish (frame.addInner e) rest := by
  rw [walk_cons, convertToken_group bracketed opens closes, bind_assoc]
  refine bind_congr fun e => ?_
  rw [pure_bind]
  refine if_pos ?_
  simp only [List.length_cons, List.length_append]
  omega

theorem groupedExpression_converters (short : ts.length ≤ n) :
    groupedExpression (standard.converters (expressionRank n)) scope afterOperand closing ts =
      groupedExpression standard.all scope afterOperand closing ts := by
  simp only [groupedExpression, converters_expression_of_length short]

theorem all_expression (place : Place) (ts : List Token) : standard.all.expression place ts =
      convertExpression (standard.converters (expressionRank (ts.length - 1))) place ts := by
  cases ts with
  | nil =>
    rw [convertExpression, walk_nil]
    rfl
  | cons t rest => rfl

theorem groupedExpression_resembles (ts : List Token) (closing closing' : Token) :
    Resembles (groupedExpression standard.all scope afterOperand closing ts)
      (groupedExpression standard.all scope afterOperand closing' ts) := by
  have blind (place : Place) : Resembles (standard.all.expression place ts)
      (standard.all.expression { place with fence := some closing' } ts) := by
    cases ts with
    | nil => exact .same _
    | cons t rest => exact all_fenceBlind place (some closing') t rest
  exact .ite (.bind (blind _) fun _ => .same _) (.bind (blind _) fun _ => .same _)

theorem Groups.isDoubled (bracketed : WellBracketed ts) (untupled : hasTop (·.isOp "~") ts = false)
    (grouped : Groups ts group) : isDoubled group = true := by
  obtain ⟨front, opening, closing, back, rfl, blank, opens, closes, blank'⟩ := grouped
  have meaning : opening.isTrivia = false :=
    Bool.eq_false_iff.2 fun trivia => by simp [Token.isOp_of_isTrivia trivia] at opens
  have starts : skipTrivia (front ++ opening :: (ts ++ closing :: back)) =
      opening :: (ts ++ closing :: back) := by
    rw [skipTrivia, List.dropWhile_append_of_pos blank]
    simp [meaning]
  have nothing : significant back = [] := by
    simpa [significant] using blank'
  have split : splitClose .parenthesis (ts ++ closing :: back) = some ⟨ts, closing, back⟩ :=
    bracketed.splitClose_append closes back
  simp [Sharp.isDoubled, starts, opens, split, nothing, holdsOneTuple, untupled]

/-- Parentheses around a group, which is no tuple's, come to what the group does. -/
theorem groupedExpression_groups (bracketed : WellBracketed ts)
    (untupled : hasTop (·.isOp "~") ts = false) (grouped : Groups ts group) :
    ∃ closing, ∀ scope afterOperand fence, groupedExpression standard.all scope afterOperand fence group =
        groupedExpression standard.all scope afterOperand closing ts := by
  have doubled := grouped.isDoubled bracketed untupled
  obtain ⟨front, opening, closing, back, rfl, blank, opens, closes, blank'⟩ := grouped
  refine ⟨closing, fun scope afterOperand fence => ?_⟩
  have short : ts.length ≤ (front ++ opening :: (ts ++ closing :: back)).length - 1 := by
    simp only [List.length_append, List.length_cons]
    omega
  rw [groupedExpression, if_pos doubled, all_expression, convertExpression, walk_trivia_append blank,
    walk_group_append bracketed opens closes, groupedExpression_converters short, bind_assoc]
  refine (bind_congr fun e => ?_).trans (bind_pure _)
  rw [← List.append_nil back, walk_trivia_append blank', walk_nil, pure_bind]
  simp [Frame.finish, Frame.closeTuple, Frame.addInner, Frame.append, Frame.start]

end Groups

/-! ## Many parentheses -/

/-- The tokens `group` are `ts` in `n` pairs of parentheses, with blanks and comments around each pair. -/
inductive Parenthesized (ts : List Token) : Nat → List Token → Prop where
  | bare : Parenthesized ts 0 ts
  | pair {n : Nat} {inside group : List Token} (within : Parenthesized ts n inside)
      (grouped : Groups inside group) : Parenthesized ts (n + 1) group

section Parenthesized

theorem Groups.wellBracketed (bracketed : WellBracketed ts) (grouped : Groups ts group) : WellBracketed group := by
  obtain ⟨front, opening, closing, back, rfl, blank, opens, closes, blank'⟩ := grouped
  refine .append (.of_plain fun t member => Token.plain_of_isTrivia (blank t member)) ?_
  exact .group .parenthesis opens bracketed closes
    (.of_plain fun t member => Token.plain_of_isTrivia (blank' t member))

/-- Outside all brackets there is no `~` in any of the groups. -/
theorem Parenthesized.untupled (bracketed : WellBracketed ts) (untupled : hasTop (·.isOp "~") ts = false)
    (within : Parenthesized ts n group) :
    WellBracketed group ∧ hasTop (·.isOp "~") group = false := by
  induction within with
  | bare => exact ⟨bracketed, untupled⟩
  | pair _ grouped ih =>
    have closed := grouped.wellBracketed ih.1
    exact ⟨closed, hasTop_of_isDoubled closed (grouped.isDoubled ih.1 ih.2)⟩

/-- Parentheses around parentheses come to one pair. -/
theorem Parenthesized.groupedExpression_resembles (bracketed : WellBracketed ts)
    (untupled : hasTop (·.isOp "~") ts = false) (within : Parenthesized ts n group) (scope : Scope)
    (afterOperand : Bool) (closing closing' : Token) :
    Resembles (groupedExpression standard.all scope afterOperand closing group)
      (groupedExpression standard.all scope afterOperand closing' ts) := by
  induction within generalizing closing with
  | bare => exact Sharp.groupedExpression_resembles ts closing closing'
  | pair within grouped ih =>
    obtain ⟨closed, alone⟩ := within.untupled bracketed untupled
    obtain ⟨innerClosing, same⟩ := groupedExpression_groups closed alone grouped
    rw [same]
    exact ih innerClosing

end Parenthesized

/-! ## Assignments -/

section Assignment

variable {x equals semicolon : Token} {gap group' : List Token}

/-- Where a group is assigned to a name, only what is in the group is still to be converted. -/
theorem expression_assigned_group (isName : x.category = .identifier)
    (blank : ∀ t ∈ gap, t.isTrivia = true) (isEquals : equals.isOp "=" = true)
    (ends : semicolon.isOp ";" = true) (bracketed : WellBracketed ts) (grouped : Groups ts group)
    (scope : Scope) (after : List Token) :
    ∃ closing, standard.all.expression { mode := .statement, scope }
        (x :: (gap ++ equals :: (group ++ semicolon :: after))) = (do
      note equals (.operator .assignment)
      let e ← groupedExpression standard.all scope false closing ts
      return ⟨⟨.word x.text :: .code "=" .binary :: e.pieces, false⟩, semicolon :: after⟩) := by
  obtain ⟨front, opening, closing, back, rfl, blank', opens, closes, blank''⟩ := grouped
  refine ⟨closing, ?_⟩
  simp only [List.append_assoc, List.cons_append]
  rw [all_expression, convertExpression, walk_assigned isName blank isEquals]
  refine bind_congr fun _ => ?_
  rw [walk_trivia_append blank', walk_group_append bracketed opens closes, groupedExpression_converters]
  · refine bind_congr fun e => ?_
    rw [walk_trivia_append blank'', walk_cons, convertToken_semicolon ends rfl]
    rfl
  · simp only [List.length_append, List.length_cons]
    omega

/-- Whatever is assigned to a name and is no tuple may stand in any number of parentheses: it comes to
what one pair does, be it the same pieces or a fault with the same cause. -/
theorem convertRightSide_parenthesized (isName : x.category = .identifier)
    (blank : ∀ t ∈ gap, t.isTrivia = true) (isEquals : equals.isOp "=" = true)
    (ends : semicolon.isOp ";" = true) (bracketed : WellBracketed ts)
    (untupled : hasTop (·.isOp "~") ts = false) (positive : 1 ≤ n) (many : Parenthesized ts n group)
    (one : Parenthesized ts 1 group') (scope : Scope) (before : Token) (after : List Token) :
    Resembles (convertRightSide standard.all scope before (x :: (gap ++ equals :: (group ++ semicolon :: after))))
      (convertRightSide standard.all scope before (x :: (gap ++ equals :: (group' ++ semicolon :: after)))) := by
  obtain _ | ⟨within, grouped⟩ := many
  · omega
  obtain _ | ⟨last, grouped'⟩ := one
  cases last
  have bracketed' := (within.untupled bracketed untupled).1
  obtain ⟨closing, converted⟩ := expression_assigned_group isName blank isEquals ends bracketed' grouped scope after
  obtain ⟨closing', converted'⟩ := expression_assigned_group isName blank isEquals ends bracketed grouped'
    scope after
  have resembles := within.groupedExpression_resembles bracketed untupled scope false closing closing'
  unfold convertRightSide
  rw [converted, converted']
  refine .bind (.ofReading (.bind (.same _) fun _ => .bind resembles fun _ => .same _)) fun e => ?_
  cases e.rest with
  | nil => exact .fails rfl
  | cons semicolon rest => exact .ite (.fails rfl) (.same _)

end Assignment

theorem convertRightSide_parenthesized_call : ∃ tokens x equals semicolon ts group group',
      tokenize "x=( ((f(a~b))) );" = .ok tokens ∧ tokens = x :: ([] ++ equals :: (group ++ semicolon :: [])) ∧
      x.category = .identifier ∧ equals.isOp "=" = true ∧ semicolon.isOp ";" = true ∧
      WellBracketed ts ∧ hasTop (·.isOp "~") ts = false ∧ Parenthesized ts 3 group ∧
      Parenthesized ts 1 group' ∧
      Resembles (convertRightSide standard.all .root x (x :: ([] ++ equals :: (group ++ semicolon :: []))))
        (convertRightSide standard.all .root x (x :: ([] ++ equals :: (group' ++ semicolon :: [])))) := by
  let tokens := (tokenize "x=( ((f(a~b))) );").toOption.getD []
  let token (i : Nat) : Token := tokens.getD i ⟨0, "", 0, 0, .space, none⟩
  let ts := (tokens.drop 6).take 6
  let group' := [] ++ token 5 :: (ts ++ token 12 :: [])
  let middle := [token 3] ++ token 4 :: (group' ++ token 13 :: [token 14])
  let group := [] ++ token 2 :: (middle ++ token 15 :: [])
  obtain ⟨read, parts, isName, isEquals, ends, bracketed, untupled⟩ : tokenize "x=( ((f(a~b))) );" = .ok tokens ∧
      tokens = token 0 :: ([] ++ token 1 :: (group ++ token 16 :: [])) ∧
      (token 0).category = .identifier ∧ (token 1).isOp "=" = true ∧ (token 16).isOp ";" = true ∧
      WellBracketed ts ∧ hasTop (·.isOp "~") ts = false := by
    decide +kernel +zetaReduce
  have none : ∀ t ∈ ([] : List Token), t.isTrivia = true := List.forall_mem_nil _
  have one : Parenthesized ts 1 group' := .pair .bare ⟨_, _, _, _, rfl, by decide +kernel +zetaReduce⟩
  have two : Parenthesized ts 2 middle := one.pair ⟨_, _, _, _, rfl, by decide +kernel +zetaReduce⟩
  have three : Parenthesized ts 3 group := two.pair ⟨_, _, _, _, rfl, by decide +kernel +zetaReduce⟩
  exact ⟨tokens, _, _, _, ts, group, group', read, parts, isName, isEquals, ends, bracketed, untupled, three,
    one, convertRightSide_parenthesized isName none isEquals ends bracketed untupled (by decide) three one
      .root _ []⟩

end Sharp
