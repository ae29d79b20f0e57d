import Sharp.Proofs.Termination

/-!
# What converters ask for

A converter is given the converters for what is inside its tokens.  Two of those that agree on what it
asks for lead it to the same result, so what it asks for can be told from where they have to agree.

* `convertExpression_alike`, `convertStatement_alike`, `convertBlock_alike`: nothing else is asked for.
-/

namespace Sharp

variable {scope' scope : Scope} {inner inner' : Converters} {t : Token} {rest ts : List Token}

/-! ## Computations -/

/-- In what two computations may differ: in their faults, or in that the second one refuses its tokens. -/
structure Leeway where
  faults : Prop
  refusals : Prop

def Leeway.none : Leeway :=
  ⟨False, False⟩

/-- The computations have the same result, or differ only within the leeway. -/
inductive Logged.Alike {ω α : Type} (leeway : Leeway) : Logged ω α → Logged ω α → Prop where
  | same (x : Logged ω α) : Alike leeway x x
  | fails (h : leeway.faults) (fault fault' : Fault) : Alike leeway (.fail fault) (.fail fault')
  | refuses (h : leeway.refusals) (x : Logged ω α) (t : Token) : Alike leeway x (.fail (.outside t))

namespace Logged.Alike

variable {ω : Type} {σ α β : Type} {leeway : Leeway}

theorem eq {x y : Logged ω α} (alike : Alike .none x y) : x = y := by
  cases alike with
  | same => rfl
  | fails h | refuses h => exact h.elim

theorem ite {c : Prop} [Decidable c] {x y x' y' : Logged ω α} (yes : c → Alike leeway x y)
    (no : ¬ c → Alike leeway x' y') :
    Alike leeway (if c then x else x') (if c then y else y') := by
  by_cases holds : c
  · simpa only [if_pos holds] using yes holds
  · simpa only [if_neg holds] using no holds

theorem map {ω' : Type} {f : Logged ω α → Logged ω' β} {x y : Logged ω α} (alike : Alike leeway x y)
    (fails : ∀ fault, f (.fail fault) = .fail fault) : Alike leeway (f x) (f y) := by
  cases alike with
  | same => exact .same _
  | fails h fault fault' =>
    rw [fails, fails]
    exact .fails h fault fault'
  | refuses h x t =>
    rw [fails]
    exact .refuses h _ t

variable [Log ω]

theorem after {x y : Logged ω α} (alike : Alike leeway x y) (u : ω) : Alike leeway (x.after u) (y.after u) :=
  alike.map (f := Logged.after u) fun _ => rfl

theorem bind {x y : Logged ω α} {f g : α → Logged ω β} (first : Alike leeway x y)
    (second : ∀ a, Alike leeway (f a) (g a)) : Alike leeway (x >>= f) (y >>= g) := by
  cases first with
  | fails h fault fault' => exact .fails h fault fault'
  | refuses h x t => exact .refuses h _ t
  | same =>
    cases x with
    | fail fault => exact .same _
    | done a u => exact (second a).after u

theorem next {x : Logged ω α} {f g : α → Logged ω β} (second : ∀ a, Alike leeway (f a) (g a)) :
    Alike leeway (x >>= f) (x >>= g) :=
  bind (.same x) second

theorem ofReading {x y : Reading α} (alike : Alike leeway x y) : Alike leeway (liftM x : Draft α) (liftM y) :=
  alike.map (f := liftM) fun _ => rfl

theorem capture {x y : Draft Unit} (alike : Alike leeway x y) : Alike leeway x.capture y.capture :=
  alike.map (f := Draft.capture) fun _ => rfl

/-- Walks are alike if their rounds are, wherever the first walk comes. -/
theorem walk {round round' : σ → Token → List Token → Logged ω (Step σ α)} {finish : σ → Logged ω α}
    (state : σ) (ts : List Token)
    (rounds : ∀ state' t rest, Walks round state ts state' (t :: rest) →
      Alike leeway (round state' t rest) (round' state' t rest)) :
    Alike leeway (Sharp.walk round finish state ts) (Sharp.walk round' finish state ts) := by
  induction state, ts using walk.induct with
  | case1 state =>
    simp only [walk_nil]
    exact .same _
  | case2 state t rest ih =>
    have first := rounds state t rest .refl
    rw [walk_cons, walk_cons]
    generalize reached : round state t rest = x at first
    generalize round' state t rest = y at first
    cases first with
    | fails h fault fault' => exact .fails h fault fault'
    | refuses h x t => exact .refuses h _ t
    | same =>
      cases x with
      | fail fault => exact .same _
      | done step u =>
        cases step with
        | stop a => exact .same _
        | next state' rest' =>
          refine .after (.ite (fun shorter => ?_) fun _ => .same _) u
          exact ih state' rest' shorter fun state'' t' more went => rounds state'' t' more (.next reached went)

end Logged.Alike

open Logged (Alike)

/-! ## Tasks -/

deriving instance DecidableEq for Place

/-- Something to convert, from its first token `t` on. -/
inductive Task where
  | expression (place : Place) (t : Token) (rest : List Token)
  | statement (scope : Scope) (pending : Modifiers) (t : Token) (rest : List Token)
  | block (scope : Scope) (t : Token) (rest : List Token)
  deriving DecidableEq

namespace Task

def Log : Task → Type
  | expression .. => List Note
  | statement .. | block .. => Output

def Value : Task → Type
  | expression .. => Parsed Expression
  | statement .. => Parsed Statement
  | block .. => Unit

/-- What stands in a scope: expressions there or in functions, and the bodies of functions. -/
def Within (scope : Scope) : Task → Prop
  | expression place _ _ => place.scope = scope ∨ place.scope.isFn = true
  | statement scope' _ _ _ => scope'.isFn = true
  | block scope' _ _ => scope'.isFn = true

/-- What stands in a statement that is no declaration: expressions in its scope, and bodies that yield if the
statement does. -/
def InPlain (scope : Scope) : Task → Prop
  | expression place _ _ => place.scope = scope
  | statement scope' _ _ _ | block scope' _ _ => scope'.isFn = true ∧ scope'.yields = scope.yields

theorem InPlain.within {task : Task} (inside : task.InPlain scope) : task.Within scope := by
  cases task with
  | expression place t rest => exact .inl inside
  | statement scope' pending t rest | block scope' t rest => exact inside.1

end Task

/-- What the converters make of a task. -/
def Converters.result (inner : Converters) : (task : Task) → Logged task.Log task.Value
  | .expression place t rest => inner.expressionFrom place t rest
  | .statement scope pending t rest => inner.statementFrom scope pending t rest
  | .block scope t rest => inner.blockFrom scope t rest

/-- The two converters make the same of the tasks that satisfy `P`. -/
def AgreeOn (leeway : Leeway) (P : Task → Prop) (inner inner' : Converters) : Prop :=
  ∀ task, P task → Alike leeway (inner.result task) (inner'.result task)

namespace AgreeOn

variable {leeway : Leeway} {P Q : Task → Prop}

/-- What is made with the two converters is alike. -/
abbrev Alike {ω α : Type} (_ : AgreeOn leeway P inner inner') (make : Converters → Logged ω α) : Prop :=
  Logged.Alike leeway (make inner) (make inner')

theorem mono (agree : AgreeOn leeway P inner inner') (weaker : ∀ task, Q task → P task) :
    AgreeOn leeway Q inner inner' :=
  fun task asked => agree task (weaker task asked)

section

variable (agree : AgreeOn leeway (Task.Within scope) inner inner')
include agree

/-- What stands in a function can stand in any scope. -/
theorem inFn (isFn : scope'.isFn = true) : AgreeOn leeway (Task.Within scope') inner inner' := by
  refine agree.mono fun task within => ?_
  cases task with
  | expression place t rest =>
    refine .inr ?_
    obtain same | within := within
    · rw [same]
      exact isFn
    · exact within
  | statement scope pending t rest | block scope t rest => exact within

theorem plain : AgreeOn leeway (Task.InPlain scope) inner inner' :=
  agree.mono fun _ => Task.InPlain.within

theorem block (isFn : scope'.isFn = true) (ts : List Token) : agree.Alike (·.block scope' ts) := by
  cases ts with
  | nil => exact .same _
  | cons t rest => exact agree (.block scope' t rest) isFn

end

section

variable (agree : AgreeOn leeway (Task.InPlain scope) inner inner')
include agree

theorem expression (place : Place) (ts : List Token) (same : place.scope = scope) :
    agree.Alike (·.expression place ts) := by
  cases ts with
  | nil => exact .same _
  | cons t rest => exact agree (.expression place t rest) same

theorem bodyStatement (scope' : Scope) (body : scope'.isFn = true ∧ scope'.yields = scope.yields) (pending : Modifiers)
    (t : Token) (rest : List Token) : agree.Alike (·.statementFrom scope' pending t rest) :=
  agree (.statement scope' pending t rest) body

theorem bodyBlock (scope' : Scope) (body : scope'.isFn = true ∧ scope'.yields = scope.yields) (ts : List Token) :
    agree.Alike (·.block scope' ts) := by
  cases ts with
  | nil => exact .same _
  | cons t rest => exact agree (.block scope' t rest) body

end

end AgreeOn

/-! ## Expressions -/

section Expressions

variable {leeway : Leeway} {place : Place} {frame : Frame}
  (agree : AgreeOn leeway (Task.Within place.scope) inner inner')

include agree

theorem convertGroup_alike : agree.Alike (convertGroup · place frame t rest) := by
  unfold convertGroup
  cases splitClose .parenthesis rest with
  | none => exact .same _
  | some s =>
    refine .ite (fun _ => ?_) fun _ => ?_
    · exact .bind (agree.plain.expression _ _ rfl) fun _ => .same _
    · exact .bind (agree.plain.expression _ _ rfl) fun _ => .same _

theorem convertBraces_alike : agree.Alike (convertBraces · place frame t rest) := by
  unfold convertBraces
  cases splitClose .brace rest with
  | none => exact .same _
  | some s => exact .bind (agree.plain.expression _ _ rfl) fun _ => .same _

theorem convertArgument_alike (kind : ArgumentKind) (state : ArgumentState) :
    agree.Alike (convertArgument · kind place state t rest) := by
  cases kind with
  | type keyword => exact .same _
  | expression => exact .bind (agree.plain.expression _ (_ :: _) rfl) fun _ => .same _

theorem convertArguments_alike (kind : ArgumentKind) (closer : String) :
    agree.Alike (convertArguments · kind closer place frame t ts) := by
  refine .walk _ _ fun state first more _ => ?_
  exact .bind (convertArgument_alike agree kind state) fun _ => .same _

theorem convertIndexer_alike : agree.Alike (convertIndexer · place frame t rest) := by
  unfold convertIndexer
  refine .next fun _ => ?_
  cases emptyParens? rest with
  | some opening => exact .same _
  | none => exact .ite (fun _ => .same _) fun _ => convertArguments_alike agree _ _

theorem convertMethodKeyword_alike : agree.Alike (convertMethodKeyword · place frame t rest) := by
  unfold convertMethodKeyword
  refine .ite (fun _ => .same _) fun _ => .ite (fun _ => .same _) fun _ => .next fun _ => ?_
  exact convertArguments_alike agree _ _

/-- A lambda asks for its block, as the body of a function. -/
theorem convertLambda_alike : agree.Alike (convertLambda · place frame t rest) := by
  unfold convertLambda
  refine .next fun _ => .next fun params => ?_
  cases significant params with
  | nil => exact .same _
  | cons head more =>
    refine .next fun frame => ?_
    cases skipTrivia rest with
    | nil => exact .same _
    | cons first body =>
      refine .ite (fun _ => .same _) fun _ => ?_
      cases splitClose .brace body with
      | none => exact .same _
      | some s => exact .bind (agree.block rfl _).capture fun _ => .same _

theorem convertArm_alike (closing : Token) (arm : Arm) : agree.Alike (convertArm · place closing frame arm) := by
  refine .bind (agree.plain.expression _ _ rfl) fun pattern => ?_
  exact .bind (agree.plain.expression _ _ rfl) fun _ => .same _

theorem convertArms_alike (closing : Token) (arms : List Arm) :
    agree.Alike (convertArms · place closing frame arms) := by
  induction arms generalizing frame with
  | nil => exact .same _
  | cons arm arms ih => exact .bind (convertArm_alike agree closing arm) fun frame => ih

theorem convertSwitchExpression_alike : agree.Alike (convertSwitchExpression · place frame t rest) := by
  unfold convertSwitchExpression
  refine .next fun _ => ?_
  cases splitSwitch t rest with
  | error fault => exact .same _
  | ok parts =>
    refine .bind (agree.plain.expression _ _ rfl) fun subject => .next fun arms => ?_
    exact .bind (convertArms_alike agree _ arms) fun _ => .same _

theorem convertOperator_alike : agree.Alike (convertOperator · place frame t rest) := by
  unfold convertOperator
  split
  any_goals exact .same _
  · exact convertGroup_alike agree
  · exact convertBraces_alike agree
  · exact convertIndexer_alike agree
  · exact convertLambda_alike agree

theorem convertKeyword_alike : agree.Alike (convertKeyword · place frame t rest) := by
  unfold convertKeyword
  refine .ite (fun _ => .same _) fun _ => .ite (fun _ => .same _) fun _ => ?_
  refine .ite (fun _ => convertMethodKeyword_alike agree) fun _ => ?_
  split
  any_goals exact .same _
  exact convertSwitchExpression_alike agree

theorem convertToken_alike : agree.Alike (convertToken · place frame t rest) := by
  unfold convertToken
  split
  any_goals exact .same _
  · exact convertOperator_alike agree
  all_goals exact convertKeyword_alike agree

theorem convertExpression_alike : agree.Alike (convertExpression · place ts) :=
  .walk _ _ fun _ _ _ _ => convertToken_alike agree

end Expressions

/-! ## Control flow -/

section Statements

variable {leeway : Leeway} {pending : Modifiers} {opening fence : Token} {words : String}

theorem convertBraced_alike {outer : Nat}
    (body : ∀ ts, Alike leeway (inner.block scope ts) (inner'.block scope ts)) :
    Alike leeway (convertBraced inner outer scope opening ts) (convertBraced inner' outer scope opening ts) := by
  unfold convertBraced
  cases splitClose .brace ts with
  | none => exact .same _
  | some s => exact .next fun _ => .bind (body _) fun _ => .same _

section Plain

variable (agree : AgreeOn leeway (Task.InPlain scope) inner inner')

include agree

theorem convertRightSide_alike : agree.Alike (convertRightSide · scope t ts) :=
  .bind (.ofReading (agree.expression _ _ rfl)) fun _ => .same _

theorem convertExpressionStatement_alike : agree.Alike (convertExpressionStatement · scope t rest) :=
  .next fun _ => .bind (convertRightSide_alike agree) fun _ => .same _

theorem convertYield_alike : agree.Alike (convertYield · scope t rest) := by
  unfold convertYield
  refine .next fun _ => .next fun _ => ?_
  cases skipTrivia rest with
  | nil => exact .next fun _ => .bind (convertRightSide_alike agree) fun _ => .same _
  | cons next more =>
    refine .ite (fun _ => .same _) fun _ => .next fun _ => ?_
    exact .bind (convertRightSide_alike agree) fun _ => .same _

theorem convertInHeader_alike : agree.Alike (convertInHeader · scope fence ts) :=
  .bind (.ofReading (agree.expression _ _ rfl)) fun _ => .same _

theorem convertCondition_alike : agree.Alike (convertCondition · scope t fence ts) := by
  unfold convertCondition
  exact .ite (fun _ => .same _) fun _ => .bind (convertInHeader_alike agree) fun _ => .same _

/-- The body of a control-flow statement is the body of a function, wherever the statement stands. -/
theorem convertBody_alike : agree.Alike (convertBody · scope t ts) := by
  unfold convertBody
  refine .ite (fun _ => convertBraced_alike (agree.bodyBlock scope.enterBody ⟨rfl, rfl⟩)) fun _ => .next fun _ => ?_
  cases skipTrivia ts with
  | nil => exact .same _
  | cons first more => exact .bind (agree.bodyStatement scope.enterBody ⟨rfl, rfl⟩ _ _ _) fun _ => .same _

theorem convertGuarded_alike : agree.Alike (convertGuarded · words scope t ts) := by
  refine .next fun head => .next fun _ => ?_
  exact .bind (convertCondition_alike agree) fun _ => convertBody_alike agree

theorem convertIf_alike : agree.Alike (convertIf · scope t rest) := by
  refine .walk _ _ fun words t ts _ => ?_
  refine .bind (convertGuarded_alike agree) fun rest => .next fun follower => ?_
  cases follower with
  | other | elseIf next more => exact .same _
  | otherwise next more => exact .next fun _ => .bind (convertBody_alike agree) fun _ => .same _

theorem convertBare_alike : agree.Alike (convertBare · scope t rest) := by
  unfold convertBare
  refine .next fun head => ?_
  cases skipTrivia head.before with
  | nil => exact .next fun _ => convertBraced_alike (agree.bodyBlock scope.enterBody ⟨rfl, rfl⟩)
  | cons extra more => exact .same _

theorem convertForStart_alike : agree.Alike (convertForStart · scope fence ts) := by
  unfold convertForStart
  cases skipTrivia ts with
  | nil => exact .bind (convertInHeader_alike agree) fun _ => .same _
  | cons first more =>
    refine .ite (fun _ => .bind (convertInHeader_alike agree) fun _ => .same _) fun _ => ?_
    cases splitTop (·.isOp "=") (first :: more) with
    | none => exact .same _
    | some s =>
      exact .next fun _ => .next fun _ => .bind (convertInHeader_alike agree) fun _ => .same _

theorem convertForClause_alike : agree.Alike (convertForClause · scope fence ts) := by
  unfold convertForClause
  refine .ite (fun _ => .same _) fun _ => .next fun _ => ?_
  exact .bind (convertInHeader_alike agree) fun _ => .same _

theorem convertFor_alike : agree.Alike (convertFor · scope t rest) := by
  refine .next fun head => .next fun clauses => .next fun _ => ?_
  refine .bind (convertForStart_alike agree) fun _ => ?_
  refine .bind (convertForClause_alike agree) fun _ => ?_
  exact .bind (convertForClause_alike agree) fun _ => .next fun _ => convertBody_alike agree

theorem convertForeach_alike : agree.Alike (convertForeach · scope t rest) := by
  unfold convertForeach
  refine .next fun head => ?_
  cases splitTop (·.isKeyword "in") head.before with
  | none => exact .same _
  | some s =>
    refine .next fun declared => .ite (fun _ => .same _) fun _ => .next fun _ => ?_
    exact .bind (convertInHeader_alike agree) fun _ => .next fun _ => .next fun _ =>
      convertBody_alike agree

theorem convertDo_alike : agree.Alike (convertDo · scope t rest) := by
  unfold convertDo
  cases skipTrivia rest with
  | nil => exact .same _
  | cons word more =>
    refine .ite (fun _ => .same _) fun _ => .next fun head => ?_
    cases splitClose .brace head.after with
    | none => exact .same _
    | some body =>
      refine .next fun _ => .bind (agree.bodyBlock scope.enterBody ⟨rfl, rfl⟩ _) fun _ => .next fun _ => ?_
      exact .bind (convertCondition_alike agree) fun _ => .same _

theorem convertCatchHeader_alike : agree.Alike (convertCatchHeader · scope t fence ts) := by
  unfold convertCatchHeader
  cases splitTop (·.isOp "*") ts with
  | none => exact .same _
  | some s => exact .next fun _ => .next fun _ => .next fun _ => convertCondition_alike agree

theorem convertKeywordBlock_alike : agree.Alike (convertKeywordBlock · scope t ts) := by
  unfold convertKeywordBlock
  cases skipTrivia ts with
  | nil => exact .same _
  | cons opening more =>
    refine .ite (fun _ => .same _) fun _ => .next fun _ => ?_
    exact convertBraced_alike (agree.bodyBlock scope.enterBody ⟨rfl, rfl⟩)

theorem convertCatch_alike : agree.Alike (convertCatch · scope t ts) := by
  refine .next fun head => .next fun _ => .bind (convertCatchHeader_alike agree) fun _ => ?_
  exact convertBraced_alike (agree.bodyBlock scope.enterBody ⟨rfl, rfl⟩)

theorem convertTry_alike : agree.Alike (convertTry · scope t rest) := by
  refine .bind (convertKeywordBlock_alike agree) fun after => .bind ?_ fun _ => .same _
  refine .walk _ _ fun state t more _ => ?_
  unfold convertHandlerRound
  refine .ite (fun _ => .same _) fun _ => .ite (fun _ => ?_) fun _ => .ite (fun _ => ?_) fun _ => .same _
  · exact .bind (convertCatch_alike agree) fun _ => .same _
  · exact .bind (convertKeywordBlock_alike agree) fun _ => .same _

theorem convertSection_alike (arm : Arm) : agree.Alike (convertSection · scope arm) := by
  unfold convertSection convertSectionHead convertSectionBody
  refine .bind (.next fun _ => .ite (fun _ => .same _) fun _ => ?_) fun _ => .bind ?_ fun _ => .same _
  · exact .next fun _ => .bind (convertInHeader_alike agree) fun _ => .same _
  · refine .ite (fun _ => agree.bodyBlock scope.enterBody.enterBody ⟨rfl, rfl⟩ _) fun _ => ?_
    cases arm.body ++ arm.separator.toList with
    | nil => exact .same _
    | cons first more => exact .bind (agree.bodyStatement scope.enterBody.enterBody ⟨rfl, rfl⟩ _ _ _) fun _ => .same _

theorem convertSections_alike (arms : List Arm) : agree.Alike (convertSections · scope arms) := by
  induction arms with
  | nil => exact .same _
  | cons arm arms ih => exact .bind (convertSection_alike agree arm) fun _ => ih

theorem convertSwitch_alike : agree.Alike (convertSwitch · scope t rest) := by
  unfold convertSwitch
  cases splitSwitch t rest with
  | error fault => exact .same _
  | ok parts =>
    refine .next fun _ => .bind (convertCondition_alike agree) fun _ => .next fun _ => .next fun arms => ?_
    exact .bind (convertSections_alike agree arms) fun _ => .same _

theorem convertControlFlow_alike : agree.Alike (convertControlFlow · scope t rest) := by
  unfold convertControlFlow
  split
  any_goals exact .same _
  · exact convertIf_alike agree
  · exact convertFor_alike agree
  · exact convertForeach_alike agree
  · exact convertDo_alike agree
  · exact convertTry_alike agree
  · exact convertSwitch_alike agree
  · exact convertBare_alike agree
  · exact convertBare_alike agree
  · exact convertGuarded_alike agree

theorem convertVariable_alike (kind : VariableKind) :
    agree.Alike (convertVariable · kind scope pending t rest) := by
  unfold convertVariable
  refine .next fun _ => ?_
  cases splitTop (fun t => t.isAssignment || t.isOp ";") rest with
  | none => exact .same _
  | some s =>
    refine .next fun header => .ite (fun _ => .same _) fun _ => .next fun type => ?_
    refine .ite (fun _ => .same _) fun _ => .next fun _ => .next fun _ => ?_
    exact .bind (convertRightSide_alike agree) fun _ => .same _

end Plain

/-! ## Declarations -/

section Scoped

variable (agree : AgreeOn leeway (Task.Within scope) inner inner')

include agree

theorem convertFn_alike : agree.Alike (convertFn · scope pending t rest) := by
  unfold convertFn
  refine .next fun mods => ?_
  cases splitTop (·.isOpIn ["\x7b", ";"]) rest with
  | none => exact .same _
  | some s =>
    refine .next fun header => .ite (fun _ => .same _) fun _ => .ite (fun _ => .same _) fun _ => ?_
    exact .next fun _ => convertBraced_alike (agree.block rfl)

theorem convertPropAccessorLines_alike (accessors : List PropAccessor) :
    agree.Alike (convertPropAccessorLines · scope accessors) := by
  induction accessors with
  | nil => exact .same _
  | cons accessor accessors ih =>
    refine .bind (.next fun _ => ?_) fun _ => ih
    cases accessor.body with
    | auto => exact .same _
    | expression arrow ts => exact .next fun _ => .bind (convertRightSide_alike agree.plain) fun _ => .same _
    | block opening ts => exact .bind (convertBraced_alike (agree.block rfl)) fun _ => .same _

theorem convertPropAccessors_alike (accessors : List PropAccessor) :
    agree.Alike (convertPropAccessors · scope accessors) := by
  unfold convertPropAccessors
  refine .ite (fun _ => .same _) fun _ => .next fun _ => ?_
  -- Here the expressions of the accessors are in another scope than the property.
  exact .bind (convertPropAccessorLines_alike (agree.inFn rfl) accessors) fun _ => .same _

theorem convertPropExpression_alike (header : PropHeader) (access : List String) :
    agree.Alike (convertPropExpression · scope header access t ts) := by
  unfold convertPropExpression
  refine .next fun _ => ?_
  cases skipTrivia ts with
  | nil => exact .same _
  | cons body more =>
    refine .next fun _ => .ite (fun _ => .next fun _ => ?_) fun _ => .next fun _ => ?_
    · exact .bind (convertRightSide_alike agree.plain) fun _ => .same _
    · exact .bind (convertBraced_alike (agree.block rfl)) fun _ => .same _

theorem convertPropValue_alike (block : List Token) : agree.Alike (convertPropValue · scope block ts) := by
  unfold convertPropValue
  cases ts with
  | nil => exact .same _
  | cons t rest =>
    refine .ite (fun _ => .next fun _ => .next fun _ => ?_) fun _ => .same _
    exact .bind (convertRightSide_alike agree.plain) fun _ => .same _

theorem convertProp_alike : agree.Alike (convertProp · scope pending t rest) := by
  unfold convertProp
  refine .next fun parts => .ite (fun _ => convertPropExpression_alike agree _ _) fun _ => ?_
  refine .ite (fun _ => ?_) fun _ => .same _
  unfold convertPropBlock
  cases splitClose .brace parts.body with
  | none => exact .same _
  | some s =>
    refine .next fun accessors => .ite (fun _ => .same _) fun _ => .next fun after => .next fun _ => ?_
    exact .bind (convertPropAccessors_alike agree accessors) fun _ => convertPropValue_alike agree _

end Scoped

/-- A namespace asks for its block only where there can be namespaces. -/
theorem convertNamespace_alike (body : scope.isFn = false → ∀ ts,
      Alike leeway (inner.block (scope.enter .namespaceBody) ts) (inner'.block (scope.enter .namespaceBody) ts)) :
    Alike leeway (convertNamespace inner scope t rest) (convertNamespace inner' scope t rest) := by
  unfold convertNamespace
  refine .ite (fun _ => .same _) fun holds => ?_
  have outside : scope.isFn = false := by
    cases container : scope.container <;> simp_all [Container.holdsNamespaces, Scope.isFn]
  cases splitTop (·.isOpIn ["\x7b", ";"]) rest with
  | none => exact .same _
  | some s =>
    refine .ite (fun _ => .same _) fun _ => .next fun name => .ite (fun _ => .same _) fun _ => ?_
    exact .next fun _ => .bind (convertBraced_alike (body outside)) fun _ => .same _

/-- A class or a struct asks for its block only outside functions. -/
theorem convertTypeDecl_alike {kind : TypeDeclKind} (body : scope.isFn = false → ∀ ts,
      Alike leeway (inner.block (scope.enter kind.container) ts) (inner'.block (scope.enter kind.container) ts)) :
    Alike leeway (convertTypeDecl inner kind scope pending t rest)
      (convertTypeDecl inner' kind scope pending t rest) := by
  unfold convertTypeDecl
  refine .ite (fun _ => .same _) fun outside => .next fun modifiers => ?_
  cases splitTop (·.isOpIn ["\x7b", ";"]) rest with
  | none => exact .same _
  | some s =>
    refine .ite (fun _ => .same _) fun _ => ?_
    cases significant s.before with
    | nil => exact .same _
    | cons name header =>
      refine .ite (fun _ => .same _) fun _ => .next fun _ => .next fun generics => .next fun bases => ?_
      refine .next fun access => .next fun _ => convertBraced_alike (body ?_)
      simpa using outside

/-! ## Statements and blocks -/

/-- The container that the body of a declaration is, where it is not the body of a function. -/
def bodyContainer? (t : Token) : Option Container :=
  match t.category, t.text with
  | .keyword, "class" => some .classBody
  | .keyword, "struct" => some .structBody
  | .keyword, "namespace" => some .namespaceBody
  | _, _ => none

/-- Does the token start a declaration that has a body of its own? -/
def Token.ownsBody (t : Token) : Bool :=
  t.category == .keyword && ["class", "struct", "namespace", "fn", "prop"].contains t.text

/-- What stands in a statement that starts with `t`, apart from the blocks of types and namespaces. -/
def Task.StandsIn (scope : Scope) (t : Token) (task : Task) : Prop :=
  if t.ownsBody then task.Within scope else task.InPlain scope

/-- What is in a statement that starts with `t`: what stands in its scope and, outside functions, the
block of a declaration. -/
def Task.InStatement (scope : Scope) (t : Token) : Task → Prop
  | block scope' t' rest =>
    (block scope' t' rest).StandsIn scope t ∨ scope.isFn = false ∧ bodyContainer? t = some scope'.container
  | task => task.StandsIn scope t

namespace Task

variable {task : Task}

theorem StandsIn.inStatement (stands : task.StandsIn scope t) : task.InStatement scope t := by
  cases task with
  | expression place t rest | statement scope pending t rest => exact stands
  | block scope t rest => exact .inl stands

theorem StandsIn.within (stands : task.StandsIn scope t) : task.Within scope := by
  unfold StandsIn at stands
  split at stands
  · exact stands
  · exact stands.within

theorem Within.standsIn (within : task.Within scope) (owns : t.ownsBody = true) : task.StandsIn scope t := by
  rwa [StandsIn, if_pos owns]

theorem InPlain.standsIn (inside : task.InPlain scope) : task.StandsIn scope t := by
  unfold StandsIn
  split
  · exact inside.within
  · exact inside

end Task

theorem Logged.Alike.unmodified {draft draft' : Draft (List Token)} (alike : Alike leeway draft draft') :
    Alike leeway (Sharp.unmodified pending draft) (Sharp.unmodified pending draft') :=
  .next fun _ => .bind alike fun _ => .same _

theorem convertOther_alike (agree : AgreeOn leeway (Task.InPlain scope) inner inner') :
    agree.Alike (convertOther · scope pending t rest) := by
  unfold convertOther
  refine .ite (fun _ => .unmodified (convertControlFlow_alike agree)) fun _ => ?_
  split
  · exact .same _
  · exact .same _
  · exact .ite (fun _ => .same _) fun _ => .unmodified (convertExpressionStatement_alike agree)

theorem AgreeOn.body (agree : AgreeOn leeway (Task.InStatement scope t) inner inner')
    {container : Container} (declares : bodyContainer? t = some container) (outside : scope.isFn = false)
    (ts : List Token) : agree.Alike (·.block (scope.enter container) ts) := by
  cases ts with
  | nil => exact .same _
  | cons t' rest => exact agree (.block (scope.enter container) t' rest) (.inr ⟨outside, declares⟩)

/-- What a plain statement holds, a declaration can hold too. -/
theorem AgreeOn.plainPart (agree : AgreeOn leeway (Task.InStatement scope t) inner inner') :
    AgreeOn leeway (Task.InPlain scope) inner inner' :=
  agree.mono fun _ inside => inside.standsIn.inStatement

theorem convertKeywordStatement_alike (keyword : t.category = .keyword)
    (agree : AgreeOn leeway (Task.InStatement scope t) inner inner') :
    agree.Alike (convertKeywordStatement · scope pending t rest) := by
  have plain := agree.plainPart
  have owner (word : t.text ∈ ["fn", "prop"]) : AgreeOn leeway (Task.Within scope) inner inner' := by
    have owns : t.ownsBody = true := by
      simp only [List.mem_cons, List.not_mem_nil, or_false] at word
      rcases word with word | word <;> simp [Token.ownsBody, keyword, word]
    exact agree.mono fun _ within => (within.standsIn owns).inStatement
  have other : plain.Alike (convertOther · scope pending t rest) := convertOther_alike plain
  have expression : plain.Alike fun inner => unmodified pending (convertExpressionStatement inner scope t rest) :=
    .unmodified (convertExpressionStatement_alike plain)
  unfold convertKeywordStatement
  dsimp only
  split
  · next text =>
    have declares : bodyContainer? t = some .classBody := by simp [bodyContainer?, keyword, text]
    exact .bind (convertTypeDecl_alike (agree.body declares)) fun _ => .same _
  · next text =>
    have declares : bodyContainer? t = some .structBody := by simp [bodyContainer?, keyword, text]
    exact .bind (convertTypeDecl_alike (agree.body declares)) fun _ => .same _
  · next text => exact .bind (convertFn_alike (owner (by simp [text]))) fun _ => .same _
  · exact .bind (convertVariable_alike plain _) fun _ => .same _
  · exact .bind (convertVariable_alike plain _) fun _ => .same _
  · cases (nextSignificant? rest).filter Token.isNameLike with
    | none => exact other
    | some name =>
      exact .ite (fun _ => .bind (convertVariable_alike plain _) fun _ => .same _) fun _ => .same _
  · next text => exact .bind (convertProp_alike (owner (by simp [text]))) fun _ => .same _
  · exact .same _
  · next text =>
    have declares : bodyContainer? t = some .namespaceBody := by simp [bodyContainer?, keyword, text]
    exact .next fun _ => convertNamespace_alike (agree.body declares)
  · exact .ite (fun _ => .same _) fun _ => expression
  · exact .ite (fun _ => .unmodified (convertYield_alike plain)) fun _ => other
  · exact .ite (fun _ => other) fun _ => expression
  · exact .ite (fun _ => other) fun _ => expression
  · exact other

theorem convertStatement_alike (agree : AgreeOn leeway (Task.InStatement scope t) inner inner') :
    agree.Alike (convertStatement · scope pending t rest) := by
  unfold convertStatement
  refine .ite (fun _ => .same _) fun _ => .ite (fun _ => .same _) fun _ => ?_
  refine .ite (fun keyword => convertKeywordStatement_alike (eq_of_beq keyword) agree) fun _ => ?_
  exact .unmodified (convertExpressionStatement_alike agree.plainPart)

/-- What a block holds: the statements that its walk comes to. -/
def Task.InBlock (inner : Converters) (scope : Scope) (ts : List Token) : Task → Prop
  | statement scope' pending t rest =>
    Walks (convertBlockRound inner) { scope } ts ⟨scope', pending⟩ (t :: rest)
  | _ => False

/-- A block asks for the statements that its walk comes to. -/
theorem convertBlock_alike (agree : AgreeOn leeway (Task.InBlock inner scope ts) inner inner') :
    agree.Alike (convertBlock · scope ts) := by
  refine .walk _ _ fun state t rest reached => ?_
  unfold convertBlockRound
  split
  any_goals exact .same _
  exact .bind (agree (.statement state.scope state.pending t rest) reached) fun _ => .same _

end Statements

end Sharp
