import Sharp.Proofs.Agreement
import Sharp.Proofs.SpacedWords

/-!
# Function bodies

What is inside the body of a function, of a lambda, of an accessor or of a control-flow statement is in
a function, however deep it stands.  Declarations that belong elsewhere are refused there.

* `Task.InBody.yields`: the bodies of control flow in a function yield if the function does.
* `bodies_closed_of_convert`: function bodies hold statements of functions only, and the outermost block
  alone is at the top level.
-/

namespace Sharp

open Layers Token
open Logged (Alike)

variable {state state' state'' : BlockState} {rest' ts rest ts' firsts seconds : List Token}
  {inner inner' : Converters} {t t' : Token} {outer task : Task} {pending : Modifiers}
  {log : Output}

/-! ## Asking -/

namespace Task

def rank : Task → Nat
  | expression _ _ rest => expressionRank rest.length
  | statement _ _ _ rest => statementRank rest.length
  | block _ _ rest => blockRank rest.length

/-- What comes of a task, given the converters for what is inside it. -/
def resultWith (inner : Converters) : (task : Task) → Logged task.Log task.Value
  | expression place t rest => convertExpression inner place (t :: rest)
  | statement scope pending t rest => convertStatement inner scope pending t rest
  | block scope t rest => convertBlock inner scope (t :: rest)

def scope : Task → Scope
  | expression place _ _ => place.scope
  | statement scope _ _ _ => scope
  | block scope _ _ => scope

/-- The tasks that a task can ask for. -/
def Holds : Task → Task → Prop
  | expression place _ _ => Within place.scope
  | statement scope _ t _ => InStatement scope t
  | block scope t rest => InBlock (standard.converters (blockRank rest.length)) scope (t :: rest)

end Task

/-- The converters, except that they refuse one task. -/
def Converters.refusing (inner : Converters) (task : Task) (fault : Fault) : Converters where
  expressionFrom place t rest :=
    if task = .expression place t rest then .fail fault else inner.expressionFrom place t rest
  statementFrom scope pending t rest :=
    if task = .statement scope pending t rest then .fail fault
    else inner.statementFrom scope pending t rest
  blockFrom scope t rest :=
    if task = .block scope t rest then .fail fault else inner.blockFrom scope t rest

/-- Converting the outer task asks for the other one: where that is refused, something else comes of
it.  What is not asked for has no part in the conversion. -/
def Task.Asks (outer task : Task) : Prop :=
  ∃ fault, outer.resultWith ((standard.converters outer.rank).refusing task fault) ≠ standard.all.result outer

def Task.Accepted (task : Task) : Prop := ∃ value log, standard.all.result task = .done value log

section Asking

variable {leeway : Leeway} {P : Task → Prop} {fault : Fault}

theorem result_refusing (inner : Converters) (task : Task) (fault : Fault) (task' : Task) :
    (inner.refusing task fault).result task' =
      if task = task' then .fail fault else inner.result task' := by
  cases task' <;> rfl

theorem agreeOn_refusing (other : ¬ P task) : AgreeOn leeway P inner (inner.refusing task fault) := by
  intro task' asked
  have different : task ≠ task' := fun same => other (same ▸ asked)
  rw [result_refusing, if_neg different]
  exact .same _

/-- To refuse what fails changes nothing but the fault. -/
theorem agreeOn_refusing_of_fail {fault' : Fault} (fails : inner.result task = .fail fault') :
    AgreeOn ⟨True, False⟩ P inner (inner.refusing task fault) := by
  intro task' _
  rw [result_refusing]
  split
  · next same =>
    rw [← same, fails]
    exact .fails trivial _ _
  · exact .same _

theorem result_all (task : Task) : standard.all.result task = task.resultWith (standard.converters task.rank) := by
  cases task <;> rfl

theorem resultWith_alike (agree : AgreeOn leeway outer.Holds (standard.converters outer.rank) inner') :
    Alike leeway (standard.all.result outer) (outer.resultWith inner') := by
  rw [result_all]
  cases outer with
  | expression place t rest => exact convertExpression_alike agree
  | statement scope pending t rest => exact convertStatement_alike agree
  | block scope t rest => exact convertBlock_alike agree

/-- A task asks only for what it holds: to refuse anything else makes no difference. -/
theorem holds_of_asks (asks : outer.Asks task) : outer.Holds task := by
  by_contra other
  obtain ⟨fault, differs⟩ := asks
  exact differs (resultWith_alike (agreeOn_refusing other)).eq.symm

theorem asks_of_isOk (fault : Fault) (differs : (standard.all.result outer).toExcept.isOk ≠
      (outer.resultWith ((standard.converters outer.rank).refusing task fault)).toExcept.isOk) :
    outer.Asks task :=
  ⟨fault, fun same => differs (same ▸ rfl)⟩

/-- What the converters inside a task accept is accepted as it is. -/
theorem result_all_of_done (task : Task) {rank : Nat} {value : task.Value} {log : task.Log}
    (done : (standard.converters rank).result task = .done value log) :
    standard.all.result task = .done value log := by
  rw [← done]
  by_cases below : task.rank < rank
  · cases task with
    | expression place t rest => exact (converters_expressionFrom below place t).symm
    | statement scope pending t rest => exact (converters_statementFrom below scope pending t).symm
    | block scope t rest => exact (converters_blockFrom below scope t).symm
  · -- What does not rank below is refused.
    rw [converters] at done
    cases task <;> cases done.symm.trans (if_neg below)

/-- Where a task is accepted, so is all that it asks for. -/
theorem accepted_of_asks (asks : outer.Asks task) (accepted : outer.Accepted) : task.Accepted := by
  obtain ⟨fault, differs⟩ := asks
  obtain ⟨value, log, done⟩ := accepted
  cases found : (standard.converters outer.rank).result task with
  | done value log => exact ⟨value, log, result_all_of_done task found⟩
  | fail fault' =>
    -- To refuse a task that fails anyway could only change the fault, and there is none.
    have agree : AgreeOn ⟨True, False⟩ outer.Holds (standard.converters outer.rank)
        ((standard.converters outer.rank).refusing task fault) := agreeOn_refusing_of_fail found
    have alike := resultWith_alike agree
    rw [done] at alike differs
    generalize outer.resultWith _ = refused at alike differs
    cases alike with
    | same => exact absurd rfl differs
    | refuses h => exact h.elim

end Asking

/-! ## Containers -/

/-- If the computation succeeds, its value satisfies `P`. -/
def Logged.Ensures {ω α : Type} (x : Logged ω α) (P : α → Prop) : Prop := ∀ a u, x = .done a u → P a

namespace Logged.Ensures

variable {ω α β : Type} {P : β → Prop}

theorem fail (fault : Fault) : Ensures (.fail fault : Logged ω β) P := nofun

theorem ite {c : Prop} [Decidable c] {x y : Logged ω β} (yes : c → Ensures x P) (no : ¬ c → Ensures y P) :
    Ensures (if c then x else y) P := by
  by_cases holds : c
  · simpa only [if_pos holds] using yes holds
  · simpa only [if_neg holds] using no holds

variable [Log ω]

theorem pure {b : β} (holds : P b) : Ensures (Pure.pure b : Logged ω β) P := by
  rintro _ _ ⟨⟩
  exact holds

theorem bind {x : Logged ω α} {f : α → Logged ω β} {Q : α → Prop} (first : Ensures x Q)
    (second : ∀ a, Q a → Ensures (f a) P) : Ensures (x >>= f) P := by
  intro b w done
  obtain ⟨a, u, v, given, rest, -⟩ := bind_eq_done.1 done
  exact second a (first a u given) b v rest

theorem next {x : Logged ω α} {f : α → Logged ω β} (second : ∀ a, Ensures (f a) P) : Ensures (x >>= f) P :=
  bind (Q := fun _ => True) (fun _ _ _ => trivial) fun a _ => second a

theorem ofReading {reading : Reading β} (read : Ensures reading P) : Ensures (liftM reading : Draft β) P := by
  intro b output done
  cases reading with
  | fail fault => cases done
  | done a notes =>
    cases done
    exact read b notes rfl

end Logged.Ensures

/-- The statement changes the container of those after it from the top level to a namespace, or not at
all. -/
def Statement.Enters (scope : Scope) (statement : Parsed Statement) : Prop :=
  statement.value.entered = none ∨ scope.container = .topLevel ∧ statement.value.entered = some .namespaceBody

section Containers

variable {scope : Scope} {draft : Draft (List Token)}

theorem plainStatement_enters : (plainStatement draft).Ensures (Statement.Enters scope) :=
  .next fun _ => .pure (.inl rfl)

theorem unmodified_enters : (unmodified pending draft).Ensures (Statement.Enters scope) :=
  .next fun _ => plainStatement_enters

theorem holdModifier_enters : (holdModifier pending t rest).Ensures (Statement.Enters scope) :=
  .next fun _ => .next fun _ => .pure (.inl rfl)

/-- A namespace without a block holds what follows it; there is one only at the top level. -/
theorem convertNamespace_enters : (convertNamespace inner scope t rest).Ensures (Statement.Enters scope) := by
  unfold convertNamespace
  refine .ite (fun _ => .fail _) fun _ => ?_
  cases splitTop (·.isOpIn ["\x7b", ";"]) rest with
  | none => exact .fail _
  | some s =>
    refine .ite (fun _ => .fail _) fun _ => .next fun name => .ite (fun _ => ?_) fun _ => ?_
    · refine .ite (fun _ => .fail _) fun top => .next fun _ => .pure (.inr ⟨?_, rfl⟩)
      simpa using top
    · exact .next fun _ => .next fun _ => .pure (.inl rfl)

theorem convertStatement_enters :
    (convertStatement inner scope pending t rest).Ensures (Statement.Enters scope) := by
  have form := @convertStatement_form inner scope pending t rest
  generalize convertStatement inner scope pending t rest = draft at form ⊢
  cases form with
  | refused => exact .fail _
  | empty => exact .pure (.inl rfl)
  | modifier => exact holdModifier_enters
  | inNamespace => exact .next fun _ => convertNamespace_enters
  | typeDecl | function | declared | property => exact plainStatement_enters
  | imported | yielded | controlFlow | expression => exact unmodified_enters

/-- A round of a block goes on: behind blanks and comments from the same state, otherwise from what a statement
leaves. -/
theorem convertBlockRound_next {step : Step BlockState Unit}
    (went : convertBlockRound inner state t rest = .done step log) :
    ∃ state' rest', step = .next state' rest' ∧
      (state' = state ∨ ∃ statement, inner.statementFrom state.scope state.pending t rest = .done statement log ∧
        state' = ⟨statement.value.scopeAfter state.scope, statement.value.pending⟩) := by
  unfold convertBlockRound at went
  split at went
  · cases went
    exact ⟨state, _, rfl, .inl rfl⟩
  · cases went
    exact ⟨state, _, rfl, .inl rfl⟩
  · cases went
    exact ⟨state, _, rfl, .inl rfl⟩
  · obtain ⟨statement, output, nothing, done, same, rfl⟩ := Logged.bind_eq_done.1 went
    cases same
    refine ⟨_, _, rfl, .inr ⟨statement, ?_, rfl⟩⟩
    rw [Log.append_none]
    exact done

/-- Of one round of a block, the container stays or goes from the top level to a namespace. -/
def Container.Changes (container container' : Container) : Prop :=
  container' = container ∨ container = .topLevel ∧ container' = .namespaceBody

theorem changes_of_round {rank : Nat}
    (went : convertBlockRound (standard.converters rank) state t rest = .done (.next state' rest') log) :
    state.scope.container.Changes state'.scope.container := by
  obtain ⟨_, _, same, stays | ⟨statement, done, rfl⟩⟩ := convertBlockRound_next went
  · cases same
    exact .inl (by rw [stays])
  · cases same
    have converted := result_all_of_done (.statement state.scope state.pending t rest) done
    obtain same | ⟨top, entered⟩ := convertStatement_enters _ _ converted
    · exact .inl (by simp [Statement.scopeAfter, same])
    · exact .inr ⟨top, by simp [Statement.scopeAfter, entered]⟩

/-- So it does in a whole walk: there is no way back to the top level. -/
theorem changes_of_walks {rank : Nat}
    (walks : Walks (convertBlockRound (standard.converters rank)) state ts state' ts') :
    state.scope.container.Changes state'.scope.container := by
  induction walks with
  | refl => exact .inl rfl
  | next went _ ih =>
    obtain same | ⟨top, named⟩ := changes_of_round went
    · rwa [same] at ih
    · -- Once in a namespace, the walk stays there.
      rw [named] at ih
      obtain same | ⟨impossible, -⟩ := ih
      · exact .inr ⟨top, same⟩
      · cases impossible

theorem Task.Within.isFn (within : task.Within scope) (isFn : scope.isFn = true) : task.scope.isFn = true := by
  cases task with
  | expression place t rest =>
    obtain same | inFn := within
    · exact (congrArg Scope.isFn same).trans isFn
    · exact inFn
  | statement scope' pending t rest | block scope' t rest => exact within

/-- The block of a declaration apart, what is in a statement stands in its scope. -/
theorem Task.InStatement.within (inside : task.InStatement scope t)
    (closed : scope.isFn = true ∨ bodyContainer? t = none) : task.Within scope := by
  cases task with
  | expression place t rest | statement scope' pending t rest => exact inside.within
  | block scope' t rest =>
    obtain stands | ⟨outside, declares⟩ := inside
    · exact stands.within
    · simp [outside, declares] at closed

/-- What is asked for in a function is in a function. -/
theorem isFn_of_asks (asks : outer.Asks task) (isFn : outer.scope.isFn = true) : task.scope.isFn = true := by
  have holds := holds_of_asks asks
  cases outer with
  | expression place t rest => exact Task.Within.isFn holds isFn
  | statement scope pending t rest => exact (Task.InStatement.within holds (.inl isFn)).isFn isFn
  | block scope t rest =>
    cases task with
    | expression place' t' rest' | block scope' t' rest' => exact holds.elim
    | statement scope' pending t' rest' =>
      have container : scope.container = .fnBody := eq_of_beq isFn
      obtain same | ⟨top, -⟩ := changes_of_walks holds
      · exact beq_of_eq (same.trans container)
      · cases container.symm.trans top

open Relation in
/-- Function bodies are closed under nesting. -/
theorem isFn_of_reflTransGen (asks : ReflTransGen Task.Asks outer task) (isFn : outer.scope.isFn = true) :
    task.scope.isFn = true := by
  induction asks with
  | refl => exact isFn
  | tail _ last ih => exact isFn_of_asks last ih

/-! ## Yielding bodies -/

/-- What stands in a body, however deep, without standing in the body of a declaration or of a lambda there:
the statements of a block, and what a statement asks for that is no declaration. -/
inductive Task.InBody (body : Task) : Task → Prop where
  | self : InBody body body
  | statement {scope : Scope} {t : Token} {rest : List Token} {task : Task}
      (inside : InBody body (.block scope t rest)) (asks : Asks (.block scope t rest) task) : InBody body task
  | nested {scope : Scope} {pending : Modifiers} {t : Token} {rest : List Token} {task : Task}
      (inside : InBody body (.statement scope pending t rest)) (plain : t.ownsBody = false)
      (asks : Asks (.statement scope pending t rest) task) : InBody body task

theorem yields_of_walks {inner : Converters} (walks : Walks (convertBlockRound inner) state ts state' ts') :
    state'.scope.yields = state.scope.yields := by
  induction walks with
  | refl => rfl
  | next went _ ih =>
    obtain ⟨_, _, same, stays | ⟨statement, -, rfl⟩⟩ := convertBlockRound_next went
    · cases same
      rw [ih, stays]
    · cases same
      exact ih

theorem yields_of_asks_block (asks : Task.Asks (.block scope t rest) task) :
    task.scope.yields = scope.yields := by
  have holds := holds_of_asks asks
  cases task with
  | expression place' t' rest' | block scope' t' rest' => exact holds.elim
  | statement scope' pending t' rest' => exact yields_of_walks holds

theorem bodyContainer?_of_plain (plain : t.ownsBody = false) : bodyContainer? t = none := by
  unfold bodyContainer?
  split <;> simp_all [Token.ownsBody]

/-- What a statement asks for yields if the statement does, unless it is a declaration. -/
theorem yields_of_asks_plain (plain : t.ownsBody = false) (asks : Task.Asks (.statement scope pending t rest) task) :
    task.scope.yields = scope.yields := by
  have holds := holds_of_asks asks
  have inPlain {task : Task} (stands : task.StandsIn scope t) : task.InPlain scope := by
    rwa [Task.StandsIn, if_neg (by simp [plain])] at stands
  cases task with
  | expression place t' rest' => exact congrArg Scope.yields (inPlain holds)
  | statement scope' pending' t' rest' => exact (inPlain holds).2
  | block scope' t' rest' =>
    obtain stands | ⟨-, declares⟩ := holds
    · exact (inPlain stands).2
    · simp [bodyContainer?_of_plain plain] at declares

namespace Task.InBody

variable {body : Task}

theorem yields (inside : body.InBody task) : task.scope.yields = body.scope.yields := by
  induction inside with
  | self => rfl
  | statement _ asks ih => exact (yields_of_asks_block asks).trans ih
  | nested _ plain asks ih => exact (yields_of_asks_plain plain asks).trans ih

theorem accepted (inside : body.InBody task) (accepted : body.Accepted) : task.Accepted := by
  induction inside with
  | self => exact accepted
  | statement _ asks ih | nested _ _ asks ih => exact accepted_of_asks asks ih

end Task.InBody

end Containers

/-! ## Bodies -/

/-- The first words of statements whose blocks are function bodies. -/
def functionWords : List String := "fn" :: "prop" :: controlFlowWords

/-- The blocks and statements that the task asks for are function bodies: it is a function, a property,
a control-flow statement, or an expression, in which lambdas can have blocks. -/
def Task.HasFunctionBody : Task → Prop
  | expression .. => True
  | statement _ _ t _ => t.category = .keyword ∧ t.text ∈ functionWords
  | block .. => False

def Task.isBody : Task → Bool
  | expression .. => false
  | statement .. | block .. => true

section Bodies

variable {scope : Scope}

theorem bodyContainer?_eq_none (word : t.text ∈ functionWords) : bodyContainer? t = none := by
  unfold bodyContainer?
  split
  case h_4 => rfl
  all_goals
    next text =>
      rw [text] at word
      exact absurd word (by decide)

theorem Task.Within.isFn_of_isBody (within : task.Within scope) (isBody : task.isBody = true) :
    task.scope.isFn = true := by
  cases task with
  | expression place t rest => cases isBody
  | statement scope pending t rest | block scope t rest => exact within

theorem isFn_of_body (body : outer.HasFunctionBody) (asks : outer.Asks task)
    (isBody : task.isBody = true) : task.scope.isFn = true := by
  have holds := holds_of_asks asks
  cases outer with
  | expression place t rest => exact Task.Within.isFn_of_isBody holds isBody
  | statement scope pending t rest =>
    have within := Task.InStatement.within holds (.inr (bodyContainer?_eq_none body.2))
    exact within.isFn_of_isBody isBody
  | block scope t rest => exact body.elim

/-- No task asks for a block at the top level. -/
theorem container_of_asks_block (asks : outer.Asks (.block scope t rest)) : scope.container ≠ .topLevel := by
  have holds := holds_of_asks asks
  have inFn (isFn : scope.isFn = true) : scope.container ≠ .topLevel := by
    rw [eq_of_beq isFn]
    nofun
  cases outer with
  | expression place t' rest' => exact inFn holds
  | block scope' t' rest' => exact holds.elim
  | statement scope' pending t' rest' =>
    obtain stands | ⟨-, declares⟩ := holds
    · exact inFn stands.within
    · intro top
      unfold bodyContainer? at declares
      split at declares <;> simp_all

/-- A statement at the top level is one of a block at the top level. -/
theorem eq_block_of_asks_statement (asks : outer.Asks (.statement scope pending t rest))
    (top : scope.container = .topLevel) :
    ∃ scope' t' rest', outer = .block scope' t' rest' ∧ scope'.container = .topLevel := by
  have holds := holds_of_asks asks
  have notFn : ¬ scope.isFn = true := by simp [Scope.isFn, top]
  cases outer with
  | expression place t' rest' => exact absurd holds notFn
  | statement scope' pending' t' rest' => exact absurd (Task.StandsIn.within holds) notFn
  | block scope' t' rest' =>
    refine ⟨scope', t', rest', rfl, ?_⟩
    obtain same | ⟨-, named⟩ := changes_of_walks holds
    · exact same.symm.trans top
    · cases top.symm.trans named

end Bodies

/-! ## Statements in functions -/

/-- The tokens of a declaration between its keyword `t` and its body or its value. -/
def declarationHeader (t : Token) (rest : List Token) : List Token :=
  let ends (u : Token) : Bool :=
    if t.text = "fn" then u.isOpIn ["\x7b", ";"] else u.isAssignment || u.isOp ";"
  ((splitTop ends rest).map Split.before).getD rest

section Statements

variable {scope : Scope}

/-- A token in front of others does not matter if it is neither a bracket nor what is looked for. -/
theorem hasTop_cons {operator : String}
    (others : ∀ text ∈ ["(", "\x7b", ")", "\x7d", operator], t.isOp text = false) (ts : List Token) :
    hasTop (·.isOp operator) (t :: ts) = hasTop (·.isOp operator) ts := by
  have no_opener : t.isOpener = false := by simp [isOpener, others]
  have no_closer : t.isCloser = false := by simp [isCloser, others]
  have other : t.isOp operator = false := others operator (by simp)
  simp [hasTop, splitTop, splitTopAt, other, no_opener, no_closer]

theorem hasTop_cons_of_isNameLike (isName : t.isNameLike = true) (operator : String) (ts : List Token) :
    hasTop (·.isOp operator) (t :: ts) = hasTop (·.isOp operator) ts := by
  refine hasTop_cons (fun text _ => ?_) ts
  unfold isNameLike at isName
  cases category : t.category <;> simp_all [isOp]

theorem readMemberAccess_unmarked (isFn : scope.isFn = true) (mark : Option (Token × List Token)) :
    (readMemberAccess scope mark).Ensures fun _ => mark = none := by
  cases mark with
  | none => exact .pure rfl
  | some mark => exact .ite (fun _ => .fail _) fun outside => absurd isFn outside

theorem hasTop_of_splitAtMark (unmarked : (splitAtMark ts).2 = none) : hasTop (·.isOp "@") ts = false := by
  unfold splitAtMark at unmarked
  cases split : splitTop (·.isOp "@") ts with
  | none => simp [hasTop, split]
  | some s => simp [split] at unmarked

/-- A mark after generics is the first one. -/
theorem readGenericsNames_hasTop (before : Token) : (ts : List Token) →
    (readGenericsNames before ts).Ensures fun generics =>
      hasTop (·.isOp "@") ts = hasTop (·.isOp "@") generics.rest
  | [] => .fail _
  | name :: rest => by
    unfold readGenericsNames
    refine .ite (fun _ => .fail _) fun isName => .next fun _ => ?_
    rw [hasTop_cons_of_isNameLike (by simpa using isName)]
    cases rest with
    | nil => exact .pure rfl
    | cons slash more =>
      refine .ite (fun _ => .pure rfl) fun isSlash => .next fun _ => ?_
      have isSlash : slash.isOp "/" = true := by simpa using isSlash
      refine .bind (readGenericsNames_hasTop slash more) fun generics same => .pure ?_
      rw [hasTop_cons (by simp [isOp_of_isOp isSlash])]
      exact same

theorem readGenericsHeader_hasTop (ts : List Token) : (readGenericsHeader ts).Ensures fun generics =>
      hasTop (·.isOp "@") ts = hasTop (·.isOp "@") generics.rest := by
  cases ts with
  | nil => exact .pure rfl
  | cons dash rest =>
    refine .ite (fun _ => .pure rfl) fun isDash => .next fun _ => ?_
    have isDash : dash.isOp "-" = true := by simpa using isDash
    rw [hasTop_cons (by simp [isOp_of_isOp isDash])]
    exact readGenericsNames_hasTop dash rest

section

variable (isFn : scope.isFn = true)
include isFn

theorem readVariableHeader_unmarked (kind : VariableKind) :
    (readVariableHeader kind scope t ts).Ensures fun _ => hasTop (·.isOp "@") ts = false := by
  rw [← hasTop_isOp_significant]
  unfold readVariableHeader
  cases significant ts with
  | nil => exact .fail _
  | cons name header =>
    refine .ite (fun _ => .fail _) fun isName => .next fun _ => .next fun type => ?_
    refine .bind (readMemberAccess_unmarked isFn _) fun _ unmarked => .pure ?_
    rw [hasTop_cons_of_isNameLike (by simpa using isName)]
    exact hasTop_of_splitAtMark unmarked

theorem readFnHeader_unmarked : (readFnHeader scope t ts).Ensures fun _ => hasTop (·.isOp "@") ts = false := by
  rw [← hasTop_isOp_significant]
  unfold readFnHeader
  cases significant ts with
  | nil => exact .fail _
  | cons name header =>
    refine .ite (fun _ => .fail _) fun isName => .next fun _ => ?_
    refine .bind (readGenericsHeader_hasTop header) fun generics same => .next fun _ => ?_
    refine .bind (readMemberAccess_unmarked isFn _) fun _ unmarked => .pure ?_
    rw [hasTop_cons_of_isNameLike (by simpa using isName), same]
    exact hasTop_of_splitAtMark unmarked

theorem convertVariable_unmarked (kind : VariableKind)
    (other : t.text ≠ "fn") : (convertVariable inner kind scope pending t rest).Ensures fun _ =>
      hasTop (·.isOp "@") (declarationHeader t rest) = false := by
  simp only [declarationHeader, if_neg other]
  refine .next fun _ => ?_
  cases splitTop (fun t => t.isAssignment || t.isOp ";") rest with
  | none => exact .next fun _ => .fail _
  | some s =>
    refine .bind (.ofReading (readVariableHeader_unmarked isFn kind)) fun _ unmarked => ?_
    exact fun _ _ _ => unmarked

theorem convertFn_unmarked (text : t.text = "fn") : (convertFn inner scope pending t rest).Ensures fun _ =>
      hasTop (·.isOp "@") (declarationHeader t rest) = false := by
  simp only [declarationHeader, if_pos text]
  refine .next fun _ => ?_
  cases splitTop (·.isOpIn ["\x7b", ";"]) rest with
  | none => exact .fail _
  | some s =>
    refine .bind (.ofReading (readFnHeader_unmarked isFn)) fun _ unmarked => ?_
    exact fun _ _ _ => unmarked

end

theorem convertStatement_of_keyword (keyword : t.category = .keyword) :
    convertStatement inner scope pending t rest = convertKeywordStatement inner scope pending t rest := by
  simp [convertStatement, isOp, keyword]

theorem refused_of_isFn (isFn : scope.isFn = true) (keyword : t.category = .keyword)
    (word : t.text ∈ ["class", "struct", "prop", "using", "namespace"]) :
    (convertStatement inner scope pending t rest).Ensures fun _ => False := by
  have outside : scope.container.holdsNamespaces = false := by
    rw [eq_of_beq isFn]
    rfl
  have typeDecl (kind : TypeDeclKind) : (convertTypeDecl inner kind scope pending t rest).Ensures fun _ => False :=
    .ite (fun _ => .fail _) fun no => absurd isFn no
  have prop : (convertProp inner scope pending t rest).Ensures fun _ => False := by
    refine .bind (.ofReading (P := fun _ => False) ?_) fun _ => False.elim
    exact .next fun _ => .ite (fun _ => .fail _) fun no => absurd isFn no
  have openNamespace : (convertUsing scope t rest).Ensures fun _ => False :=
    .ite (fun _ => .fail _) fun no => absurd outside (by simpa using no)
  rw [convertStatement_of_keyword keyword]
  simp only [List.mem_cons, List.not_mem_nil, or_false] at word
  rcases word with text | text | text | text | text <;> simp only [convertKeywordStatement, text]
  · exact .bind (typeDecl .classType) fun _ => False.elim
  · exact .bind (typeDecl .structType) fun _ => False.elim
  · exact .bind prop fun _ => False.elim
  · exact .next fun _ => .bind openNamespace fun _ => False.elim
  · exact .next fun _ => .ite (fun _ => .fail _) fun no => absurd outside (by simpa using no)

theorem unmarked_of_isFn (isFn : scope.isFn = true) (keyword : t.category = .keyword)
    (word : t.text ∈ ["fn", "let", "const"]) :
    (convertStatement inner scope pending t rest).Ensures fun _ =>
      hasTop (·.isOp "@") (declarationHeader t rest) = false := by
  rw [convertStatement_of_keyword keyword]
  simp only [List.mem_cons, List.not_mem_nil, or_false] at word
  rcases word with text | text | text <;> simp only [convertKeywordStatement, text]
  · exact .bind (convertFn_unmarked isFn text) fun _ unmarked => .pure unmarked
  · exact .bind (convertVariable_unmarked isFn _ (by simp [text])) fun _ unmarked => .pure unmarked
  · exact .bind (convertVariable_unmarked isFn _ (by simp [text])) fun _ unmarked => .pure unmarked

end Statements

/-! ## Directives -/

/-- The statement puts what follows it in a namespace. -/
def Task.IsDirective : Task → Prop
  | statement _ _ t rest => t.category = .keyword ∧ t.text = "namespace" ∧
    ∃ s, splitTop (·.isOpIn ["\x7b", ";"]) rest = some s ∧ s.found.isOp ";" = true
  | _ => False

section Directives

variable {scope : Scope} {rank : Nat}

theorem convertStatement_directive (directive : Task.IsDirective (.statement scope pending t rest)) :
    (convertStatement inner scope pending t rest).Ensures fun statement =>
      scope.container = .topLevel ∧ statement.value.entered = some .namespaceBody := by
  obtain ⟨keyword, text, s, split, isSemicolon⟩ := directive
  rw [convertStatement_of_keyword keyword]
  simp only [convertKeywordStatement, text, convertNamespace, split]
  refine .next fun _ => .ite (fun _ => .fail _) fun _ => .ite (fun _ => .fail _) fun _ => .next fun _ => ?_
  refine .ite (fun _ => ?_) fun no => absurd isSemicolon no
  refine .ite (fun _ => .fail _) fun top => .next fun _ => .pure ⟨?_, rfl⟩
  simpa using top

/-- After a directive a block stays in the namespace. -/
theorem container_after_directive (directive : Task.IsDirective (.statement state.scope state.pending t rest))
    (went : convertBlockRound (standard.converters rank) state t rest = .done (.next state' rest') log)
    (walks : Walks (convertBlockRound (standard.converters rank)) state' rest' state'' ts) :
    state''.scope.container = .namespaceBody := by
  have keyword := directive.1
  simp only [convertBlockRound, keyword] at went
  obtain ⟨statement, _, _, done, next, -⟩ := Logged.bind_eq_done.1 went
  cases next
  have converted := result_all_of_done (.statement state.scope state.pending t rest) done
  obtain ⟨-, entered⟩ := convertStatement_directive directive _ _ converted
  obtain same | ⟨top, -⟩ := changes_of_walks walks
  · simpa [Statement.scopeAfter, entered] using same
  · simp [Statement.scopeAfter, entered] at top

/-- Of two places that walks from one start come to, one is on the way to the other. -/
theorem Walks.comparable {ω σ α : Type} {round : σ → Token → List Token → Logged ω (Step σ α)}
    {state first second : σ} (walks : Walks round state ts first firsts)
    (walks' : Walks round state ts second seconds) :
    Walks round first firsts second seconds ∨ Walks round second seconds first firsts := by
  induction walks with
  | refl => exact .inl walks'
  | next went others ih =>
    cases walks' with
    | refl => exact .inr (.next went others)
    | next went' others' =>
      cases went.symm.trans went'
      exact ih others'

/-- A walk that goes on from a directive does not come to the top level again. -/
theorem eq_of_directive (directive : Task.IsDirective (.statement state.scope state.pending t rest))
    (walks : Walks (convertBlockRound (standard.converters rank)) state (t :: rest) state' (t' :: rest'))
    (top : state'.scope.container = .topLevel) :
    Task.statement state.scope state.pending t rest = .statement state'.scope state'.pending t' rest' := by
  cases walks with
  | refl => rfl
  | next went others => cases top.symm.trans (container_after_directive directive went others)

end Directives

/-! ## Sources -/

open Relation (ReflTransGen)

/-- Converting the tokens of a source comes to the task. -/
def Reached (tokens : List Token) (task : Task) : Prop :=
  ∃ t rest, tokens = t :: rest ∧ ReflTransGen Task.Asks (.block .root t rest) task

section Sources

variable {tokens : List Token} {settings : LayoutSettings} {text output : String}

theorem Reached.asks (reached : Reached tokens outer) (asks : outer.Asks task) : Reached tokens task := by
  obtain ⟨t, rest, rfl, path⟩ := reached
  exact ⟨t, rest, rfl, path.tail asks⟩

theorem Reached.accepted (reached : Reached tokens task) (read : tokenize text = .ok tokens)
    (converted : convert settings text = .ok output) : task.Accepted := by
  obtain ⟨t, rest, rfl, path⟩ := reached
  have start : Task.Accepted (.block .root t rest) := by
    cases program : Program.ofSource text with
    | error fault => simp [convert, program, bind, Except.bind] at converted
    | ok program =>
      obtain ⟨tokens, log, read', block, -⟩ := Program.eq_of_ofSource program
      cases read.symm.trans read'
      exact ⟨(), log, block⟩
  induction path with
  | refl => exact start
  | tail _ last ih => exact accepted_of_asks last ih

/-- Only the outermost block is at the top level. -/
theorem Reached.eq_root {scope : Scope} (reached : Reached tokens (.block scope t rest))
    (top : scope.container = .topLevel) :
    scope = .root ∧ tokens = t :: rest := by
  obtain ⟨t', rest', rfl, path⟩ := reached
  cases path with
  | refl => exact ⟨rfl, rfl⟩
  | tail _ last => exact absurd top (container_of_asks_block last)

/-- A directive stands in the outermost block, at the top level. -/
theorem Reached.directive (reached : Reached tokens outer) (asks : outer.Asks task)
    (directive : task.IsDirective) (accepted : task.Accepted) :
    ∃ t rest, tokens = t :: rest ∧ outer = .block .root t rest ∧
      ∃ state t' rest', task = .statement state.scope state.pending t' rest' ∧ state.scope.container = .topLevel ∧
        Walks (convertBlockRound (standard.converters (blockRank rest.length))) { scope := .root }
          (t :: rest) state (t' :: rest') := by
  cases task with
  | expression place t rest | block scope t rest => exact directive.elim
  | statement scope pending t rest =>
    obtain ⟨value, log, converted⟩ := accepted
    obtain ⟨top, -⟩ := convertStatement_directive directive _ _ converted
    obtain ⟨scope', t', rest', rfl, top'⟩ := eq_block_of_asks_statement asks top
    obtain ⟨rfl, same⟩ := reached.eq_root top'
    exact ⟨t', rest', same, rfl, ⟨scope, pending⟩, t, rest, rfl, top, holds_of_asks asks⟩

end Sources

/-- In a source that converts, the bodies of functions, lambdas, accessors and control flow hold only
what is in a function, with no declarations but those of functions, however deep they are nested.  The
outermost block alone is at the top level, and it has at most one directive. -/
theorem bodies_closed_of_convert {settings : LayoutSettings} {text output : String} {tokens : List Token}
    (read : tokenize text = .ok tokens) (converted : convert settings text = .ok output) :
    (∀ outer body scope pending t rest, Reached tokens outer → outer.HasFunctionBody →
      outer.Asks body → body.isBody = true →
      ReflTransGen Task.Asks body (.statement scope pending t rest) → scope.container = .fnBody ∧
          (t.category = .keyword → t.text ∉ ["class", "struct", "prop", "using", "namespace"]) ∧
          (t.category = .keyword → t.text ∈ ["fn", "let", "const"] →
            hasTop (·.isOp "@") (declarationHeader t rest) = false)) ∧
    (∀ scope t rest, Reached tokens (.block scope t rest) → scope.container = .topLevel →
      scope = .root ∧ tokens = t :: rest) ∧
    ∀ outer outer' directive directive', Reached tokens outer → outer.Asks directive →
      directive.IsDirective → Reached tokens outer' → outer'.Asks directive' → directive'.IsDirective →
      outer = outer' ∧ directive = directive' := by
  refine ⟨fun outer body scope pending t rest reached hasBody asks isBody path => ?_,
    fun scope t rest => Reached.eq_root, ?_⟩
  · -- The body is in a function, so all that is nested in it is, and it is accepted like everything.
    have isFn : scope.isFn = true := isFn_of_reflTransGen path (isFn_of_body hasBody asks isBody)
    have accepted : Task.Accepted (.statement scope pending t rest) := by
      obtain ⟨first, more, same, before⟩ := reached.asks asks
      exact Reached.accepted ⟨first, more, same, before.trans path⟩ read converted
    obtain ⟨value, log, done⟩ := accepted
    refine ⟨eq_of_beq isFn, fun keyword word => ?_, fun keyword word => ?_⟩
    · exact refused_of_isFn isFn keyword word value log done
    · exact unmarked_of_isFn isFn keyword word value log done
  · intro outer outer' directive directive' reached asks isDirective reached' asks' isDirective'
    have accepted := (reached.asks asks).accepted read converted
    have accepted' := (reached'.asks asks').accepted read converted
    obtain ⟨t, rest, rfl, rfl, state, u, more, rfl, top, walks⟩ :=
      reached.directive asks isDirective accepted
    obtain ⟨t', rest', same, rfl, state', u', more', rfl, top', walks'⟩ :=
      reached'.directive asks' isDirective' accepted'
    cases same
    refine ⟨rfl, ?_⟩
    -- Both are on the walk through the outermost block.  After the first, it has left the top level.
    obtain after | before := walks.comparable walks'
    · exact eq_of_directive isDirective after top'
    · exact (eq_of_directive isDirective' before top).symm

/-- A branch at the top level, whose body is a statement with a lambda. -/
theorem bodies_closed_of_convert_lambda : ∃ tokens, tokenize "if a;x=>\x7breturn;\x7d;" = .ok tokens ∧
      convert {} "if a;x=>\x7breturn;\x7d;" = .ok "if (a)\r\n  (x) => \x7b\r\n    return;\r\n  \x7d;\r\n" ∧
      ∃ outer body scope pending t rest, Reached tokens outer ∧ outer.HasFunctionBody ∧
        outer.Asks body ∧ body.isBody = true ∧
        ReflTransGen Task.Asks body (.statement scope pending t rest) ∧ t.text = "return" ∧
        scope.container = .fnBody := by
  let tokens := (tokenize "if a;x=>\x7breturn;\x7d;").toOption.getD []
  let token (i : Nat) : Token := tokens.getD i ⟨0, "", 0, 0, .space, none⟩
  let inFn (level : Nat) : Scope := ⟨.fnBody, level, false⟩
  let whole : Task := .block .root (token 0) (tokens.drop 1)
  let branch : Task := .statement .root {} (token 0) (tokens.drop 1)
  let body : Task := .statement (inFn 1) {} (token 4) (tokens.drop 5)
  let lambda : Task := .expression { mode := .statement, scope := inFn 1 } (token 4) (tokens.drop 5)
  let block : Task := .block (inFn 2) (token 7) [token 8]
  let jump : Task := .statement (inFn 2) {} (token 7) [token 8]
  have read : tokenize "if a;x=>\x7breturn;\x7d;" = .ok tokens := by decide +kernel +zetaReduce
  have converted : convert {} "if a;x=>\x7breturn;\x7d;" =
      .ok "if (a)\r\n  (x) => \x7b\r\n    return;\r\n  \x7d;\r\n" := by decide +kernel
  have split : tokens = token 0 :: tokens.drop 1 := by decide +kernel +zetaReduce
  have whole_asks : whole.Asks branch :=
    asks_of_isOk (.outside (token 0)) (by decide +kernel +zetaReduce)
  have branch_asks : branch.Asks body :=
    asks_of_isOk (.outside (token 0)) (by decide +kernel +zetaReduce)
  have body_asks : body.Asks lambda :=
    asks_of_isOk (.outside (token 0)) (by decide +kernel +zetaReduce)
  have lambda_asks : lambda.Asks block :=
    asks_of_isOk (.outside (token 0)) (by decide +kernel +zetaReduce)
  have block_asks : block.Asks jump :=
    asks_of_isOk (.outside (token 0)) (by decide +kernel +zetaReduce)
  have reached : Reached tokens branch := ⟨token 0, tokens.drop 1, split, .single whole_asks⟩
  have isBranch : branch.HasFunctionBody := by
    exact ⟨by decide +kernel +zetaReduce, by decide +kernel +zetaReduce⟩
  have path : ReflTransGen Task.Asks body jump :=
    ((ReflTransGen.single body_asks).tail lambda_asks).tail block_asks
  have closed := (bodies_closed_of_convert read converted).1 branch body (inFn 2) {} (token 7) [token 8]
    reached isBranch branch_asks rfl path
  exact ⟨tokens, read, converted, branch, body, inFn 2, {}, token 7, [token 8], reached, isBranch,
    branch_asks, rfl, path, by decide +kernel +zetaReduce, closed.1⟩

end Sharp
