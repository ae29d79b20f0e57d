import Sharp.Proofs.FunctionBodies

/-!
# Discipline

Tokens are looked up in front of a list or by a search through it, and a list is handed on as it is or in
part.  So nothing is looked up outside the source as long as every list that is handed on is a slice of the
one at hand, and every end that comes back is one of its ends.  Where a converter needs to know that, or that
a token has been taken, it refuses what does not fit, with a fault that no source has.

* `Layers.checked`: converters that refuse to hand on anything but slices.
* `checked_program`: they convert every text like those without the check.
* `convert_disciplined`: nothing is refused for the tokens of any text, so every conversion ends.
-/

namespace Sharp

open Source Layers
open Logged (Alike)

variable {source : Source} {inner inner' : Converters} {expressions others tokens : List Token}
  {task : Task} {text : String}

/-! ## Slices -/

/-- The converters for slices of some tokens; what is no slice is refused at its first token. -/
def Converters.within (inner : Converters) (expressions others : List Token) : Converters where
  expressionFrom place t rest :=
    if t :: rest <:+: expressions then inner.expressionFrom place t rest else .fail (.outside t)
  statementFrom scope pending t rest :=
    if t :: rest <:+: others then inner.statementFrom scope pending t rest else .fail (.outside t)
  blockFrom scope t rest :=
    if t :: rest <:+: others then inner.blockFrom scope t rest else .fail (.outside t)

/-- The layers with a check of all that is handed on.  What an expression contains is a slice of the tokens
after its first one.  So is what a statement contains, except that an expression may have all its tokens; a
block hands on slices of all its tokens. -/
def Layers.checked (layers : Layers) : Layers where
  expression inner place ts := layers.expression (inner.within ts.tail ts.tail) place ts
  statement inner scope pending t rest := layers.statement (inner.within (t :: rest) rest) scope pending t rest
  block inner scope ts := layers.block (inner.within ts ts) scope ts

section Soundness

variable {region : List Token}

theorem Converters.SoundExpressions.within (sound : inner.SoundExpressions source region)
    (part : region <:+: expressions) : (inner.within expressions others).SoundExpressions source region := by
  intro place t rest place_sound within
  simp only [Converters.within, if_pos (within.slice.trans part)]
  exact sound place t rest place_sound within

theorem Converters.SoundStatements.within (sound : inner.SoundStatements source region)
    (part : region <:+: others) : (inner.within expressions others).SoundStatements source region := by
  intro scope pending t rest opened pending_sound within
  simp only [Converters.within, if_pos (within.slice.trans part)]
  exact sound scope pending t rest opened pending_sound within

theorem Converters.SoundBlocks.within (sound : inner.SoundBlocks source region)
    (part : region <:+: others) : (inner.within expressions others).SoundBlocks source region := by
  intro scope t rest opened within
  simp only [Converters.within, if_pos (within.slice.trans part)]
  exact sound scope t rest opened within

theorem Converters.Sound.within (sound : inner.Sound source region) (part : region <:+: expressions) :
    (inner.within expressions region).Sound source region :=
  ⟨sound.expressions.within part, sound.statements.within List.infix_rfl, sound.blocks.within List.infix_rfl⟩

theorem checked_sound (source : Source) : standard.checked.Sound source where
  expression inner_sound := (standard_sound source).expression (inner_sound.within List.infix_rfl)
  statement inner_sound expressions :=
    (standard_sound source).statement (inner_sound.within (List.suffix_cons _ _).isInfix)
      (expressions.within List.infix_rfl)
  block inner_sound := (standard_sound source).block (inner_sound.within List.infix_rfl)

end Soundness

section Agreement

theorem AgreeOn.within {P : Task → Prop} (agree : AgreeOn ⟨False, True⟩ P inner inner')
    (expressions others : List Token) : AgreeOn ⟨False, True⟩ P inner (inner'.within expressions others) := by
  intro task asked
  have alike := agree task asked
  cases task with
  | expression place t rest | statement scope pending t rest | block scope t rest =>
    simp only [Converters.result, Converters.within] at alike ⊢
    split
    · exact alike
    · exact .refuses trivial _ t

theorem checked_alike (task : Task)
    (agree : AgreeOn ⟨False, True⟩ (fun _ => True) (standard.converters task.rank)
      (standard.checked.converters task.rank)) :
    Alike ⟨False, True⟩ (standard.all.result task) (standard.checked.all.result task) := by
  have held : AgreeOn ⟨False, True⟩ task.Holds (standard.converters task.rank)
      (standard.checked.converters task.rank) := agree.mono fun _ _ => trivial
  cases task with
  | expression place t rest => exact resultWith_alike (held.within rest rest)
  | statement scope pending t rest => exact resultWith_alike (held.within (t :: rest) rest)
  | block scope t rest => exact resultWith_alike (held.within (t :: rest) (t :: rest))

/-- The check only adds refusals. -/
theorem checked_agreeOn (rank : Nat) :
    AgreeOn ⟨False, True⟩ (fun _ => True) (standard.converters rank) (standard.checked.converters rank) := by
  induction rank using Nat.strongRecOn with
  | ind rank ih =>
    intro task _
    -- What does not rank below is refused with the check as it is without.
    rw [converters, converters]
    cases task with
    | expression place t rest =>
      exact .ite (fun below => checked_alike (.expression place t rest) (ih _ below)) fun _ => .same _
    | statement scope pending t rest =>
      exact .ite (fun below => checked_alike (.statement scope pending t rest) (ih _ below)) fun _ => .same _
    | block scope t rest =>
      exact .ite (fun below => checked_alike (.block scope t rest) (ih _ below)) fun _ => .same _

end Agreement

/-! ## Sources -/

section Sources

/-- The task is one with tokens of the source. -/
def Task.Sound (source : Source) : Task → Prop
  | expression place t rest => place.Sound source ∧ source.Holds (t :: rest)
  | statement _ pending t rest => pending.Sound source ∧ source.Holds (t :: rest)
  | block _ t rest => source.Holds (t :: rest)

theorem Task.Sound.isUnhandled {layers : Layers} (sound : task.Sound source) (layers_sound : layers.Sound source)
    {fault : Fault} (failed : layers.all.result task = .fail fault) : fault.isUnhandled = false := by
  cases task with
  | expression place t rest =>
    have found := (layers_sound.all (t :: rest)).expressions place t rest sound.1 sound.2.within
    rw [show layers.all.expressionFrom place t rest = .fail fault from failed] at found
    exact Blames.isUnhandled found
  | statement scope pending t rest =>
    have drafts := (layers_sound.all (t :: rest)).statements scope pending t rest [] sound.1 sound.2.within
    rw [show layers.all.statementFrom scope pending t rest = .fail fault from failed] at drafts
    exact Blames.isUnhandled drafts
  | block scope t rest =>
    have drafts := (layers_sound.all (t :: rest)).blocks scope t rest [] (Holds.within sound)
    rw [show layers.all.blockFrom scope t rest = .fail fault from failed] at drafts
    exact Blames.isUnhandled drafts

/-- With the tokens of a source, the check refuses nothing. -/
theorem Task.Sound.checked_eq_standard (sound : task.Sound source) :
    standard.checked.all.result task = standard.all.result task := by
  have alike := checked_alike task (checked_agreeOn task.rank)
  generalize checked : standard.checked.all.result task = y at alike ⊢
  generalize standard.all.result task = x at alike ⊢
  cases alike with
  | same => rfl
  | fails h => exact h.elim
  | refuses _ _ t =>
    -- The fault of the check is none that sound converters have.
    cases sound.isUnhandled (checked_sound source) checked

end Sources

/-- What the converters do with the tokens of a source. -/
structure Source.Disciplined (source : Source) : Prop where
  /-- A statement takes at least its first token. -/
  statement : ∀ scope pending t rest statement output, pending.Sound source → source.Holds (t :: rest) →
    standard.all.statementFrom scope pending t rest = .done statement output →
    statement.rest <:+ rest
  /-- An expression ends among its tokens. -/
  expression : ∀ place ts e notes, place.Sound source → source.Holds ts →
    standard.all.expression place ts = .done e notes → e.rest <:+ ts
  /-- A type takes at least its first token. -/
  type : ∀ opts t rest type notes, source.Holds (t :: rest) →
    TypeExpr.reader.readFrom opts t rest = .done type notes → type.rest <:+ rest
  /-- Where a token is found, the parts before and after it make up the tokens that were searched. -/
  search : ∀ p form ts s, splitTop p ts = some s ∨ splitClose form ts = some s → s.toList = ts
  /-- All that is handed on is a slice of the tokens at hand, and shorter unless it is an expression in a
  statement or a statement in a block. -/
  slices : ∀ task : Task, task.Sound source → standard.checked.all.result task = standard.all.result task
  /-- No task is refused because it does not rank below the one that asks for it, a round because it takes no
  token, or an end because it is not among the tokens that it ends. -/
  inside : ∀ (task : Task) fault, task.Sound source →
    standard.all.result task = .fail fault → fault.isUnhandled = false
  /-- The parameters of a lambda start among the pieces and the tokens of its expression. -/
  marks : ∀ place t rest frame ts, place.Sound source → source.Holds (t :: rest) →
    Walks (convertToken (standard.converters (expressionRank rest.length)) place)
      (Frame.start (t :: rest)) (t :: rest) frame ts →
    frame.paramsMark ≤ frame.pieces.length ∧ ts <:+ frame.params ∧ frame.params <:+ t :: rest
  tokens : ∀ place t rest, place.Sound source → source.Holds (t :: rest) →
    Advances (convertToken (standard.converters (expressionRank rest.length)) place)
      (Frame.start (t :: rest)) (t :: rest)
  arguments : ∀ kind closer place frame before t rest ts, kind.Sound source → place.Sound source →
    before ∈ source.tokens → source.Holds (t :: rest) → ts <:+ rest →
    Advances (convertArgumentRound (standard.converters (expressionRank rest.length)) kind closer place)
      ⟨frame, before⟩ ts
  arms : ∀ blocks ts, source.Holds ts → Advances (splitArmRound blocks) [] ts
  statements : ∀ scope t rest, source.Holds (t :: rest) →
    Advances (convertBlockRound (standard.converters (blockRank rest.length))) { scope } (t :: rest)
  accessors : ∀ after ts, source.Holds (ts ++ after) → Advances (readPropAccessorRound after) [] ts
  branches : ∀ scope t rest, source.Holds (t :: rest) →
    Advances (convertIfRound (standard.converters (statementRank rest.length)) scope) "if" (t :: rest)
  handlers : ∀ scope t rest ts, source.Holds (t :: rest) → ts <:+ rest →
    Advances (convertHandlerRound (standard.converters (statementRank rest.length)) scope) ⟨false, ts⟩ ts
  usings : ∀ before ts, before ∈ source.tokens → source.Holds ts → Advances readUsingRound { before } ts

/-- The converters of every source are disciplined. -/
theorem Source.disciplined (source : Source) : source.Disciplined := by
  refine {
    statement := fun scope pending t rest statement output pending_sound holds done => ?_
    expression := fun place ts e notes place_sound holds done => ?_
    type := fun opts t rest type notes holds done => ?_
    search := fun p form ts s found => found.elim toList_of_splitTopAt toList_of_splitCloseAt
    slices := fun _ sound => sound.checked_eq_standard
    inside := fun _ _ sound failed => sound.isUnhandled (standard_sound source) failed
    marks := fun _ _ _ _ _ place_sound holds => marks_of_walks place_sound holds
    tokens := fun _ _ _ => advances_tokens
    arguments := fun _ closer _ frame _ _ _ _ kind_sound place_sound member holds suffix =>
      advances_arguments kind_sound place_sound member holds suffix closer frame
    arms := fun blocks ts holds => ?_
    statements := fun scope _ _ => advances_statements scope
    accessors := fun after ts holds => ?_
    branches := fun scope _ _ => advances_branches scope
    handlers := fun scope _ _ _ => advances_handlers scope
    usings := fun before ts member holds => ?_ }
  · have drafts := ((standard_sound source).all _).statements scope pending t rest [] pending_sound holds.within
    rw [done] at drafts
    exact drafts.1.suffix
  · have found := ((standard_sound source).all _).expressions.expression place_sound holds.within
    rw [done] at found
    exact found.1.takes.suffix
  · have found := sound_reader opts holds
    rw [done] at found
    exact found.1.1.others.suffix
  · exact advances_of_finds source (fun (arms : List Arm) rest => source.Within ts rest ∧
      ∀ arm ∈ arms, arm.Sound source ts) (fun arms => ∀ arm ∈ arms, arm.Sound source ts)
      (fun _ _ _ invariant => splitArmRound_sound invariant.1 invariant.2)
      ⟨holds.within, List.forall_mem_nil _⟩
  · exact advances_of_finds source (fun (accessors : List PropAccessor) rest =>
      source.Within (ts ++ after) (rest ++ after) ∧
        ∀ accessor ∈ accessors, accessor.Sound source (ts ++ after))
      (fun accessors => ∀ accessor ∈ accessors, accessor.Sound source (ts ++ after))
      (fun _ _ _ invariant => readPropAccessorRound_sound invariant.1 invariant.2)
      ⟨holds.within, List.forall_mem_nil _⟩
  · exact advances_of_finds source (fun state rest => source.Takes ts 0 rest ∧ state.Sound source)
      (fun entries => source.Takes ts 0 [] ∧ ∀ name ∈ entries.1, Tidy name)
      (fun _ _ _ invariant => readUsingRound_sound invariant.2 invariant.1 holds)
      ⟨.refl, member, List.forall_mem_nil _⟩

theorem checked_block (read : tokenize text = .ok tokens) :
    standard.checked.all.block .root tokens = standard.all.block .root tokens := by
  cases tokens with
  | nil => rw [Converters.block, Converters.block]
  | cons t rest =>
    have sound : (Task.block .root t rest).Sound (Source.ofTokens read) := fun _ member => member
    exact sound.checked_eq_standard

/-- The check refuses nothing in any program. -/
theorem checked_program (text : String) : standard.checked.program text = Program.ofSource text := by
  rw [Program.ofSource, program, program]
  cases read : tokenize text with
  | error fault => simp only [bind, Except.bind]
  | ok tokens => simp only [bind, Except.bind, checked_block read]

namespace Tokenized

variable {id start : Nat} {cs : List Char} {t t' : Token} {rest : List Token}
  (derivation : Tokenized id start cs tokens)
include derivation

theorem start_le (member : t ∈ tokens) : start ≤ t.start ∧ t.start ≤ t.stop := by
  induction derivation with
  | nil => cases member
  | cons nonempty scanned tail ih =>
    cases member with
    | head => exact ⟨le_rfl, Nat.le_add_right _ _⟩
    | tail _ member => exact ⟨(Nat.le_add_right _ _).trans (ih member).1, (ih member).2⟩

theorem start_le_stop (part : (t :: rest).Sublist tokens) (member : t' ∈ t :: rest) : t.start ≤ t'.stop := by
  induction derivation with
  | nil => cases part
  | cons nonempty scanned tail ih =>
    cases part with
    | cons _ part => exact ih part
    | cons_cons _ part =>
      have := (Tokenized.cons nonempty scanned tail).start_le ((part.cons_cons _).subset member)
      exact this.1.trans this.2

end Tokenized

/-- With the tokens of any text, every round and every call of a converter takes tokens, all tokens that it
takes or hands on are slices of those at hand, and a span ends behind its start.  So every conversion ends, with
an output or with a fault of the source. -/
theorem convert_disciplined (text : String) :
    (∀ tokens, (read : tokenize text = .ok tokens) → (Source.ofTokens read).Disciplined ∧
      ∀ t rest, (t :: rest).Sublist tokens → ∀ t' ∈ t :: rest, t.start ≤ t'.stop) ∧
    standard.checked.program text = Program.ofSource text ∧
    ∀ settings, (∃ output, convert settings text = .ok output) ∨
      ∃ fault, convert settings text = .error fault ∧ fault.isUnhandled = false := by
  refine ⟨fun tokens read => ⟨Source.disciplined _, fun _ _ part _ member => ?_⟩, checked_program text,
    fun settings => ?_⟩
  · exact (tokenize_eq_ok_iff.1 read).start_le_stop part member
  cases converted : convert settings text with
  | ok output => exact .inl ⟨output, rfl⟩
  | error fault =>
    have refused := Program.ofSource_of_convert converted
    exact .inr ⟨fault, rfl, Program.isUnhandled_of_ofSource refused⟩

/-- A switch with a body that goes on after its statement. -/
theorem convert_disciplined_switch :
    ∃ tokens, ∃ read : tokenize "switch x \x7b 1 => if a \x7b \x7d f(1 ~ 2); \x7d" = .ok tokens,
      (Source.ofTokens read).Disciplined := by
  obtain ⟨tokens, read, -⟩ : ∃ tokens,
      tokenize "switch x \x7b 1 => if a \x7b \x7d f(1 ~ 2); \x7d" = .ok tokens ∧ tokens.length = 29 :=
    exists_of_toOption (by decide +kernel)
  exact ⟨tokens, read, ((convert_disciplined _).1 tokens read).1⟩

end Sharp
