import Sharp.Proofs.Located

/-!
# Termination

Every round of a walk takes at least the token in front, and every converter is given fewer tokens
than the one that calls it.

* `advances_of_finds`, `advances_of_drafts`: a walk advances if its rounds keep an invariant.
* `advances_tokens`, `advances_statements` and others: the walks of the converters advance.
-/

namespace Sharp

open Source

/-! ## Rounds -/

section Rounds

variable {ω σ α : Type} {round : σ → Token → List Token → Logged ω (Step σ α)}

/-- Some rounds of a walk lead from a state and tokens to others. -/
inductive Walks (round : σ → Token → List Token → Logged ω (Step σ α)) :
    σ → List Token → σ → List Token → Prop where
  | refl {state : σ} {ts : List Token} : Walks round state ts state ts
  | next {state state' state'' : σ} {t : Token} {rest rest' ts : List Token} {log : ω}
      (went : round state t rest = .done (.next state' rest') log)
      (others : Walks round state' rest' state'' ts) : Walks round state (t :: rest) state'' ts

/-- Every round of the walk that starts here takes at least the token in front. -/
def Advances (round : σ → Token → List Token → Logged ω (Step σ α)) (state : σ) (ts : List Token) : Prop :=
  ∀ state' t rest, Walks round state ts state' (t :: rest) →
    ∀ state'' rest' log, round state' t rest = .done (.next state'' rest') log → rest' <:+ rest

section Invariants

variable [Log ω] [NoteLog ω] (source : Source) (I : σ → List Token → Prop) (P : α → Prop)
  (step : ∀ state t rest, I state (t :: rest) → source.Finds (round state t rest) (Step.Meets rest I P))
include step

theorem Walks.invariant {state state' : σ} {ts ts' : List Token} (walks : Walks round state ts state' ts')
    (start : I state ts) : I state' ts' := by
  induction walks with
  | refl => exact start
  | @next state _ _ t rest _ _ _ went _ ih =>
    have found := step state t rest start
    rw [went] at found
    exact ih found.1.2

/-- A walk advances if every round does where some property holds, and goes on where it holds. -/
theorem advances_of_finds {state : σ} {ts : List Token} (start : I state ts) : Advances round state ts := by
  intro state' t rest walks state'' rest' log went
  have found := step state' t rest (walks.invariant source I P step start)
  rw [went] at found
  exact found.1.1

end Invariants

theorem advances_of_drafts {round : σ → Token → List Token → Draft (Step σ α)} (source : Source)
    (spot : Spot) (I : σ → List Token → Multiset String → Prop) (R : α → Multiset String → Prop)
    (step : ∀ state t rest used, I state (t :: rest) used →
      source.Drafts spot (round state t rest) spot fun result used' =>
        result.Meets rest (I · · (used + used')) (R · (used + used')))
    {state : σ} {ts : List Token} {used : Multiset String} (start : I state ts used) :
    Advances round state ts := by
  refine advances_of_finds source (fun state ts => ∃ used, I state ts used) (fun _ => True)
    (fun state t rest invariant => ?_) ⟨used, start⟩
  obtain ⟨used, invariant⟩ := invariant
  have drafts := step state t rest used invariant
  cases went : round state t rest with
  | fail fault => rw [went] at drafts; exact drafts
  | done result output =>
    rw [went] at drafts
    cases result with
    | stop a => exact ⟨trivial, drafts.2.2⟩
    | next state' rest' => exact ⟨⟨drafts.1.1, _, drafts.1.2⟩, drafts.2.2⟩

end Rounds

/-! ## Converters -/

open Layers

section Discipline

variable {source : Source} {place : Place} {scope : Scope} {t before : Token} {ts rest : List Token}

section

variable (place_sound : place.Sound source) (holds : source.Holds (t :: rest))
include place_sound holds

theorem convertToken_meets (frame : Frame) (t' : Token) (rest' : List Token)
    (sound : frame.Sound source (t :: rest) (t' :: rest')) :
    source.Finds (convertToken (standard.converters (expressionRank rest.length)) place frame t' rest')
      (Step.Meets rest' (fun frame ts => frame.Sound source (t :: rest) ts) (source.Expresses place (t :: rest))) := by
  have inner_sound := ((standard_sound source).below (expressionRank rest.length)).sound le_rfl
  have within := (holds_cons.1 holds).2.within.suffix (suffix_tail sound.1.takes.suffix)
  refine (convertToken_sound inner_sound place_sound sound holds within).mono fun step step_sound => ?_
  cases step with
  | next frame rest | stop e => exact step_sound

theorem advances_tokens :
    Advances (convertToken (standard.converters (expressionRank rest.length)) place)
      (Frame.start (t :: rest)) (t :: rest) :=
  advances_of_finds source _ _ (convertToken_meets place_sound holds) (sound_start source _)

/-- The places that the frame of an expression remembers are among its pieces and its tokens. -/
theorem marks_of_walks {frame : Frame}
    (walks : Walks (convertToken (standard.converters (expressionRank rest.length)) place)
      (Frame.start (t :: rest)) (t :: rest) frame ts) :
    frame.paramsMark ≤ frame.pieces.length ∧ ts <:+ frame.params ∧ frame.params <:+ t :: rest := by
  have sound := walks.invariant source _ _ (convertToken_meets place_sound holds) (sound_start source _)
  exact ⟨sound.2.1.le, sound.2.1.suffix, sound.2.1.takes.suffix⟩

end

theorem advances_arguments {kind : ArgumentKind} (kind_sound : kind.Sound source)
    (place_sound : place.Sound source) (member : before ∈ source.tokens)
    (holds : source.Holds (t :: rest)) (suffix : ts <:+ rest) (closer : String) (frame : Frame) :
    Advances (convertArgumentRound (standard.converters (expressionRank rest.length)) kind closer place)
      ⟨frame, before⟩ ts := by
  have inner_sound := (((standard_sound source).below (expressionRank rest.length)).sound le_rfl).expressions
  have within := (holds_cons.1 holds).2.within
  refine advances_of_finds source (fun state ts => state.before ∈ source.tokens ∧ ts <:+ rest)
    (fun _ => True) ?_ ⟨member, suffix⟩
  rintro state first more ⟨member, suffix⟩
  have first_within := within.suffix suffix
  refine .bind (convertArgument_sound inner_sound kind_sound place_sound
    (Frame.Grows.refl source state.frame (first :: more)) member first_within) fun arg converted => ?_
  obtain ⟨arg, rest'⟩ := arg
  obtain ⟨-, taken, -⟩ := converted
  cases rest' with
  | nil => exact .pure trivial
  | cons t' rest' =>
    refine .ite (fun _ => .pure ⟨suffix_tail taken, (first_within.suffix taken).head, ?_⟩) fun _ =>
      .pure trivial
    exact (List.suffix_cons t' rest').trans (taken.trans suffix)

section

variable (scope : Scope) (holds : source.Holds (t :: rest))
include holds

theorem advances_statements : Advances (convertBlockRound (standard.converters (blockRank rest.length))) { scope }
      (t :: rest) := by
  have same : 3 * (t :: rest).length < blockRank rest.length + 2 := by
    rw [blockRank, List.length_cons]
    omega
  have inner_sound := ((standard_sound source).below (blockRank rest.length)).statements _ same
  exact advances_of_drafts source ⟨.quiet, []⟩
    (fun (state : BlockState) ts used => state.Takes source (t :: rest) ts used)
    (fun _ used => source.Takes (t :: rest) used [])
    (fun _ _ _ _ taken => convertBlockRound_sound inner_sound holds.within taken)
    ⟨.refl, Modifiers.sound_empty⟩

theorem advances_branches : Advances (convertIfRound (standard.converters (statementRank rest.length)) scope) "if"
      (t :: rest) := by
  have inner_sound := ((standard_sound source).below (statementRank rest.length)).sound (Nat.le_succ _)
  obtain ⟨member, rest_holds⟩ := holds_cons.1 holds
  refine advances_of_drafts source ⟨.quiet, []⟩ (InBranches source rest)
    (fun after used => source.Takes rest used after) ?_ ⟨by decide, t, rest, rfl, member, .refl⟩
  rintro words t more used ⟨words_tidy, _, _, same, member, taken⟩
  obtain ⟨rfl, rfl⟩ := List.cons.inj same
  exact convertIfRound_sound inner_sound words_tidy member rest_holds.within taken

theorem advances_handlers (suffix : ts <:+ rest) :
    Advances (convertHandlerRound (standard.converters (statementRank rest.length)) scope) ⟨false, ts⟩ ts := by
  have inner_sound := ((standard_sound source).below (statementRank rest.length)).sound (Nat.le_succ _)
  have within := (holds_cons.1 holds).2.within.suffix suffix
  exact advances_of_drafts source ⟨.quiet, []⟩
    (fun (handled : Handled) rest used => handled.Takes source ts rest used)
    (fun (handled : Handled) used => source.Takes ts used handled.rest)
    (fun _ _ _ _ taken => convertHandlerRound_sound inner_sound within taken) ⟨.refl, .refl⟩

end

end Discipline

end Sharp
