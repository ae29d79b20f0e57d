import Sharp.Proofs.ArmPartition
import Sharp.Proofs.BuiltFrames
import Sharp.Proofs.RedundantParentheses

/-!
# Blanks and comments in expressions

Blanks and comments in an expression change nothing, except next to the few marks and words that look at the
token right after them or at the end of their line.

* `expression_significant`: in brackets, an expression without those is converted as if it had no blanks and
  comments.
-/

namespace Sharp

open Layers Source Token

variable {t : Token} {ts rest : List Token} {s head : Split} {arms : List Arm}

/-! ## Computations -/

/-- The computations fail alike, or they log the same and their values are related. -/
inductive Logged.Matches {ω α β : Type} (R : α → β → Prop) : Logged ω α → Logged ω β → Prop where
  | fail (fault : Fault) : Matches R (.fail fault) (.fail fault)
  | done {a : α} {b : β} (related : R a b) (log : ω) : Matches R (.done a log) (.done b log)

namespace Logged.Matches

variable {ω α β γ δ : Type} {R : α → β → Prop} {S : γ → δ → Prop} {x : Logged ω α} {y : Logged ω β}

theorem eq {x y : Logged ω α} (alike : Matches Eq x y) : x = y := by
  cases alike with
  | fail fault => rfl
  | done related log => rw [related]

theorem same (x : Logged ω α) : Matches Eq x x := by
  cases x with
  | fail fault => exact .fail fault
  | done a log => exact .done rfl log

theorem ite {c : Prop} [Decidable c] {x' : Logged ω α} {y' : Logged ω β} (yes : c → Matches R x y)
    (no : ¬ c → Matches R x' y') : Matches R (if c then x else x') (if c then y else y') := by
  by_cases holds : c
  · simpa only [if_pos holds] using yes holds
  · simpa only [if_neg holds] using no holds

theorem ensuring {P : α → Prop} (alike : Matches R x y) (ensures : x.Ensures P) :
    Matches (fun a b => P a ∧ R a b) x y := by
  cases alike with
  | fail fault => exact .fail fault
  | done related log => exact .done ⟨ensures _ _ rfl, related⟩ log

variable [Log ω]

theorem pure {a : α} {b : β} (related : R a b) : Matches R (Pure.pure a : Logged ω α) (Pure.pure b) :=
  .done related _

theorem after (alike : Matches R x y) (log : ω) : Matches R (x.after log) (y.after log) := by
  cases alike with
  | fail fault => exact .fail fault
  | done related log' => exact .done related _

theorem bind {f : α → Logged ω γ} {g : β → Logged ω δ} (first : Matches R x y)
    (second : ∀ a b, R a b → Matches S (f a) (g b)) : Matches S (x >>= f) (y >>= g) := by
  cases first with
  | fail fault => exact .fail fault
  | done related log => exact (second _ _ related).after log

theorem next {x y : Logged ω α} {f : α → Logged ω γ} {g : α → Logged ω δ} (first : x = y)
    (second : ∀ a, Matches S (f a) (g a)) : Matches S (x >>= f) (y >>= g) := by
  subst first
  exact bind (same x) fun a _ same => same ▸ second a

end Logged.Matches

open Logged (Matches)

/-! ## Walks -/

/-- The rounds end alike, or they go on alike: the second has no blanks and comments in front of it. -/
def Step.Strips {σ α : Type} (I : σ → σ → List Token → Prop) (R : α → α → Prop) (rest : List Token) :
    Step σ α → Step σ α → Prop
  | .next state ts, .next state' ts' => ts <:+ rest ∧ ts' = significant ts ∧ I state state' ts
  | .stop a, .stop b => R a b
  | _, _ => False

/-- A walk that skips blanks and comments does without them what it does with them, if its other rounds do. -/
theorem walk_significant {ω σ α : Type} [Log ω] {round round' : σ → Token → List Token → Logged ω (Step σ α)}
    {finish finish' : σ → Logged ω α} (I : σ → σ → List Token → Prop) {R : α → α → Prop} {whole : List Token}
    (skips : ∀ state state' t rest, t.isTrivia = true → I state state' (t :: rest) →
      round state t rest = pure (.next state rest) ∧ I state state' rest)
    (step : ∀ state state' t rest, t.isTrivia = false → t :: rest <:+ whole → I state state' (t :: rest) →
      Matches (Step.Strips I R rest) (round state t rest) (round' state' t (significant rest)))
    (ends : ∀ state state', I state state' [] → Matches R (finish state) (finish' state')) {state state' : σ}
    (inside : ts <:+ whole) (start : I state state' ts) :
    Matches R (walk round finish state ts) (walk round' finish' state' (significant ts)) := by
  induction state, ts using walk.induct generalizing state' with
  | case1 state =>
    rw [significant, List.filter_nil, walk_nil, walk_nil]
    exact ends state state' start
  | case2 state t rest ih =>
    have later := (List.suffix_cons t rest).trans inside
    by_cases trivia : t.isTrivia = true
    · obtain ⟨skipped, kept⟩ := skips state state' t rest trivia start
      have shorter : rest.length < (t :: rest).length := Nat.lt_succ_self _
      rw [walk_cons, skipped, pure_bind, significant_cons_of_isTrivia trivia]
      simpa only [if_pos shorter] using ih state rest shorter later kept
    · have meaning := Bool.eq_false_iff.2 trivia
      rw [significant_cons meaning, walk_cons, walk_cons]
      refine .bind (step state state' t rest meaning inside start) fun flow flow' strips => ?_
      cases flow with
      | stop a =>
        cases flow' with
        | stop b => exact .pure strips
        | next => exact strips.elim
      | next next ts =>
        cases flow' with
        | stop b => exact strips.elim
        | next next' ts' =>
          obtain ⟨suffix, rfl, kept⟩ := strips
          have shorter : ts.length < (t :: rest).length := Nat.lt_succ_of_le suffix.length_le
          have shorter' : (significant ts).length < (t :: significant rest).length :=
            Nat.lt_succ_of_le (suffix.sublist.filter _).length_le
          simpa only [if_pos shorter, if_pos shorter'] using ih next ts shorter (suffix.trans later) kept

/-! ## Tokens -/

section Tokens

variable {form : BracketForm} {p : Token → Bool} {first : Token} {more : List Token}

theorem splitCloseAt_significant (depth : Nat) (ts : List Token) :
    splitCloseAt form depth (significant ts) = (splitCloseAt form depth ts).map Split.stripped := by
  induction ts generalizing depth with
  | nil => rfl
  | cons t ts ih =>
    by_cases trivia : t.isTrivia = true
    · rw [significant_cons_of_isTrivia trivia, ih,
        splitCloseAt_other (isOp_of_isTrivia trivia _) (isOp_of_isTrivia trivia _), Option.map_map]
      exact congrArg (Option.map · _) (stripped_cons_of_isTrivia trivia).symm
    · have meaning := Bool.eq_false_iff.2 trivia
      rw [significant_cons meaning]
      simp only [splitCloseAt, ih]
      split
      · simp [stripped_cons meaning]
      · split
        · cases depth <;> simp [stripped_cons meaning, Split.stripped, significant]
        · simp [stripped_cons meaning]

theorem splitClose_significant (ts : List Token) :
    splitClose form (significant ts) = (splitClose form ts).map Split.stripped :=
  splitCloseAt_significant 0 ts

theorem significant_append (ts rest : List Token) : significant (ts ++ rest) = significant ts ++ significant rest :=
  List.filter_append ts rest

theorem significant_eq_self (meaning : ∀ t ∈ ts, t.isTrivia = false) : significant ts = ts :=
  List.filter_eq_self.2 fun t member => by simp [meaning t member]

theorem isTrivia_of_mem_significant (member : t ∈ significant ts) : t.isTrivia = false := by
  simpa [significant] using (List.mem_filter.1 member).2

@[simp] theorem significant_significant (ts : List Token) : significant (significant ts) = significant ts :=
  significant_eq_self fun _ => isTrivia_of_mem_significant

theorem skipTrivia_eq_self (meaning : ∀ t ∈ ts, t.isTrivia = false) : skipTrivia ts = ts := by
  cases ts with
  | nil => rfl
  | cons t ts => simp [skipTrivia, meaning t List.mem_cons_self]

@[simp] theorem skipTrivia_significant (ts : List Token) : skipTrivia (significant ts) = significant ts :=
  skipTrivia_eq_self fun _ => isTrivia_of_mem_significant

@[simp] theorem significant_skipTrivia (ts : List Token) : significant (skipTrivia ts) = significant ts := by
  have parts := congrArg significant (List.takeWhile_append_dropWhile (p := isTrivia) (l := ts))
  have nothing : significant (ts.takeWhile isTrivia) = [] :=
    List.filter_eq_nil_iff.2 fun t member => by simp [List.mem_takeWhile_imp member]
  rwa [significant_append, nothing] at parts

theorem isTrivia_of_skipTrivia (starts : skipTrivia ts = first :: more) : first.isTrivia = false := by
  have head := List.head?_dropWhile_not isTrivia ts
  rw [← skipTrivia, starts] at head
  simpa using head

/-- What is in front and carries meaning is in front without blanks and comments too. -/
theorem significant_of_skipTrivia (starts : skipTrivia ts = first :: more) :
    significant ts = first :: significant more := by
  rw [← significant_skipTrivia, starts, significant_cons (isTrivia_of_skipTrivia starts)]

theorem dropSignificant_significant (count : Nat) (ts : List Token) :
    skipTrivia (dropSignificant count (significant ts)) = significant (dropSignificant count ts) := by
  fun_induction dropSignificant count ts with
  | case1 ts => simp [dropSignificant]
  | case2 count _ => cases count <;> rfl
  | case3 count t ts trivia ih => rwa [significant_cons_of_isTrivia trivia]
  | case4 count t ts meaning ih =>
    rw [significant_cons (by simpa using meaning), dropSignificant, if_neg meaning]
    exact ih

theorem splitTop_significant (others : ∀ t, t.isTrivia = true → p t = false) (ts : List Token) :
    splitTop p (significant ts) = (splitTop p ts).map Split.stripped :=
  splitTopAt_significant others 0 ts

theorem holdsOneTuple_significant (ts : List Token) : holdsOneTuple (significant ts) = holdsOneTuple ts := by
  have commas (t : Token) (trivia : t.isTrivia = true) : (t.isOp "," || t.isAssignment) = false := by
    simp [isOp_of_isTrivia trivia, isAssignment, isOpIn_of_isTrivia trivia]
  rw [holdsOneTuple, holdsOneTuple, hasTop_significant commas, hasTop_isOp_significant]

theorem isDoubled_significant (ts : List Token) : isDoubled (significant ts) = isDoubled ts := by
  unfold isDoubled
  rw [skipTrivia_significant]
  cases starts : skipTrivia ts with
  | nil => rw [← significant_skipTrivia, starts]; rfl
  | cons first more =>
    rw [significant_of_skipTrivia starts]
    dsimp only
    rw [splitClose_significant]
    cases splitClose .parenthesis more <;> simp [Split.stripped, holdsOneTuple_significant]

end Tokens

/-! ## Frames -/

/-- The frame without blanks and comments among the tokens that it remembers. -/
def Frame.stripped (frame : Frame) : Frame := { frame with params := significant frame.params }

section Frames

variable {place : Place} {frame frame' : Frame} {inner inner' : Converters}

theorem Frame.closeTuple_stripped (frame : Frame) (place : Place) :
    frame.stripped.closeTuple place = (frame.closeTuple place).stripped := by
  rw [closeTuple_eq, closeTuple_eq]
  rfl

theorem Frame.openTuple_stripped (frame : Frame) (place : Place) :
    frame.stripped.openTuple place = (frame.openTuple place).stripped := by
  obtain ⟨pieces, isConst, segment, tuple, params, paramsMark⟩ := frame
  cases tuple with
  | none => by_cases lent : place.lendsParens ∧ segment = 0 <;> simp [openTuple, stripped, insertOpening, lent]
  | own => rfl
  | lent => rfl

theorem Frame.addSlots_stripped (frame : Frame) (place : Place) (slots : List Slot) :
    frame.stripped.addSlots place slots = (frame.addSlots place slots).stripped := by
  fun_induction Frame.addSlots frame place slots with
  | case1 => rfl
  | case2 => rfl
  | case3 frame slot slots several ih =>
    rw [← ih]
    cases slots with
    | nil => exact absurd rfl several
    | cons next slots => rfl

/-- The second round does without blanks and comments what the first one does. -/
abbrev Flow.Strips (rest : List Token) : Flow → Flow → Prop :=
  Step.Strips (fun frame frame' ts => frame' = frame.stripped ∧ ts <:+ frame.params) Eq rest

theorem Flow.Strips.keep (started : t :: rest <:+ frame.params) (params : frame'.params = frame.params)
    (suffix : ts <:+ rest) : Flow.Strips rest (.next frame' ts) (.next frame'.stripped (significant ts)) :=
  ⟨suffix, rfl, rfl, params ▸ suffix.trans ((List.suffix_cons t rest).trans started)⟩

theorem Flow.Strips.mark (frame : Frame) (rest : List Token) : Flow.Strips rest (.next (frame.markParams rest) rest)
    (.next (frame.stripped.markParams (significant rest)) (significant rest)) :=
  ⟨List.suffix_rfl, rfl, rfl, List.suffix_rfl⟩

/-- What stands in brackets among the tokens is converted the same without blanks and comments. -/
def Converters.Strips (inner inner' : Converters) (whole : List Token) : Prop :=
  ∀ place ts, place.mode = .group → ts <:+: whole → inner.expression place ts = inner'.expression place (significant ts)

end Frames

/-! ## Rounds -/

section Rounds

variable {place : Place} {frame : Frame} {inner inner' : Converters} (strips : inner.Strips inner' rest)
  (started : t :: rest <:+ frame.params)

theorem before_of_split (whole : ts = s.before ++ s.found :: s.after) : s.before <:+: ts :=
  ⟨[], s.found :: s.after, by simp [whole]⟩

include strips started

theorem convertGroup_strips : Matches (Flow.Strips rest) (convertGroup inner place frame t rest)
    (convertGroup inner' place frame.stripped t (significant rest)) := by
  unfold convertGroup
  rw [splitClose_significant]
  cases split : splitClose .parenthesis rest with
  | none => exact .fail _
  | some s =>
    have inside := before_of_split (eq_of_splitClose split)
    have suffix := suffix_of_split (eq_of_splitClose split)
    simp only [Option.map_some, Split.stripped, isDoubled_significant, holdsOneTuple_significant]
    refine .ite (fun _ => ?_) fun _ => ?_
    · exact .next (strips _ _ rfl inside) fun e => .pure (.keep started rfl suffix)
    · exact .next (strips _ _ rfl inside) fun e => .pure (.keep started rfl suffix)

theorem convertBraces_strips : Matches (Flow.Strips rest) (convertBraces inner place frame t rest)
    (convertBraces inner' place frame.stripped t (significant rest)) := by
  unfold convertBraces
  rw [splitClose_significant]
  cases split : splitClose .brace rest with
  | none => exact .fail _
  | some s =>
    refine .next (strips _ _ rfl (before_of_split (eq_of_splitClose split))) fun e => .pure ?_
    exact .keep started rfl (suffix_of_split (eq_of_splitClose split))

omit strips

theorem convertPlainOperator_strips : Matches (Flow.Strips rest) (convertPlainOperator place frame t rest)
    (convertPlainOperator place frame.stripped t (significant rest)) := by
  unfold convertPlainOperator
  refine .ite (fun _ => .next rfl fun _ => .pure ?_) fun _ => .pure ?_
  · rw [Frame.closeTuple_stripped]
    exact .mark _ rest
  · split
    · exact .keep started rfl List.suffix_rfl
    · exact .mark _ rest

omit started

theorem convertComma_strips (group : place.mode = .group) :
    Flow.Strips rest (.next (convertComma place frame rest) rest)
      (.next (convertComma place frame.stripped (significant rest)) (significant rest)) := by
  simp only [convertComma, group, if_true, Frame.closeTuple_stripped]
  exact .mark _ rest

theorem convertConnector_strips : Matches (Flow.Strips rest) (convertConnector place frame t rest)
    (convertConnector place frame.stripped t (significant rest)) := by
  refine .next rfl fun _ => .pure ?_
  have opened := frame.vary.openTuple_stripped place
  rw [show frame.stripped.vary = frame.vary.stripped from rfl, opened]
  exact .mark _ rest

theorem convertParams_strips (head : Token) (more : List Token) :
    Matches (fun frame frame' => frame' = frame.stripped) (convertParams place frame head more)
      (convertParams place frame.stripped head more) := by
  unfold convertParams
  refine .ite (fun _ => .next rfl fun slots => .pure ?_) fun _ => .ite (fun _ => .pure rfl) fun _ => .pure rfl
  have added := ((frame.truncate frame.paramsMark).operator place "(").addSlots_stripped place slots
  exact congrArg (Frame.operator · place ")") added

include started in
/-- A lambda whose body does not stand in braces. -/
theorem convertLambda_strips (meaning : t.isTrivia = false)
    (bare : ∀ first ∈ nextSignificant? rest, first.isOp "\x7b" = false) :
    Matches (Flow.Strips rest) (convertLambda inner place frame t rest)
      (convertLambda inner' place frame.stripped t (significant rest)) := by
  obtain ⟨params, parts⟩ := started
  have parts' : frame.stripped.params = significant params ++ t :: significant rest := by
    rw [Frame.stripped, ← parts, significant_append, significant_cons meaning]
  unfold convertLambda
  refine .next rfl fun _ => ?_
  rw [← parts, parts', tokensBefore_append, tokensBefore_append, pure_bind, pure_bind, significant_significant]
  cases significant params with
  | nil => exact .fail _
  | cons head more =>
    refine .bind (convertParams_strips head more) fun frame _ same => ?_
    subst same
    have goesOn := Flow.Strips.mark (frame.operator place "=>").markSegment rest
    rw [skipTrivia_significant]
    cases starts : skipTrivia rest with
    | nil =>
      have none : significant rest = [] := by rw [← significant_skipTrivia, starts]; rfl
      rw [none] at goesOn ⊢
      exact .pure goesOn
    | cons first body =>
      have other : first.isOp "\x7b" = false := bare first (by simp [nextSignificant?, starts])
      rw [significant_of_skipTrivia starts] at goesOn ⊢
      simp only [other, Bool.not_false, if_true]
      exact .pure goesOn

include started

theorem convertFunctionType_strips (meaning : t.isTrivia = false) :
    Matches (Flow.Strips rest) (convertFunctionType frame t rest)
      (convertFunctionType frame.stripped t (significant rest)) := by
  unfold convertFunctionType
  simp only [significant_cons meaning, significant_significant]
  refine .next rfl fun type => .next rfl fun used => ?_
  cases used with
  | nil => exact .fail _
  | cons _ used =>
    simp only [dropSignificant_significant, ← significant_skipTrivia (dropSignificant used.length rest)]
    exact .pure (.keep started rfl ((skipTrivia_suffix _).trans (dropSignificant_suffix _ _)))

theorem convertNewType_strips : Matches (Flow.Strips rest) (convertNewType frame t rest)
    (convertNewType frame.stripped t (significant rest)) := by
  have unchanged : Flow.Strips rest (.next frame rest) (.next frame.stripped (significant rest)) :=
    .keep started rfl List.suffix_rfl
  unfold convertNewType
  rw [skipTrivia_significant]
  cases starts : skipTrivia rest with
  | nil =>
    have none : significant rest = [] := by rw [← significant_skipTrivia, starts]; rfl
    rw [none] at unchanged ⊢
    exact .pure unchanged
  | cons first more =>
    have suffix : first :: more <:+ rest := starts ▸ skipTrivia_suffix rest
    have meaning := isTrivia_of_skipTrivia starts
    rw [significant_of_skipTrivia starts] at unchanged ⊢
    refine .ite (fun _ => .pure unchanged) fun _ => ?_
    rw [← significant_cons meaning, splitTop_significant fun _ trivia => isOpIn_of_isTrivia trivia _]
    cases split : splitTop (·.isOpIn newTypeEnds) (first :: more) with
    | some s =>
      have ends : s.found.isTrivia = false := Bool.eq_false_iff.2 fun trivia => by
        simpa [isOpIn_of_isTrivia trivia] using found_of_splitTopAt split
      simp only [Option.map_some, Split.stripped, significant_significant, ← significant_cons ends]
      refine .next rfl fun type => .pure (.keep started rfl ?_)
      rw [eq_of_splitTop split] at suffix
      exact (List.suffix_append _ _).trans suffix
    | none =>
      simp only [Option.map_none, significant_significant]
      exact .next rfl fun type => .pure (.keep started rfl List.nil_suffix)

end Rounds

/-! ## Switches -/

section Switches

variable {place : Place} {frame : Frame} {inner inner' : Converters} {closing : Token} {whole : List Token}

def SwitchParts.stripped (parts : SwitchParts) : SwitchParts :=
  { parts with
    subject := significant parts.subject
    inside := significant parts.inside
    after := significant parts.after }

theorem splitSwitch_significant (t : Token) (ts : List Token) :
    splitSwitch t (significant ts) = (splitSwitch t ts).map SwitchParts.stripped := by
  unfold splitSwitch
  rw [splitTop_significant fun _ trivia => isOp_of_isTrivia trivia _]
  cases splitTop (·.isOp "\x7b") ts with
  | none => rfl
  | some head =>
    simp only [Option.map_some, Split.stripped, significant_significant, splitClose_significant]
    split
    · rfl
    · cases splitClose .brace head.after <;> rfl

def Arm.stripped (arm : Arm) : Arm :=
  { arm with pattern := significant arm.pattern, body := significant arm.body }

theorem splitArmBody_significant {first : Token} {more : List Token} (meaning : first.isTrivia = false) :
    splitArmBody false head.stripped first (significant more) =
      (splitArmBody false head first more).map fun arm => ⟨arm.value.stripped, significant arm.rest⟩ := by
  unfold splitArmBody
  rw [← significant_cons meaning, splitTop_significant fun _ trivia => by
    simp [isArmSeparator, isOp_of_isTrivia trivia]]
  simp only [Bool.false_and, Bool.false_eq_true, if_false]
  split
  · rfl
  · cases splitTop isArmSeparator (first :: more) <;> rfl

theorem splitArmRound_strips {first : Token} {more : List Token} (meaning : first.isTrivia = false) :
    Matches (Step.Strips (fun arms arms' _ => arms' = arms.map Arm.stripped)
        (fun arms arms' => arms' = arms.map Arm.stripped) more)
      (splitArmRound false arms first more) (splitArmRound false (arms.map Arm.stripped) first (significant more)) := by
  unfold splitArmRound
  refine .ite (fun _ => .pure ⟨List.suffix_rfl, rfl, rfl⟩) fun _ => ?_
  rw [← significant_cons meaning, splitTop_significant fun _ trivia => isOp_of_isTrivia trivia _]
  cases split : splitTop (·.isOp "=>") (first :: more) with
  | none => exact .fail _
  | some head =>
    have parts := eq_of_splitTop split
    have after : skipTrivia head.stripped.after = significant head.after := skipTrivia_significant _
    have empty : head.stripped.before.isEmpty = head.before.isEmpty := by
      rw [Split.stripped]
      cases before : head.before with
      | nil => rfl
      | cons t front =>
        rw [before] at parts
        obtain ⟨rfl, -⟩ := List.cons.inj parts
        rw [significant_cons meaning]
        rfl
    refine .next rfl fun _ => ?_
    simp only [empty, after]
    refine .ite (fun _ => .fail _) fun nonempty => ?_
    cases starts : skipTrivia head.after with
    | nil =>
      rw [← significant_skipTrivia, starts]
      exact .fail _
    | cons bodyFirst bodyMore =>
      rw [significant_of_skipTrivia starts]
      dsimp only
      rw [splitArmBody_significant (isTrivia_of_skipTrivia starts)]
      cases armBody : splitArmBody false head bodyFirst bodyMore with
      | error fault => exact .fail fault
      | ok arm =>
        refine .pure ⟨?_, rfl, by simp⟩
        obtain ⟨-, -, -, enclosed, -, taken⟩ := splitArmBody_partitioned armBody
        have left : arm.rest <:+ bodyFirst :: bodyMore := ⟨enclosed ++ arm.value.separator.toList, by simp [taken]⟩
        rw [← starts] at left
        exact (left.trans (skipTrivia_suffix _)).trans (after_suffix_of_split parts (by simpa using nonempty))

theorem splitArms_strips (ts : List Token) :
    Matches (fun arms arms' => arms' = arms.map Arm.stripped) (splitArms false ts)
      (splitArms false (significant ts)) := by
  refine walk_significant (fun arms arms' _ => arms' = arms.map Arm.stripped) ?_ ?_
    (fun arms arms' same => .pure same) List.suffix_rfl rfl
  · intro arms arms' t rest trivia same
    simp [splitArmRound, trivia, same]
  · rintro arms _ first more meaning - rfl
    exact splitArmRound_strips meaning

/-- The tokens of an arm are among those in the braces. -/
theorem Partitioned.within {blocks : Bool} (partitioned : Partitioned blocks ts arms) :
    ∀ arm ∈ arms, arm.pattern <:+: ts ∧ arm.body <:+: ts := by
  have longer {ts : List Token} (used : List Token) {arm : Arm} (both : arm.pattern <:+: ts ∧ arm.body <:+: ts) :
      arm.pattern <:+: ts ++ used ∧ arm.body <:+: ts ++ used :=
    both.imp (·.trans (List.prefix_append ts used).isInfix) (·.trans (List.prefix_append ts used).isInfix)
  induction partitioned with
  | nil => exact List.forall_mem_nil _
  | between _ _ ih => exact fun arm member => longer _ (ih arm member)
  | @arm arm ts used arms _ written ih =>
    refine List.forall_mem_append.2 ⟨fun arm member => longer _ (ih arm member), List.forall_mem_singleton.2 ?_⟩
    obtain ⟨blank, body, rfl, -, encloses⟩ := written.parts
    refine ⟨⟨ts, arm.arrow :: (blank ++ body), by simp⟩, ?_⟩
    unfold Arm.Encloses at encloses
    split at encloses
    · obtain ⟨-, opening, closing, -, -, rfl⟩ := encloses
      exact ⟨ts ++ arm.pattern ++ arm.arrow :: blank ++ [opening], [closing], by simp⟩
    · obtain ⟨rfl, -⟩ := encloses
      exact ⟨ts ++ arm.pattern ++ arm.arrow :: blank, [], by simp⟩

theorem convertArms_strips (closing : Token) (arms : List Arm) (strips : inner.Strips inner' whole)
    (inside : ∀ arm ∈ arms, arm.pattern <:+: whole ∧ arm.body <:+: whole) (frame : Frame) :
    Matches (fun frame₁ frame₂ => frame₂ = frame₁.stripped ∧ frame₁.params = frame.params)
      (convertArms inner place closing frame arms)
      (convertArms inner' place closing frame.stripped (arms.map Arm.stripped)) := by
  induction arms generalizing frame with
  | nil => exact .pure ⟨rfl, rfl⟩
  | cons arm arms ih =>
    obtain ⟨⟨pattern, body⟩, others⟩ := List.forall_mem_cons.1 inside
    refine .bind (R := fun frame₁ frame₂ => frame₂ = frame₁.stripped ∧ frame₁.params = frame.params) ?_ ?_
    · exact .next (strips _ _ rfl pattern) fun _ => .next (strips _ _ rfl body) fun _ => .pure ⟨rfl, rfl⟩
    · rintro frame' _ ⟨rfl, same⟩
      exact same ▸ ih others frame'

theorem convertSwitchExpression_strips (strips : inner.Strips inner' rest) (started : t :: rest <:+ frame.params) :
    Matches (Flow.Strips rest) (convertSwitchExpression inner place frame t rest)
      (convertSwitchExpression inner' place frame.stripped t (significant rest)) := by
  unfold convertSwitchExpression
  refine .next rfl fun _ => ?_
  rw [splitSwitch_significant]
  cases split : splitSwitch t rest with
  | error fault => exact .fail fault
  | ok parts =>
    have parted := eq_of_splitSwitch split
    have subject : parts.subject <:+: rest := ⟨[], _, parted.symm⟩
    have inside : parts.inside <:+: rest :=
      ⟨parts.subject ++ [parts.opening], parts.closing :: parts.after, by simp [parted]⟩
    refine .next (strips _ _ rfl subject) fun e => .bind ((splitArms_strips parts.inside).ensuring
      (splitArms_ensures false parts.inside)) fun arms _ armed => ?_
    obtain ⟨partitioned, rfl⟩ := armed
    have within := fun arm member => (partitioned.within arm member).imp (·.trans inside) (·.trans inside)
    refine .bind (convertArms_strips _ arms strips within _) fun frame' _ kept => ?_
    obtain ⟨rfl, params⟩ := kept
    exact .pure (.keep started params (suffix_of_splitSwitch split))

end Switches

/-! ## Expressions -/

/-- Does a lambda with a block start here? -/
def startsBlockLambda : List Token → Bool
  | [] => false
  | t :: rest => t.isOp "=>" && startsWithOp "\x7b" (skipTrivia rest)

/-- Nothing in the tokens of an expression looks at the token right after it or at the end of its line, and there
are no blocks. -/
structure LayoutFree (ts : List Token) : Prop where
  marks : ∀ t ∈ ts, t.isOp "#" = false ∧ t.isOp "@" = false
  words : ∀ t ∈ ts, ∀ word ∈ methodWords, t.isKeyword word = false
  lambdas : ∀ rest, rest <:+ ts → startsBlockLambda rest = false

section Expressions

variable {place : Place} {frame : Frame} {inner inner' : Converters}

/-- What follows a lambda does not matter to how it starts. -/
theorem startsBlockLambda_append (starts : startsBlockLambda ts = true) (after : List Token) :
    startsBlockLambda (ts ++ after) = true := by
  cases ts with
  | nil => cases starts
  | cons t rest =>
    obtain ⟨arrow, braced⟩ := Bool.and_eq_true_iff.1 starts
    cases skipped : skipTrivia rest with
    | nil => simp [skipped, startsWithOp] at braced
    | cons first more =>
      rw [skipped] at braced
      have skipped' : skipTrivia (rest ++ after) = first :: (more ++ after) := by
        rw [skipTrivia, List.dropWhile_append, ← skipTrivia, skipped]
        rfl
      simpa [startsBlockLambda, arrow, skipped', startsWithOp] using braced

theorem LayoutFree.inside (free : LayoutFree ts) (within : rest <:+: ts) : LayoutFree rest := by
  refine ⟨fun t member => free.marks t (within.subset member), fun t member => free.words t (within.subset member),
    fun back suffix => Bool.eq_false_iff.2 fun starts => ?_⟩
  obtain ⟨front, after, rfl⟩ := within
  obtain ⟨before, rfl⟩ := suffix
  have none := free.lambdas (back ++ after) ⟨front ++ before, by simp⟩
  rw [startsBlockLambda_append starts] at none
  cases none

section Keywords

variable (strips : inner.Strips inner' rest) (started : t :: rest <:+ frame.params) (meaning : t.isTrivia = false)

include started

theorem convertPlainKeyword_strips : Matches (Flow.Strips rest) (convertPlainKeyword frame t rest)
    (convertPlainKeyword frame.stripped t (significant rest)) := by
  unfold convertPlainKeyword
  refine .ite (fun _ => .next rfl fun _ => .pure (.mark _ rest)) fun _ => .ite (fun _ => .pure (.mark _ rest)) fun _ => ?_
  exact .pure (.keep started rfl List.suffix_rfl)

include strips meaning

theorem convertKeyword_strips (other : t.text ∉ methodWords) : Matches (Flow.Strips rest)
    (convertKeyword inner place frame t rest) (convertKeyword inner' place frame.stripped t (significant rest)) := by
  have varied : t :: rest <:+ frame.vary.params := started
  unfold convertKeyword
  refine .ite (fun _ => .pure (.keep started rfl List.suffix_rfl)) fun _ => .ite (fun _ => .fail _) fun _ =>
    .ite (fun listed => absurd (by simpa using listed) other) fun _ => ?_
  split
  · exact convertFunctionType_strips varied meaning
  · exact convertSwitchExpression_strips strips varied
  · exact @convertNewType_strips t rest (frame.vary.word "new") varied
  · exact .pure (.mark _ rest)
  · exact .pure (.mark _ rest)
  · exact convertPlainKeyword_strips varied

theorem convertOperator_strips (group : place.mode = .group) (noIndex : t.text ≠ "#") (noMark : t.text ≠ "@")
    (bare : t.text = "=>" → ∀ first ∈ nextSignificant? rest, first.isOp "\x7b" = false) :
    Matches (Flow.Strips rest) (convertOperator inner place frame t rest)
      (convertOperator inner' place frame.stripped t (significant rest)) := by
  unfold convertOperator
  split
  · simp only [group, if_true]
    exact .fail _
  · simp only [group, reduceCtorEq, if_false]
    exact .pure (convertComma_strips group)
  · exact convertGroup_strips strips started
  · exact convertBraces_strips strips started
  · exact .fail _
  · exact .fail _
  · next mark => exact absurd mark noIndex
  · exact convertConnector_strips
  · next arrow => exact convertLambda_strips started meaning (bare arrow)
  · next mark => exact absurd mark noMark
  · exact convertPlainOperator_strips started

end Keywords

theorem convertToken_strips (strips : inner.Strips inner' rest) (started : t :: rest <:+ frame.params)
    (meaning : t.isTrivia = false) (group : place.mode = .group) (free : LayoutFree (t :: rest)) :
    Matches (Flow.Strips rest) (convertToken inner place frame t rest)
      (convertToken inner' place frame.stripped t (significant rest)) := by
  have marks := free.marks t List.mem_cons_self
  have words := free.words t List.mem_cons_self
  have lambdas := free.lambdas (t :: rest) List.suffix_rfl
  have same : Flow.Strips rest (.next (frame.push (.literal t.text)) rest)
      (.next (frame.stripped.push (.literal t.text)) (significant rest)) := .keep started rfl List.suffix_rfl
  unfold convertToken
  cases category : t.category with
  | lineBreak | space | comment => simp [isTrivia, category] at meaning
  | operator =>
    simp only [isOp, category, beq_self_eq_true, Bool.true_and, beq_eq_false_iff_ne] at marks
    refine convertOperator_strips strips started meaning group marks.1 marks.2 fun arrow first next => ?_
    obtain ⟨more, starts⟩ := List.head?_eq_some_iff.1 next
    simpa [startsBlockLambda, isOp, category, arrow, starts, startsWithOp] using lambdas
  | keyword | contextKeyword =>
    refine convertKeyword_strips strips started meaning fun listed => ?_
    simpa [isKeyword, category] using words _ listed
  | identifier => exact .pure (.keep started rfl List.suffix_rfl)
  | stringLiteral | rawStringLiteral | charLiteral | numberLiteral => exact .pure same

/-- In brackets, an expression is converted as if there were no blanks and comments in it. -/
theorem expression_significant (free : LayoutFree ts) (group : place.mode = .group) :
    standard.all.expression place ts = standard.all.expression place (significant ts) := by
  induction length : ts.length using Nat.strongRecOn generalizing ts place with
  | ind n ih =>
    subst length
    rw [all_expression, all_expression]
    refine Matches.eq (walk_significant (fun frame frame' back => frame' = frame.stripped ∧ back <:+ frame.params)
      ?_ ?_ ?_ List.suffix_rfl ⟨rfl, List.suffix_rfl⟩)
    · rintro frame _ t rest trivia ⟨rfl, started⟩
      exact ⟨convertToken_trivia trivia, rfl, (List.suffix_cons t rest).trans started⟩
    · rintro frame _ t rest meaning suffix ⟨rfl, started⟩
      refine convertToken_strips (fun place inside group within => ?_) started meaning group (free.inside suffix.isInfix)
      have shorter : inside.length < ts.length :=
        Nat.lt_of_le_of_lt within.length_le suffix.length_le
      have sublist : (t :: significant inside).Sublist (significant ts) := by
        rw [← significant_cons meaning]
        exact ((within.sublist.cons_cons t).trans suffix.sublist).filter _
      rw [converters_expression_of_length (Nat.le_sub_one_of_lt shorter),
        converters_expression_of_length (Nat.le_sub_one_of_lt sublist.length_le)]
      exact ih _ shorter (free.inside (within.trans ((List.suffix_cons t rest).trans suffix).isInfix)) group rfl
    · rintro frame _ ⟨rfl, -⟩
      rw [Frame.finish, Frame.finish, Frame.closeTuple_stripped]
      exact .same _

end Expressions

instance (ts : List Token) : Decidable (LayoutFree ts) :=
  decidable_of_iff ((∀ t ∈ ts, t.isOp "#" = false ∧ t.isOp "@" = false) ∧
      (∀ t ∈ ts, ∀ word ∈ methodWords, t.isKeyword word = false) ∧ ∀ rest ∈ ts.tails, startsBlockLambda rest = false)
    ⟨fun free => ⟨free.1, free.2.1, fun rest suffix => free.2.2 rest ((List.mem_tails _ _).2 suffix)⟩,
      fun free => ⟨free.marks, free.words, fun rest tail => free.lambdas rest ((List.mem_tails _ _).1 tail)⟩⟩

/-- A lambda, a tuple, a switch and two types, with blanks, a line break and a comment among their tokens. -/
theorem expression_significant_switch :
    let source := "f(x =>\n y ~ 1, /* c */ switch (a) \x7b 1 => new List -int ( ), _ => ( (b) ) \x7d, fn : int => bool)"
    let place : Place := { mode := .group, scope := .root }
    ∃ tokens, tokenize source = .ok tokens ∧ LayoutFree tokens ∧ significant tokens ≠ tokens ∧
      (standard.all.expression place tokens).toExcept.isOk = true ∧
      standard.all.expression place tokens = standard.all.expression place (significant tokens) := by
  intro source place
  let tokens := (tokenize source).toOption.getD []
  obtain ⟨read, free, blanks, converted⟩ : tokenize source = .ok tokens ∧ LayoutFree tokens ∧
      significant tokens ≠ tokens ∧ (standard.all.expression place tokens).toExcept.isOk = true := by
    decide +kernel +zetaReduce
  exact ⟨tokens, read, free, blanks, converted, expression_significant free rfl⟩

end Sharp
