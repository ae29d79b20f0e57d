import Sharp.Draft
import Sharp.Proofs.Source

/-!
# What converters produce

The pieces that a converter produces are accounted for from three sides: they lead from one state of
the line to another, they open and close brackets, and they hold the literals of the tokens that the
converter takes.

* `Source.Drafts`: what holds of a draft, whether it fails or gives a value.
-/

namespace Sharp

variable {text : String} {piece : Piece} {q q' : LineState} {opened opened' : List Bracket}
  {pieces pieces' : List Piece} {fault : Fault} {c : Prop}

/-! ## Literals -/

/-- The text of a copied literal. -/
def Piece.literal? : Piece → Option String
  | .literal text => some text
  | _ => none

/-- The texts of the literals among some pieces. -/
def copiedLiterals (pieces : List Piece) : Multiset String :=
  (pieces.filterMap Piece.literal? : List String)

section Copied

variable {pieces : List Piece}

@[simp] theorem copiedLiterals_nil : copiedLiterals [] = 0 := rfl

@[simp] theorem copiedLiterals_append (pieces pieces' : List Piece) :
    copiedLiterals (pieces ++ pieces') = copiedLiterals pieces + copiedLiterals pieces' := by
  simp [copiedLiterals]

@[simp] theorem copiedLiterals_literal (text : String) (pieces : List Piece) :
    copiedLiterals (.literal text :: pieces) = {text} + copiedLiterals pieces :=
  rfl

@[simp] theorem copiedLiterals_code (text : String) (spacing : Spacing) :
    copiedLiterals (.code text spacing :: pieces) = copiedLiterals pieces := rfl

@[simp] theorem copiedLiterals_raw (text : String) :
    copiedLiterals (.raw text :: pieces) = copiedLiterals pieces := rfl

@[simp] theorem copiedLiterals_keyword (text : String) :
    copiedLiterals (.keyword text :: pieces) = copiedLiterals pieces := rfl

@[simp] theorem copiedLiterals_comment (text : String) :
    copiedLiterals (.comment text :: pieces) = copiedLiterals pieces := rfl

@[simp] theorem copiedLiterals_line (text : String) :
    copiedLiterals (.line text :: pieces) = copiedLiterals pieces := rfl

@[simp] theorem copiedLiterals_lineBreak :
    copiedLiterals (.lineBreak :: pieces) = copiedLiterals pieces := rfl

@[simp] theorem copiedLiterals_indents (level : Nat) : copiedLiterals (Piece.indents level) = 0 := by
  cases level <;> rfl

end Copied

/-! ## Places in the output -/

theorem Tidy.onLine (tidy : Tidy text) : OnLine text :=
  fun ends => tidy.2 (List.mem_of_getLast? ends)

/-- A place in the output: what may follow on the line, and which brackets are open. -/
structure Spot where
  line : LineState
  opened : List Bracket

namespace Source

variable (source : Source)

/-- The operator occurs. -/
def Has (text : String) : Prop := ∃ t ∈ source.tokens, t.isOp text = true

/-- Tuples, lists and lambdas with typed parameters do not occur together. -/
def Tame : Prop := ¬ (source.Has "~" ∧ source.Has "," ∧ source.Has "=>" ∧ source.Has ":")

/-- The pieces lead from one place to another.  Brackets are followed in a tame source only. -/
structure Leads (spot : Spot) (pieces : List Piece) (spot' : Spot) : Prop where
  lines : Lines spot.line pieces spot'.line
  moves : source.Tame → Moves spot.opened pieces spot'.opened

/-- The pieces can stand in a line, and they leave the given brackets open. -/
structure Reaches (pieces : List Piece) (opened : List Bracket) : Prop where
  lines : ∀ q, q ≠ .quiet → Lines q pieces q
  moves : source.Tame → Moves [] pieces opened

/-- The pieces can stand in a line and close the brackets they open. -/
abbrev Steady (pieces : List Piece) : Prop := source.Reaches pieces []

section Leads

variable {source : Source} {spot spot' spot'' : Spot} {pieces : List Piece} {spacing : Spacing}

namespace Leads

theorem refl : source.Leads spot [] spot := ⟨.refl, fun _ => .nil⟩

theorem append (first : source.Leads spot pieces spot') (second : source.Leads spot' pieces' spot'') :
    source.Leads spot (pieces ++ pieces') spot'' :=
  ⟨first.lines.append second.lines, fun tame => (first.moves tame).append (second.moves tame)⟩

theorem weaken (leads : source.Leads spot pieces ⟨q, opened⟩) (le : q' ≤ q) :
    source.Leads spot pieces ⟨q', opened⟩ :=
  ⟨leads.lines.weaken le, leads.moves⟩

end Leads

theorem moves_single (moved : nest opened piece.counted.toList = some opened') : Moves opened [piece] opened' := by
  rw [Moves, brackets, List.flatMap_singleton]
  exact moved

section

variable (nonempty : text ≠ "") (onLine : OnLine text) (moved : nest opened text.toList = some opened')
include nonempty onLine moved

/-- A text that is not empty. -/
theorem leads_code : source.Leads ⟨q, opened⟩ [.code text spacing] ⟨.ofSpacing spacing, opened'⟩ :=
  ⟨.code nonempty onLine .refl, fun _ => moves_single moved⟩

theorem leads_raw : source.Leads ⟨q, opened⟩ [.raw text] ⟨.quiet, opened'⟩ :=
  leads_code nonempty onLine moved

theorem leads_line : source.Leads ⟨q, opened⟩ [.line text] ⟨.quiet, opened'⟩ :=
  ⟨.line nonempty onLine .refl, fun _ => moves_single moved⟩

end

/-- A tidy text that is not empty. -/
theorem leads_raw_of_tidy (nonempty : text ≠ "") (tidy : Tidy text) :
    source.Leads ⟨q, opened⟩ [.raw text] ⟨.quiet, opened⟩ :=
  leads_raw nonempty tidy.onLine (tidy.1.nest opened)

theorem leads_line_of_tidy (nonempty : text ≠ "") (tidy : Tidy text) :
    source.Leads ⟨q, opened⟩ [.line text] ⟨.quiet, opened⟩ :=
  leads_line nonempty tidy.onLine (tidy.1.nest opened)

theorem leads_lineBreak (settled : q ≠ .indented) : source.Leads ⟨q, opened⟩ [.lineBreak] ⟨.quiet, opened⟩ :=
  ⟨.lineBreak settled .refl, fun _ => moves_single rfl⟩

theorem leads_indents (level : Nat) : source.Leads ⟨.quiet, opened⟩ (Piece.indents level) ⟨.indented, opened⟩ := by
  refine ⟨?_, fun _ => moves_indents level⟩
  cases level with
  | zero => exact .nil (LineState.indented_le _)
  | succ level => exact .indent .refl

namespace Reaches

theorem nil : source.Steady [] := ⟨fun _ _ => .refl, fun _ => .nil⟩

theorem append (first : source.Reaches pieces opened) (second : source.Steady pieces') :
    source.Reaches (pieces ++ pieces') opened :=
  ⟨fun q other => (first.lines q other).append (second.lines q other),
    fun tame => (first.moves tame).append ((second.moves tame).extend opened)⟩

/-- A text that opens or closes brackets. -/
theorem code (first : source.Reaches pieces opened) (nonempty : text ≠ "") (onLine : OnLine text)
    (moved : nest opened text.toList = some opened') (spacing : Spacing) :
    source.Reaches (pieces ++ [Piece.code text spacing]) opened' := by
  refine ⟨fun q other => ?_, fun tame => (first.moves tame).append (moves_single moved)⟩
  refine (first.lines q other).append (.code nonempty onLine (.nil ?_))
  exact LineState.le_trans (LineState.le_loud other) (LineState.loud_le_ofSpacing spacing)

/-- Steady pieces can follow anything, and what follows them can need a space. -/
theorem leads_loud (steady : source.Steady pieces) (settled : q ≠ .indented) :
    source.Leads ⟨q, opened⟩ pieces ⟨.loud, opened⟩ :=
  ⟨(steady.lines .loud nofun).mono (LineState.loud_le settled), fun tame => (steady.moves tame).extend opened⟩

theorem leads_indented (steady : source.Steady pieces) : source.Leads ⟨q, opened⟩ pieces ⟨.indented, opened⟩ :=
  ⟨(steady.lines .indented nofun).mono (LineState.indented_le q), fun tame => (steady.moves tame).extend opened⟩

end Reaches

/-- Pieces that lead from any state of the line to one after which texts may follow. -/
theorem steady_of_leads (leads : ∀ q, source.Leads ⟨q, []⟩ pieces ⟨.loud, []⟩) : source.Steady pieces := by
  exact ⟨fun q other => (leads q).lines.weaken (LineState.le_loud other), (leads .quiet).moves⟩

theorem steady_code (tidy : Tidy text) (spacing : Spacing) : source.Steady [.code text spacing] := by
  by_cases empty : text = ""
  · subst empty
    exact ⟨fun q _ => .blank rfl .refl, fun _ => moves_single rfl⟩
  · exact steady_of_leads fun q =>
      (leads_code empty tidy.onLine (tidy.1.nest [])).weaken (LineState.loud_le_ofSpacing spacing)

theorem steady_literal (onLine : OnLine text) : source.Steady [.literal text] := by
  refine ⟨fun q other => ?_, fun _ => moves_single rfl⟩
  by_cases empty : text = ""
  · subst empty
    exact .blank rfl .refl
  · exact .literal empty onLine (.nil (LineState.le_loud other))

end Leads

/-! ## Drafts -/

instance : NoteLog Output where
  notes := Output.notes
  notes_none := rfl
  notes_append _ _ := rfl

/-- If the draft fails, the fault concerns the source.  Otherwise its pieces lead from one place to
another, its notes fit the source, and the value and the literals among the pieces satisfy `R`. -/
def Drafts {α : Type} (spot : Spot) (x : Draft α) (spot' : Spot) (R : α → Multiset String → Prop) : Prop :=
  match x with
  | .fail fault => source.Blames fault
  | .done a output => R a (copiedLiterals output.pieces) ∧ source.Leads spot output.pieces spot' ∧
    source.Annotates output.notes

/-- The draft writes whole lines, and closes the brackets that it opens. -/
abbrev DraftsLines {α : Type} (opened : List Bracket) (x : Draft α) (R : α → Multiset String → Prop) : Prop :=
  source.Drafts ⟨.quiet, opened⟩ x ⟨.quiet, opened⟩ R

/-- The draft writes whole lines for the tokens that it takes from `ts`. -/
abbrev DraftsFrom (ts : List Token) (opened : List Bracket) (x : Draft (List Token)) : Prop :=
  source.DraftsLines opened x fun after used => source.Takes ts used after

namespace Drafts

variable {source : Source} {spot spot' spot'' : Spot} {α β σ : Type} {x : Draft α} {f : α → Draft β}
  {R R' : α → Multiset String → Prop} {S : β → Multiset String → Prop}

theorem fail (blames : source.Blames fault) : source.Drafts spot (.fail fault : Draft α) spot' R :=
  blames

theorem pure {a : α} (holds : R a 0) : source.Drafts spot (Pure.pure a : Draft α) spot R :=
  ⟨holds, .refl, source.annotates_nil⟩

theorem mono (drafts : source.Drafts spot x spot' R) (weaker : ∀ a used, R a used → R' a used) :
    source.Drafts spot x spot' R' := by
  cases x with
  | fail fault => exact drafts
  | done a output => exact ⟨weaker a _ drafts.1, drafts.2⟩

theorem weaken (drafts : source.Drafts spot x ⟨q, opened⟩ R) (le : q' ≤ q) :
    source.Drafts spot x ⟨q', opened⟩ R := by
  cases x with
  | fail fault => exact drafts
  | done a output => exact ⟨drafts.1, drafts.2.1.weaken le, drafts.2.2⟩

theorem ite [Decidable c] {y : Draft α} (first : c → source.Drafts spot x spot' R)
    (second : ¬ c → source.Drafts spot y spot' R) :
    source.Drafts spot (if c then x else y) spot' R := by
  split
  · next holds => exact first holds
  · next fails => exact second fails

theorem guard [Decidable c] {k : Unit → Draft α} (blames : source.Blames fault)
    (passed : ¬ c → source.Drafts spot (k ()) spot' R) :
    source.Drafts spot (if c then .fail fault >>= k else k ()) spot' R :=
  ite (fun _ => blames) passed

theorem require {b : Bool} {k : Unit → Draft α} (blames : source.Blames fault)
    (passed : b = true → source.Drafts spot (k ()) spot' R) :
    source.Drafts spot (if !b then .fail fault >>= k else k ()) spot' R :=
  guard blames fun holds => passed (by simpa using holds)

/-- The literals of two drafts are those of the first and those of the second. -/
theorem bind (first : source.Drafts spot x spot' R) (second : ∀ a used, R a used →
      source.Drafts spot' (f a) spot'' fun b used' => S b (used + used')) :
    source.Drafts spot (x >>= f) spot'' S := by
  cases x with
  | fail fault => exact first
  | done a output =>
    have second := second a _ first.1
    rw [Logged.done_bind]
    cases given : f a with
    | fail fault => rw [given] at second; exact second
    | done b output' =>
      rw [given] at second
      refine ⟨?_, first.2.1.append second.2.1, first.2.2.append second.2.2⟩
      simpa [Logged.after, Log.append] using second.1

/-- The first draft produces no pieces with literals. -/
theorem plain_bind {P : α → Prop} (first : source.Drafts spot x spot' fun a used => used = 0 ∧ P a)
    (next : ∀ a, P a → source.Drafts spot' (f a) spot'' S) :
    source.Drafts spot (x >>= f) spot'' S := by
  refine bind first fun a used holds => ?_
  obtain ⟨rfl, holds⟩ := holds
  simpa using next a holds

theorem emit {pieces : List Piece} (leads : source.Leads spot pieces spot')
    {R : Unit → Multiset String → Prop} (holds : R () (copiedLiterals pieces)) :
    source.Drafts spot (emit pieces) spot' R :=
  ⟨holds, leads, source.annotates_nil⟩

theorem emit_bind {f : Unit → Draft β} (leads : source.Leads spot pieces spot') (none : copiedLiterals pieces = 0)
    (next : source.Drafts spot' (f ()) spot'' S) :
    source.Drafts spot (Sharp.emit pieces >>= f) spot'' S := by
  exact plain_bind (P := fun _ => True) (emit leads ⟨none, trivial⟩) fun _ _ => next

theorem emit_literals_bind {f : Unit → Draft β} (leads : source.Leads spot pieces spot')
    (next : source.Drafts spot' (f ()) spot'' fun b used => S b (copiedLiterals pieces + used)) :
    source.Drafts spot (Sharp.emit pieces >>= f) spot'' S := by
  refine bind (emit leads (R := fun _ used => used = copiedLiterals pieces) rfl) fun _ used same => ?_
  subst same
  exact next

theorem reading_bind {x : Reading α} {P : α → Prop} (found : source.Finds x P)
    (next : ∀ a, P a → source.Drafts spot (f a) spot' S) :
    source.Drafts spot (Draft.ofReading x >>= f) spot' S := by
  cases x with
  | fail fault => exact found
  | done a notes =>
    have next := next a found.1
    rw [Draft.ofReading, Logged.done_bind]
    cases given : f a with
    | fail fault => rw [given] at next; exact next
    | done b output =>
      rw [given] at next
      exact ⟨next.1, next.2.1, found.2.append next.2.2⟩

theorem note_bind {t : Token} {role : Role} {f : Unit → Draft β} (member : t ∈ source.tokens)
    (plays : t.CanPlay role) (next : source.Drafts spot (f ()) spot' S) :
    source.Drafts spot (Draft.ofReading (note t role) >>= f) spot' S :=
  reading_bind (.note member plays) fun _ _ => next

theorem ofExcept {x : Except Fault α} {P : α → Prop} (checks : source.Checks x P)
    (holds : ∀ a, P a → R a 0) : source.Drafts spot (Logged.ofExcept x) spot R := by
  cases x with
  | error fault => exact checks
  | ok a => exact pure (holds a checks)

theorem ofExcept_bind {x : Except Fault α} {P : α → Prop} (checks : source.Checks x P)
    (next : ∀ a, P a → source.Drafts spot (f a) spot' S) :
    source.Drafts spot (Logged.ofExcept x >>= f) spot' S := by
  cases x with
  | error fault => exact checks
  | ok a =>
    rw [Logged.ofExcept, pure_bind]
    exact next a checks

/-- What the rounds preserve holds at the end of a walk. -/
theorem walk {round : σ → Token → List Token → Draft (Step σ α)} {finish : σ → Draft α}
    (I : σ → List Token → Multiset String → Prop)
    (step : ∀ state t rest used, I state (t :: rest) used →
      source.Drafts spot (round state t rest) spot fun result used' =>
        result.Meets rest (I · · (used + used')) (R · (used + used')))
    (last : ∀ state used, I state [] used →
      source.Drafts spot (finish state) spot fun a used' => R a (used + used'))
    {state : σ} {ts : List Token} (start : I state ts 0) :
    source.Drafts spot (walk round finish state ts) spot R := by
  suffices general : ∀ used, I state ts used →
      source.Drafts spot (Sharp.walk round finish state ts) spot fun a used' => R a (used + used') by
    simpa using general 0 start
  clear start
  induction state, ts using walk.induct with
  | case1 state =>
    intro used invariant
    rw [walk_nil]
    exact last state used invariant
  | case2 state t rest ih =>
    intro used invariant
    rw [walk_cons]
    refine bind (step state t rest used invariant) fun result used' holds => ?_
    cases result with
    | stop a => exact pure (by simpa using holds)
    | next state rest' =>
      have shorter : rest'.length < (t :: rest).length := Nat.lt_succ_of_le holds.1.length_le
      refine ite (fun _ => ?_) fun long => absurd shorter long
      simpa [add_assoc] using ih state rest' shorter (used + used') holds.2

theorem capture {x : Draft Unit} {R : Unit → Multiset String → Prop} (drafts : source.Drafts spot x spot' R) :
    source.Finds x.capture fun pieces =>
      R () (copiedLiterals pieces) ∧ source.Leads spot pieces spot' := by
  cases x with
  | fail fault => exact drafts
  | done _ output => exact ⟨⟨drafts.1, drafts.2.1⟩, drafts.2.2⟩

end Drafts

/-- Brackets further out stay open. -/
theorem Leads.extend {source : Source} (leads : source.Leads ⟨q, opened⟩ pieces ⟨q', opened'⟩)
    (more : List Bracket) : source.Leads ⟨q, opened ++ more⟩ pieces ⟨q', opened' ++ more⟩ :=
  ⟨leads.lines, fun tame => (leads.moves tame).extend more⟩

/-- The expression is converted from the front of the tokens `ts`.  In brackets, it takes them all. -/
structure Expresses (place : Place) (ts : List Token) (e : Parsed Expression) : Prop where
  takes : source.Takes ts (copiedLiterals e.value.pieces) e.rest
  steady : source.Steady e.value.pieces
  ends : ∀ t ∈ e.rest.head?, t.isCopiedLiteral = false
  whole : place.mode = .group → e.rest = []

end Source

/-! ## Converters -/

/-- The token after the expression belongs to the source. -/
def Place.Sound (source : Source) (place : Place) : Prop := ∀ t ∈ place.fence, t ∈ source.tokens

/-- The modifiers were given by tokens of the source. -/
structure Modifiers.Sound (source : Source) (mods : Modifiers) : Prop where
  inheritance : ∀ held ∈ mods.inheritance, held.2 ∈ source.tokens
  refImmut : ∀ held ∈ mods.refImmut, held.2 ∈ source.tokens
  async : ∀ t ∈ mods.async, t ∈ source.tokens
  yields : ∀ t ∈ mods.yields, t ∈ source.tokens
  partly : ∀ t ∈ mods.partly, t ∈ source.tokens
  latest : ∀ t ∈ mods.latest, t ∈ source.tokens

/-- The statement is converted from the token `t` on and takes at least that token. -/
structure Statement.Completes (source : Source) (t : Token) (rest : List Token)
    (statement : Parsed Statement) (used : Multiset String) : Prop where
  takes : source.Takes (t :: rest) used statement.rest
  suffix : statement.rest <:+ rest
  pending : statement.value.pending.Sound source

namespace Converters

variable (source : Source) (region : List Token) (inner : Converters)

/-- What holds of the expressions that a slice of `region` makes up. -/
def SoundExpressions : Prop :=
  ∀ place t rest, place.Sound source → source.Within region (t :: rest) →
    source.Finds (inner.expressionFrom place t rest) (source.Expresses place (t :: rest))

def SoundStatements : Prop :=
  ∀ scope pending t rest opened, pending.Sound source → source.Within region (t :: rest) →
    source.Drafts ⟨.quiet, opened⟩ (inner.statementFrom scope pending t rest) ⟨.quiet, opened⟩
      (Statement.Completes source t rest)

def SoundBlocks : Prop :=
  ∀ scope t rest opened, source.Within region (t :: rest) →
    source.Drafts ⟨.quiet, opened⟩ (inner.blockFrom scope t rest) ⟨.quiet, opened⟩
      fun _ used => source.Takes (t :: rest) used []

structure Sound : Prop where
  expressions : inner.SoundExpressions source region
  statements : inner.SoundStatements source region
  blocks : inner.SoundBlocks source region

variable {source region inner} {ts : List Token}

theorem SoundExpressions.expression (sound : inner.SoundExpressions source region) {place : Place}
    (place_sound : place.Sound source) (within : source.Within region ts) :
    source.Finds (inner.expression place ts) (source.Expresses place ts) := by
  cases ts with
  | nil => exact .pure ⟨.refl, .nil, nofun, fun _ => rfl⟩
  | cons t rest => exact sound place t rest place_sound within

theorem SoundExpressions.group (sound : inner.SoundExpressions source region) {place : Place}
    (place_sound : place.Sound source) (group : place.mode = .group) (within : source.Within region ts) :
    source.Finds (inner.expression place ts) fun e =>
      source.Takes ts (copiedLiterals e.value.pieces) [] ∧ source.Steady e.value.pieces := by
  refine (sound.expression place_sound within).mono fun e expresses => ⟨?_, expresses.steady⟩
  have takes := expresses.takes
  rwa [expresses.whole group] at takes

theorem SoundBlocks.block (sound : inner.SoundBlocks source region) (scope : Scope) (opened : List Bracket)
    (within : source.Within region ts) :
    source.DraftsLines opened (inner.block scope ts) fun _ used => source.Takes ts used [] := by
  cases ts with
  | nil => exact .pure .refl
  | cons t rest => exact sound scope t rest opened within

end Converters

end Sharp
