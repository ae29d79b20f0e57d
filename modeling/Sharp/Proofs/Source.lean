import Sharp.Proofs.TokenText
import Sharp.Walk

/-!
# Reading the tokens of a source

What reading some tokens comes to is said relative to the source that they belong to: a fault blames
one of its tokens, and a value is read from the front of the tokens.

* `Source.Checks`, `Source.Finds`: what holds of a check and of a computation, whether they fail or
  give a value.
-/

namespace Sharp

variable {region : List Token} {fault : Fault} {c : Prop} {b : Bool}

/-- The tokens of a source. -/
structure Source where
  tokens : List Token
  regular : ∀ t ∈ tokens, t.Regular

/-- What follows the first token of an end of a list that starts with a token. -/
theorem suffix_tail {α : Type} {a b : α} {as bs : List α} (suffix : a :: as <:+ b :: bs) : as <:+ bs := by
  rcases List.suffix_cons_iff.1 suffix with same | suffix
  · cases same
    exact List.suffix_rfl
  · exact (List.suffix_cons a as).trans suffix

/-- A round of a walk, given the tokens `rest` after the first one, goes on with tokens at the end of
them such that `I` holds, or it ends the walk with a value that satisfies `P`. -/
abbrev Step.Meets {σ α : Type} (rest : List Token) (I : σ → List Token → Prop) (P : α → Prop) : Step σ α → Prop
  | .next state rest' => rest' <:+ rest ∧ I state rest'
  | .stop a => P a

/-- What a token can turn out to be.  Names can be found in any word that is not reserved, and the
segments of a namespace also in those that are; brackets and literals are known by sight. -/
def Token.CanPlay (t : Token) : Role → Prop
  | .operator _ => t.category = .operator ∧ t.text ∉ bracketOperators
  | .name part => t.isNameLike = true ∨ t.isWord = true ∧ part = .namespaceName
  | .keyword _ => t.category = .keyword ∨ t.category = .contextKeyword
  | .modifier _ => t.category = .keyword ∨ t.isKeyword "immut" = true
  | .comment _ | .blank _ | .literal _ | .bracket _ => False

namespace Token

variable {t : Token} {text : String}

theorem canPlay_of_isOp (isOp : t.isOp text = true) (other : text ∉ bracketOperators)
    (part : OperatorRole) : t.CanPlay (.operator part) := by
  rw [Token.isOp_iff] at isOp
  exact ⟨isOp.1, isOp.2 ▸ other⟩

theorem canPlay_of_isOpIn {texts : List String} (isOp : t.isOpIn texts = true)
    (others : ∀ text ∈ texts, text ∉ bracketOperators) (part : OperatorRole) :
    t.CanPlay (.operator part) := by
  rw [Token.isOpIn_iff] at isOp
  exact ⟨isOp.1, others _ isOp.2⟩

theorem canPlay_of_isNameLike (isName : t.isNameLike = true) (part : NameRole) : t.CanPlay (.name part) :=
  .inl isName

theorem canPlay_of_isKeyword (isKeyword : t.isKeyword text = true) (part : KeywordRole) :
    t.CanPlay (.keyword part) := by
  simp only [Token.isKeyword, Bool.and_eq_true, Bool.or_eq_true, beq_iff_eq] at isKeyword
  exact isKeyword.1

end Token

/-- A kind of findings with notes among them. -/
class NoteLog (ω : Type) [Log ω] where
  notes : ω → List Note
  notes_none : notes Log.none = []
  notes_append (u v : ω) : notes (Log.append u v) = notes u ++ notes v

instance : NoteLog (List Note) where
  notes := id
  notes_none := rfl
  notes_append _ _ := rfl

namespace Source

variable (source : Source)

/-- The tokens are among those of the source. -/
def Holds (ts : List Token) : Prop := ∀ t ∈ ts, t ∈ source.tokens

/-- The tokens are a slice of those at hand, the `region`, which are among those of the source. -/
structure Within (region ts : List Token) : Prop where
  slice : ts <:+: region
  region_holds : source.Holds region

/-- The fault concerns a token of the source.  One that concerns no token says that a function type
is missing. -/
structure Blames (fault : Fault) : Prop where
  inside : fault.cause ≠ .outsideRange
  unlocated : fault.span = none → fault.cause = .missing .functionType
  located : ∀ span ∈ fault.span, ∃ t ∈ source.tokens, t.span = span

/-- The end of every part of the source shows only when the part is converted.  Switch statements and
properties are taken apart beforehand. -/
def Direct : Prop := ∀ t ∈ source.tokens, t.isKeyword "switch" = false ∧ t.isKeyword "prop" = false

/-- Of the tokens `ts`, those in front of `rest` are taken, and `used` are the literals among them. -/
structure Takes (ts : List Token) (used : Multiset String) (rest : List Token) : Prop where
  suffix : rest <:+ ts
  kept : source.Direct → literals ts = used + literals rest

/-- The token `t` is taken and so are the tokens of `ts` in front of `rest`; there are no literals
among them. -/
structure Passes (t : Token) (ts rest : List Token) : Prop where
  first : t.isCopiedLiteral = false
  others : source.Takes ts 0 rest

/-- The notes are on tokens of the source, and each token can play the role that it is given. -/
def Annotates (notes : List Note) : Prop :=
  ∀ note ∈ notes, note.token ∈ source.tokens ∧ note.token.CanPlay note.role

/-! ## Tokens -/

section Tokens

variable {source : Source} {t : Token} {ts ts' middle rest : List Token} {used used' : Multiset String}

@[simp] theorem holds_cons : source.Holds (t :: ts) ↔ t ∈ source.tokens ∧ source.Holds ts := by
  simp [Holds]

@[simp] theorem holds_append : source.Holds (ts ++ ts') ↔ source.Holds ts ∧ source.Holds ts' := by
  simp only [Holds]
  exact List.forall_mem_append

theorem Holds.sublist (holds : source.Holds ts) (sublist : ts'.Sublist ts) : source.Holds ts' :=
  fun t member => holds t (sublist.mem member)

theorem Holds.suffix (holds : source.Holds ts) (suffix : rest <:+ ts) : source.Holds rest :=
  holds.sublist suffix.sublist

theorem Holds.skipTrivia (holds : source.Holds ts) : source.Holds (skipTrivia ts) :=
  holds.sublist (List.dropWhile_sublist _)

theorem Holds.significant (holds : source.Holds ts) : source.Holds (significant ts) :=
  holds.sublist List.filter_sublist

theorem Holds.getLastD (holds : source.Holds ts) (member : t ∈ source.tokens) : ts.getLastD t ∈ source.tokens := by
  cases last : ts.getLast? with
  | none => simpa [List.getLastD_eq_getLast?, last] using member
  | some t' =>
    rw [List.getLastD_eq_getLast?, last]
    exact holds t' (List.mem_of_getLast? last)

namespace Within

theorem holds (within : source.Within region ts) : source.Holds ts :=
  within.region_holds.sublist within.slice.sublist

theorem head (within : source.Within region (t :: ts)) : t ∈ source.tokens :=
  within.holds t List.mem_cons_self

theorem part (within : source.Within region ts) (part : ts' <:+: ts) : source.Within region ts' :=
  ⟨part.trans within.slice, within.region_holds⟩

theorem suffix (within : source.Within region ts) (suffix : rest <:+ ts) : source.Within region rest :=
  within.part suffix.isInfix

theorem tail (within : source.Within region (t :: ts)) : source.Within region ts :=
  within.suffix (List.suffix_cons t ts)

theorem skipTrivia (within : source.Within region ts) : source.Within region (skipTrivia ts) :=
  within.suffix (List.dropWhile_suffix _)

end Within

theorem Holds.within (holds : source.Holds ts) : source.Within ts ts := ⟨List.infix_rfl, holds⟩

namespace Takes

theorem refl : source.Takes ts 0 ts := ⟨List.suffix_rfl, fun _ => (zero_add _).symm⟩

theorem trans (first : source.Takes ts used middle) (second : source.Takes middle used' rest) :
    source.Takes ts (used + used') rest :=
  ⟨second.suffix.trans first.suffix, fun direct => by
    rw [first.kept direct, second.kept direct, add_assoc]⟩

theorem after (first : source.Takes ts 0 middle) (second : source.Takes middle used rest) :
    source.Takes ts used rest := by
  simpa using first.trans second

theorem before (first : source.Takes ts used middle) (second : source.Takes middle 0 rest) :
    source.Takes ts used rest := by
  simpa using first.trans second

theorem cons (other : t.isCopiedLiteral = false) (takes : source.Takes ts used rest) :
    source.Takes (t :: ts) used rest :=
  ⟨takes.suffix.trans (List.suffix_cons t ts), fun direct => by
    rw [literals_cons_of_other other, takes.kept direct]⟩

theorem skipTrivia (ts : List Token) : source.Takes ts 0 (skipTrivia ts) :=
  ⟨List.dropWhile_suffix _, fun _ => by rw [literals_skipTrivia, zero_add]⟩

/-- Trivia in front of what is taken. -/
theorem of_skipTrivia {first : Token} {more : List Token} (found : Sharp.skipTrivia ts = first :: more)
    (takes : source.Takes (first :: more) used rest) : source.Takes ts used rest :=
  (found ▸ skipTrivia ts).after takes

theorem within (takes : source.Takes ts used rest) (within : source.Within region ts) : source.Within region rest :=
  within.suffix takes.suffix

/-- Where parts of the source are taken apart beforehand, literals are not followed. -/
theorem of_suffix (indirect : ¬ source.Direct) (suffix : rest <:+ ts) : source.Takes ts used rest :=
  ⟨suffix, fun direct => absurd direct indirect⟩

/-- Where all tokens are taken without a literal, there is none among them. -/
theorem literals_eq (takes : source.Takes ts used []) (direct : source.Direct) : literals ts = used := by
  simpa using takes.kept direct

end Takes

theorem Passes.takes (passes : source.Passes t ts rest) : source.Takes (t :: ts) 0 rest :=
  passes.others.cons passes.first

theorem not_direct_of_switch (isSwitch : t.isKeyword "switch" = true) (member : t ∈ source.tokens) :
    ¬ source.Direct :=
  fun direct => by simp [(direct t member).1] at isSwitch

theorem not_direct_of_prop (isProp : t.isKeyword "prop" = true) (member : t ∈ source.tokens) : ¬ source.Direct :=
  fun direct => by simp [(direct t member).2] at isProp

section Splits

variable {form : BracketForm} {p : Token → Bool} {s : Split}

theorem Within.split (within : source.Within region ts) (whole : ts = s.before ++ s.found :: s.after) :
    source.Within region s.before ∧ s.found ∈ source.tokens ∧ source.Within region s.after := by
  subst whole
  have others : source.Within region (s.found :: s.after) := within.suffix (List.suffix_append _ _)
  exact ⟨within.part (List.prefix_append _ _).isInfix, others.head, others.tail⟩

theorem Within.splitClose (within : source.Within region ts) (split : splitClose form ts = some s) :
    source.Within region s.before ∧ s.found ∈ source.tokens ∧ source.Within region s.after :=
  within.split (eq_of_splitClose split)

theorem Within.splitTop (within : source.Within region ts) (split : splitTop p ts = some s) :
    source.Within region s.before ∧ s.found ∈ source.tokens ∧ source.Within region s.after :=
  within.split (eq_of_splitTop split)

theorem suffix_of_split (whole : ts = s.before ++ s.found :: s.after) : s.after <:+ ts :=
  ⟨s.before ++ [s.found], by simp [whole]⟩

/-- What stands in brackets is taken as a whole. -/
theorem Takes.splitClose (split : splitClose form ts = some s) (inside : source.Takes s.before used []) :
    source.Takes ts used s.after :=
  ⟨suffix_of_split (eq_of_splitClose split), fun direct => by
    rw [literals_of_splitClose split, inside.literals_eq direct]⟩

/-- What stands in front of a token is taken as a whole, together with the token. -/
theorem Takes.splitTop (split : splitTop p ts = some s) (other : s.found.isCopiedLiteral = false)
    (front : source.Takes s.before used []) : source.Takes ts used s.after :=
  ⟨suffix_of_split (eq_of_splitTop split), fun direct => by
    rw [literals_of_splitTop split other, front.literals_eq direct]⟩

/-- What stands in front of a token is taken as a whole, up to the token. -/
theorem Takes.splitTop_found (split : Sharp.splitTop p ts = some s)
    (front : source.Takes s.before used []) : source.Takes ts used (s.found :: s.after) :=
  ⟨⟨s.before, (eq_of_splitTop split).symm⟩, fun direct => by
    rw [eq_of_splitTop split, literals_append, front.literals_eq direct]⟩

/-- Tokens of which the significant ones are taken as a whole. -/
theorem Takes.of_significant (all : source.Takes (significant ts) used []) : source.Takes ts used [] :=
  ⟨List.nil_suffix, fun direct => by rw [← literals_significant, all.literals_eq direct]; simp⟩

end Splits

end Tokens

/-! ## Faults -/

section Faults

variable {source : Source} {t : Token}

theorem blames_blame (member : t ∈ source.tokens) {cause : Cause} (inside : cause ≠ .outsideRange) :
    source.Blames (.blame t cause) :=
  ⟨inside, nofun, fun span located => ⟨t, member, by simpa [Fault.blame] using located⟩⟩

theorem blames_missing (member : t ∈ source.tokens) (part : Part) : source.Blames (.missing t part) :=
  blames_blame member nofun

theorem blames_unexpected (member : t ∈ source.tokens) : source.Blames (.unexpected t) :=
  blames_blame member nofun

end Faults

/-! ## Checks -/

/-- If the check fails, the fault concerns the source, and otherwise the value satisfies `P`. -/
def Checks {α : Type} (x : Except Fault α) (P : α → Prop) : Prop :=
  match x with
  | .error fault => source.Blames fault
  | .ok a => P a

namespace Checks

variable {source : Source} {α β : Type} {x : Except Fault α} {P P' : α → Prop} {Q : β → Prop}

theorem error (blames : source.Blames fault) : source.Checks (.error fault : Except Fault α) P :=
  blames

theorem ok {a : α} (holds : P a) : source.Checks (.ok a : Except Fault α) P := holds

theorem mono (checks : source.Checks x P) (weaker : ∀ a, P a → P' a) : source.Checks x P' := by
  cases x with
  | error fault => exact checks
  | ok a => exact weaker a checks

theorem bind {f : α → Except Fault β} (first : source.Checks x P)
    (second : ∀ a, P a → source.Checks (f a) Q) : source.Checks (x >>= f) Q := by
  cases x with
  | error fault => exact first
  | ok a => exact second a first

theorem ite [Decidable c] {y : Except Fault α} (first : c → source.Checks x P)
    (second : ¬ c → source.Checks y P) : source.Checks (if c then x else y) P := by
  split
  · next holds => exact first holds
  · next fails => exact second fails

theorem blames (checks : source.Checks x P) (failed : x = .error fault) : source.Blames fault := by
  subst failed
  exact checks

theorem holds {a : α} (checks : source.Checks x P) (passed : x = .ok a) : P a := by
  subst passed
  exact checks

end Checks

/-! ## Computations -/

/-- If the computation fails, the fault concerns the source.  Otherwise the value satisfies `P`, and
the notes that were logged fit the source. -/
def Finds {ω α : Type} [Log ω] [NoteLog ω] (x : Logged ω α) (P : α → Prop) : Prop :=
  match x with
  | .fail fault => source.Blames fault
  | .done a u => P a ∧ source.Annotates (NoteLog.notes u)

theorem annotates_nil : source.Annotates [] := List.forall_mem_nil _

theorem Annotates.append {source : Source} {notes notes' : List Note} (first : source.Annotates notes)
    (second : source.Annotates notes') : source.Annotates (notes ++ notes') :=
  List.forall_mem_append.2 ⟨first, second⟩

namespace Finds

variable {source : Source} {ω α β σ : Type} [Log ω] [NoteLog ω] {x : Logged ω α} {f : α → Logged ω β}
  {P P' : α → Prop} {Q : β → Prop}

theorem fail (blames : source.Blames fault) : source.Finds (.fail fault : Logged ω α) P := blames

theorem mono (found : source.Finds x P) (weaker : ∀ a, P a → P' a) : source.Finds x P' := by
  cases x with
  | fail fault => exact found
  | done a u => exact ⟨weaker a found.1, found.2⟩

theorem ite [Decidable c] {y : Logged ω α} (first : c → source.Finds x P)
    (second : ¬ c → source.Finds y P) : source.Finds (if c then x else y) P := by
  split
  · next holds => exact first holds
  · next fails => exact second fails

theorem pure {a : α} (holds : P a) : source.Finds (Pure.pure a : Logged ω α) P :=
  ⟨holds, (NoteLog.notes_none : NoteLog.notes (Log.none : ω) = []) ▸ source.annotates_nil⟩

theorem bind (first : source.Finds x P) (second : ∀ a, P a → source.Finds (f a) Q) : source.Finds (x >>= f) Q := by
  cases x with
  | fail fault => exact first
  | done a u =>
    have second := second a first.1
    rw [Logged.done_bind]
    cases given : f a with
    | fail fault => rw [given] at second; exact second
    | done b v =>
      rw [given] at second
      exact ⟨second.1, NoteLog.notes_append u v ▸ first.2.append second.2⟩

theorem note {t : Token} {role : Role} (member : t ∈ source.tokens) (plays : t.CanPlay role) :
    source.Finds (note t role) fun _ => True :=
  ⟨trivial, List.forall_mem_singleton.2 ⟨member, plays⟩⟩

theorem note_bind {t : Token} {role : Role} {f : Unit → Reading β} (member : t ∈ source.tokens)
    (plays : t.CanPlay role) (next : source.Finds (f ()) Q) :
    source.Finds (Sharp.note t role >>= f) Q :=
  bind (note member plays) fun _ _ => next

theorem ofExcept {x : Except Fault α} (checks : source.Checks x P) :
    source.Finds (Logged.ofExcept x : Logged ω α) P := by
  cases x with
  | error fault => exact checks
  | ok a => exact pure checks

theorem guard [Decidable c] {k : Unit → Logged ω α} (blames : source.Blames fault)
    (passed : ¬ c → source.Finds (k ()) P) :
    source.Finds (if c then .fail fault >>= k else k ()) P :=
  ite (fun _ => blames) passed

theorem iteNot {x y : Logged ω α} (no : b = false → source.Finds x P) (yes : b = true → source.Finds y P) :
    source.Finds (if !b then x else y) P :=
  ite (fun fails => no (by simpa using fails)) fun holds => yes (by simpa using holds)

theorem require {k : Unit → Logged ω α} (blames : source.Blames fault)
    (passed : b = true → source.Finds (k ()) P) : source.Finds (if !b then .fail fault >>= k else k ()) P :=
  iteNot (fun _ => blames) passed

/-- What the rounds preserve holds at the end of a walk, provided that every round goes on with fewer
tokens. -/
theorem walk {round : σ → Token → List Token → Logged ω (Step σ α)} {finish : σ → Logged ω α}
    (I : σ → List Token → Prop)
    (step : ∀ state t rest, I state (t :: rest) → source.Finds (round state t rest) (Step.Meets rest I P))
    (last : ∀ state, I state [] → source.Finds (finish state) P) {state : σ} {ts : List Token}
    (start : I state ts) : source.Finds (walk round finish state ts) P := by
  -- The walk is recursive in the number of tokens, and so is the argument.
  induction state, ts using walk.induct with
  | case1 state =>
    rw [walk_nil]
    exact last state start
  | case2 state t rest ih =>
    rw [walk_cons]
    refine (step state t rest start).bind fun next holds => ?_
    cases next with
    | stop a => exact pure holds
    | next state rest' =>
      have shorter : rest'.length < (t :: rest).length := Nat.lt_succ_of_le holds.1.length_le
      exact ite (fun _ => ih state rest' shorter holds.2) fun long => absurd shorter long

end Finds

end Source

end Sharp
