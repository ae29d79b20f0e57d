import Sharp.Proofs.Moved
import Sharp.Proofs.Source
import Sharp.Proofs.TypeText
import Sharp.Proofs.TypeTokens

/-!
# The parts of types

Types are read from tokens that are no literals, and what is read is neat.  Reading fails at one of the
tokens.  What a type is read as does not depend on where its tokens stand: the same tokens farther on in
a source are read as the same type.

* `readSlot_reads`, `readFunction_reads`, `readGenerics_reads`: the parts of types.
-/

namespace Sharp

open Token hiding id
open TypeExpr

variable {t t' dash : Token} {text : String} {n : Nat} {tokens ts rest : List Token} {shift : Shift} {cause : Cause}

/-- No builtin type is written as a discard. -/
theorem Token.isNameLike_of_isTypeName (isName : t.isTypeName = true) (discard : t.text = "_") :
    t.isNameLike = true := by
  simp only [isTypeName, Bool.or_eq_true, beq_iff_eq] at isName
  refine isName.resolve_right fun builtin => ?_
  have unknown : t.vocabularyRole? = none := by
    unfold vocabularyRole?
    rw [discard]
    cases t.category <;> decide
  simp [Token.keywordRole?, unknown] at builtin

/-! ## Computations -/

def AllRegular (tokens : List Token) : Prop := ∀ t ∈ tokens, t.Regular

/-- Some tokens are among others, and there are at most `n` of them. -/
structure Among (tokens : List Token) (n : Nat) (ts : List Token) : Prop where
  member : ∀ t ∈ ts, t ∈ tokens
  length_le : ts.length ≤ n

namespace Among

theorem sublist (among : Among tokens n ts) (sublist : rest.Sublist ts) : Among tokens n rest :=
  ⟨fun t member => among.member t (sublist.mem member), sublist.length_le.trans among.length_le⟩

section

variable (among : Among tokens n (t :: ts))
include among

theorem head : t ∈ tokens := among.member t List.mem_cons_self

theorem last : ts.getLastD t ∈ tokens := among.member _ List.getLastD_mem_cons

theorem tail : Among tokens n ts := among.sublist (List.sublist_cons_self t ts)

end

theorem pred (among : Among tokens (n + 1) (t :: ts)) : Among tokens n ts :=
  ⟨among.tail.member, Nat.le_of_succ_le_succ among.length_le⟩

theorem succ (among : Among tokens n ts) : Among tokens (n + 1) ts :=
  ⟨among.member, Nat.le_succ_of_le among.length_le⟩

theorem spends {strict : Prop} {waiting : Nat} (among : Among tokens n ts)
    (spends : Spends strict waiting ts rest) : Among tokens n rest :=
  among.sublist spends.suffix.sublist

theorem splitClose {s : Split} (among : Among tokens n ts) (split : splitClose .parenthesis ts = some s) :
    Among tokens n s.before := by
  rw [eq_of_splitClose split] at among
  exact among.sublist (List.sublist_append_left _ _)

end Among

/-- The fault concerns one of the tokens.  One that concerns none says that a function type is missing. -/
structure Concerns (tokens : List Token) (fault : Fault) : Prop where
  inside : fault.cause ≠ .outsideRange
  unlocated : fault.span = none → fault.cause = .missing .functionType
  located : ∀ span ∈ fault.span, ∃ t ∈ tokens, t.span = span

theorem Concerns.blame (member : t ∈ tokens) (inside : cause ≠ .outsideRange) : Concerns tokens (.blame t cause) :=
  ⟨inside, nofun, fun span located => ⟨t, member, by simpa [Fault.blame] using located⟩⟩

/-- Either `x` fails at one of the tokens.  Or it gives a value that satisfies `P`, with notes that say of
the tokens what these can turn out to be, and `y` gives what `f` makes of the value. -/
def Parses {α β : Type} (tokens : List Token) (x : Reading α) (y : Reading β) (f : α → β) (P : α → Prop) : Prop :=
  match x with
  | .fail fault => Concerns tokens fault
  | .done a notes =>
    P a ∧ (∀ note ∈ notes, note.token ∈ tokens ∧ note.token.CanPlay note.role) ∧ ∃ notes', y = .done (f a) notes'

abbrev movedAll (shift : Shift) (ts : List Token) : List Token := ts.map (Token.moved shift)

/-- What was read from the front of some tokens, farther on. -/
def Parsed.moved {α β : Type} (shift : Shift) (f : α → β) (parsed : Parsed α) : Parsed β :=
  ⟨f parsed.value, movedAll shift parsed.rest⟩

def Step.moved {σ τ α β : Type} (shift : Shift) (g : σ → τ) (f : α → β) : Step σ α → Step τ β
  | .next state rest => .next (g state) (movedAll shift rest)
  | .stop a => .stop (f a)

namespace Parses

variable {α α' β β' σ τ : Type} {x x' : Reading α} {y y' : Reading β} {f : α → β} {P P' : α → Prop}
  {c c' : Prop} [Decidable c] [Decidable c'] {fault fault' : Fault}

theorem fail (concerns : Concerns tokens fault) : Parses tokens (.fail fault : Reading α) y f P :=
  concerns

theorem blame (member : t ∈ tokens) (inside : cause ≠ .outsideRange) :
    Parses tokens (.fail (.blame t cause) : Reading α) y f P :=
  Concerns.blame member inside

theorem pure {a : α} {b : β} (holds : P a) (same : b = f a) : Parses tokens (Pure.pure a) (Pure.pure b) f P :=
  ⟨holds, List.forall_mem_nil _, [], same ▸ rfl⟩

theorem mono (reads : Parses tokens x y f P) (weaker : ∀ a, P a → P' a) : Parses tokens x y f P' := by
  cases x with
  | fail fault => exact reads
  | done a notes => exact ⟨weaker a reads.1, reads.2⟩

theorem bind {k : α → Reading α'} {k' : β → Reading β'} {g : α' → β'} {Q : α' → Prop}
    (first : Parses tokens x y f P) (second : ∀ a, P a → Parses tokens (k a) (k' (f a)) g Q) :
    Parses tokens (x >>= k) (y >>= k') g Q := by
  cases x with
  | fail fault => exact first
  | done a notes =>
    obtain ⟨holds, annotates, notes', rfl⟩ := first
    have second := second a holds
    rw [Logged.done_bind, Logged.done_bind]
    cases given : k a with
    | fail fault => rw [given] at second; exact second
    | done b more =>
      rw [given] at second
      obtain ⟨holds, annotates', more', given'⟩ := second
      rw [given']
      exact ⟨holds, List.forall_mem_append.2 ⟨annotates, annotates'⟩, _, rfl⟩

theorem note {t' : Token} {role role' : Role} (member : t ∈ tokens) (plays : t.CanPlay role) :
    Parses tokens (note t role) (Sharp.note t' role') id fun _ => True :=
  ⟨trivial, List.forall_mem_singleton.2 ⟨member, plays⟩, _, rfl⟩

theorem note_bind {role role' : Role} {k : Unit → Reading α} {k' : Unit → Reading β}
    (member : t ∈ tokens) (plays : t.CanPlay role) (next : Parses tokens (k ()) (k' ()) f P) :
    Parses tokens (Sharp.note t role >>= k) (Sharp.note t' role' >>= k') f P :=
  bind (note member plays) fun _ _ => next

theorem ite (same : c' ↔ c) (first : c → Parses tokens x y f P) (second : ¬ c → Parses tokens x' y' f P) :
    Parses tokens (if c then x else x') (if c' then y else y') f P := by
  by_cases holds : c
  · rw [if_pos holds, if_pos (same.2 holds)]
    exact first holds
  · rw [if_neg holds, if_neg (mt same.1 holds)]
    exact second holds

theorem guard {k : Unit → Reading α} {k' : Unit → Reading β} (same : c' ↔ c)
    (concerns : Concerns tokens fault) (passed : ¬ c → Parses tokens (k ()) (k' ()) f P) :
    Parses tokens (if c then .fail fault >>= k else k ()) (if c' then .fail fault' >>= k' else k' ()) f P :=
  ite same (fun _ => concerns) passed

theorem require {b b' : Bool} {k : Unit → Reading α} {k' : Unit → Reading β} (same : b' = b)
    (concerns : Concerns tokens fault) (passed : b = true → Parses tokens (k ()) (k' ()) f P) :
    Parses tokens (if !b then .fail fault >>= k else k ()) (if !b' then .fail fault' >>= k' else k' ()) f P :=
  guard (by rw [same]) concerns fun holds => passed (by simpa using holds)

/-- Each round goes on with fewer tokens, and as much farther on as it started. -/
theorem walk {round : σ → Token → List Token → Reading (Step σ α)} {finish : σ → Reading α}
    {round' : τ → Token → List Token → Reading (Step τ β)} {finish' : τ → Reading β} {g : σ → τ}
    (I : σ → List Token → Prop)
    (step : ∀ state t rest, I state (t :: rest) → Parses tokens (round state t rest)
      (round' (g state) (t.moved shift) (movedAll shift rest)) (Step.moved shift g f) (Step.Meets rest I P))
    (last : ∀ state, I state [] → Parses tokens (finish state) (finish' (g state)) f P) {state : σ}
    {ts : List Token} (start : I state ts) :
    Parses tokens (walk round finish state ts) (Sharp.walk round' finish' (g state) (movedAll shift ts)) f P := by
  induction state, ts using walk.induct with
  | case1 state =>
    rw [movedAll, List.map_nil, walk_nil, walk_nil]
    exact last state start
  | case2 state t rest ih =>
    rw [movedAll, List.map_cons, walk_cons, walk_cons]
    refine bind (step state t rest start) fun result holds => ?_
    cases result with
    | stop a => exact pure holds rfl
    | next state rest' =>
      have shorter : rest'.length < (t :: rest).length := Nat.lt_succ_of_le holds.1.length_le
      exact ite (by simp) (fun _ => ih state rest' shorter holds.2) fun long => absurd shorter long

theorem done {a : α} {notes : List Note} (reads : Parses tokens x y f P) (given : x = .done a notes) :
    P a ∧ ∃ notes', y = .done (f a) notes' := by
  subst given
  exact ⟨reads.1, reads.2.2⟩

theorem finds {source : Source} (reads : Parses source.tokens x y f P) : source.Finds x P := by
  cases x with
  | fail fault => exact ⟨reads.inside, reads.unlocated, reads.located⟩
  | done a notes => exact ⟨reads.1, reads.2.1⟩

end Parses

/-! ## Slots -/

/-- The first token is taken, and some of those after it. -/
structure Takes (strict : Prop) (t : Token) (rest rest' : List Token) : Prop where
  spends : Spends strict 0 (t :: rest) rest'
  suffix : rest' <:+ rest

section Takes

variable {strict : Prop} {rest' middle : List Token}

theorem Takes.cons (first : TypeTokens 0 [t]) (others : Spends strict 0 rest rest') : Takes strict t rest rest' :=
  ⟨.cons first others, others.suffix⟩

theorem Takes.before (takes : Takes strict t rest middle) (spends : Spends strict 0 middle rest') :
    Takes strict t rest rest' :=
  ⟨takes.spends.trans spends, spends.suffix.trans takes.suffix⟩

theorem Takes.weaken {strict' : Prop} (takes : Takes strict t rest rest') (weaker : strict' → strict) :
    Takes strict' t rest rest' :=
  ⟨takes.spends.weaken fun holds => ⟨weaker holds, rfl⟩, takes.suffix⟩

end Takes

/-- What is read from at most `n` of the tokens is neat, and the same is read farther on. -/
def TypeReader.Parses (tokens : List Token) (shift : Shift) (n : Nat) (reader : TypeReader) : Prop :=
  ∀ opts t rest, Among tokens n (t :: rest) → Sharp.Parses tokens (reader.readFrom opts t rest)
    (reader.readFrom opts (t.moved shift) (movedAll shift rest)) (Parsed.moved shift (TypeExpr.moved shift))
    fun type => Takes True t rest type.rest ∧ (AllRegular tokens → type.value.Neat)

section Parts

variable {reader : TypeReader} {first : Token} {more : List Token} {args : List Slot} {arrow : Token}

theorem TypeReader.Parses.read (reads : reader.Parses tokens shift n) (opts : TypeOptions)
    {missing missing' : Fault} (concerns : Concerns tokens missing) (among : Among tokens n ts) :
    Sharp.Parses tokens (reader.read opts missing ts) (reader.read opts missing' (movedAll shift ts))
      (Parsed.moved shift (TypeExpr.moved shift))
      fun type => Spends True 0 ts type.rest ∧ (AllRegular tokens → type.value.Neat) := by
  cases ts with
  | nil => exact .fail concerns
  | cons t rest => exact (reads opts t rest among).mono fun type read => ⟨read.1.spends, read.2⟩

theorem splitPassing_moved (first : Token) (more : List Token) :
    splitPassing (first.moved shift) (movedAll shift more) =
      ((splitPassing first more).1, movedAll shift (splitPassing first more).2) := by
  have keyword (t : Token) (text : String) : (t.moved shift).isKeyword text = t.isKeyword text := rfl
  unfold splitPassing
  cases more with
  | nil => simp only [keyword, List.map_nil]; split_ifs <;> rfl
  | cons second rest => simp only [keyword, List.map_cons]; split_ifs <;> rfl

/-- A mark stands in front of a slot, or none. -/
theorem takes_splitPassing (first : Token) (more : List Token) :
    splitPassing first more = (none, first :: more) ∨
      (splitPassing first more).1.isSome = true ∧ Takes False first more (splitPassing first more).2 := by
  have word {text : String} (keyword : first.isKeyword text = true) : Takes False first more more :=
    ⟨.keyword keyword .refl, List.suffix_rfl⟩
  unfold splitPassing
  split
  · next ref =>
    split
    · next second rest =>
      split
      · next immut => exact .inr ⟨rfl, (word ref).before (.keyword immut .refl)⟩
      · exact .inr ⟨rfl, word ref⟩
    · exact .inr ⟨rfl, word ref⟩
  · split
    · next keyword => exact .inr ⟨rfl, word keyword⟩
    · split
      · next keyword => exact .inr ⟨rfl, word keyword⟩
      · split
        · next keyword => exact .inr ⟨rfl, word keyword⟩
        · exact .inl rfl

section

variable (reads : reader.Parses tokens shift n) (owner : SlotOwner) (opts : TypeOptions)
  (among : Among tokens (n + 1) (first :: more))
include reads among

/-- The parts of a tuple type are not passed to anything. -/
theorem readSlot_reads : Parses tokens (readSlot reader owner opts first more)
      (readSlot reader owner opts (first.moved shift) (movedAll shift more))
      (Parsed.moved shift (Option.map (Slot.moved shift)))
      fun slot => Takes (owner = .tuple) first more slot.rest ∧
        (AllRegular tokens → ∀ value ∈ slot.value, value.Neat) := by
  have marked := takes_splitPassing first more
  unfold readSlot
  refine .ite Iff.rfl (fun discard => ?_) fun _ => .guard (by simp) (.blame among.head nofun) fun _ => ?_
  · have isName := isNameLike_of_isDiscard discard
    exact .note_bind among.head (canPlay_of_isNameLike isName _) (.pure ⟨.cons (.name isName) .refl, by simp⟩ rfl)
  rw [splitPassing_moved]
  generalize splitPassing first more = split at marked ⊢
  obtain ⟨passing, named⟩ := split
  refine .guard Iff.rfl (.blame among.head nofun) fun allowed => ?_
  have named_eq : named = first :: more ∨ Takes (owner = .tuple) first more named := by
    rcases marked with ⟨⟨⟩⟩ | ⟨marked, takes⟩
    · exact .inl rfl
    · exact .inr (takes.weaken fun tuple => allowed ⟨marked, by simp [tuple]⟩)
  have named_among : Among tokens (n + 1) named := by
    rcases named_eq with rfl | takes
    · exact among
    · exact among.spends takes.spends
  cases named with
  | nil => exact .blame among.last nofun
  | cons name rest =>
    refine .require rfl (.blame named_among.head nofun) fun isName => ?_
    cases rest with
    | nil => exact .blame named_among.head nofun
    | cons colon rest =>
      have colon_member := named_among.tail.head
      refine .require rfl (.blame named_among.head nofun) fun isColon =>
        .note_bind named_among.head (canPlay_of_isNameLike isName _) (.note_bind colon_member
        (canPlay_of_isOp isColon (by decide) _) (.bind (reads.read opts (.blame colon_member nofun)
        named_among.pred.tail) fun type read => .pure ⟨?_, fun regular => ?_⟩ rfl))
      · have typed : Spends (owner = .tuple) 0 (colon :: rest) type.rest :=
          .cons (.operator isColon (by decide)) (read.1.weaken fun _ => ⟨trivial, rfl⟩)
        rcases named_eq with same | takes
        · cases same
          exact .cons (.name isName) typed
        · exact takes.before (.cons (.name isName) typed)
      · rintro _ ⟨⟩
        exact .mk ((regular name named_among.head).tidy_word (isWord_of_isNameLike isName)) (read.2 regular)

theorem readNamedSlot_reads : Parses tokens (readNamedSlot reader owner opts first more)
      (readNamedSlot reader owner opts (first.moved shift) (movedAll shift more))
      (Parsed.moved shift (Slot.moved shift))
      fun slot => Takes (owner = .tuple) first more slot.rest ∧ (AllRegular tokens → slot.value.Neat) := by
  refine .bind (readSlot_reads reads owner opts among) fun slot read => ?_
  obtain ⟨value, rest⟩ := slot
  cases value with
  | none => exact .blame among.head nofun
  | some value => exact .pure ⟨read.1, fun regular => read.2 regular value rfl⟩ rfl

end

/-! ## Function types -/

def NeatFunction (function : List Slot × TypeExpr) : Prop :=
  (∀ slot ∈ function.1, slot.Neat) ∧ function.2.Neat

def movedFunction (shift : Shift) (function : List Slot × TypeExpr) : List Slot × TypeExpr :=
  (function.1.map (Slot.moved shift), function.2.moved shift)

/-- Bare arguments are written as types are. -/
def ArgumentStyle.IsBare : ArgumentStyle → Prop
  | .bare _ => True
  | .declared => False

theorem readArgument_reads (reads : reader.Parses tokens shift n) (style : ArgumentStyle)
    (among : Among tokens n (first :: more)) :
    Parses tokens (readArgument reader style first more)
      (readArgument reader style (first.moved shift) (movedAll shift more))
      (Parsed.moved shift (Slot.moved shift))
      fun arg => Takes style.IsBare first more arg.rest ∧ (AllRegular tokens → arg.value.Neat) := by
  cases style with
  | bare opts =>
    refine .bind (reads opts first more among) fun type read => .pure ⟨read.1, fun regular => ?_⟩ rfl
    exact .mk (by decide) (read.2 regular)
  | declared =>
    exact (readNamedSlot_reads reads _ _ among.succ).mono fun slot read => ⟨read.1.weaken False.elim, read.2⟩

theorem readReturned_reads (reads : reader.Parses tokens shift n)
    (args_neat : AllRegular tokens → ∀ slot ∈ args, slot.Neat) (isArrow : arrow.isOp "=>" = true)
    (among : Among tokens n (arrow :: ts)) {strict : Prop} :
    Parses tokens (readReturned reader args arrow ts)
      (readReturned reader (args.map (Slot.moved shift)) (arrow.moved shift) (movedAll shift ts))
      (Parsed.moved shift (movedFunction shift)) fun function =>
        Spends strict 1 (arrow :: ts) function.rest ∧ (AllRegular tokens → NeatFunction function.value) :=
  .note_bind among.head (canPlay_of_isOp isArrow (by decide) _) (.bind
    (reads.read _ (.blame among.head nofun) among.tail) fun _ read =>
      .pure ⟨.arrow isArrow read.1, fun regular => ⟨args_neat regular, read.2 regular⟩⟩ rfl)

theorem normal_neat {name : String} (tidy : Tidy name) : (TypeExpr.normal name).Neat :=
  .mk (.normal tidy) (by simp)

/-- That a function type is missing is said of no token. -/
theorem concerns_functionType : Concerns tokens ⟨.missing .functionType, none⟩ :=
  ⟨nofun, fun _ => rfl, nofun⟩

section

variable (reads : reader.Parses tokens shift n) (style : ArgumentStyle)
include reads

/-- Where no arrow follows the arguments of a declared function, it returns nothing. -/
theorem readArgumentRound_reads
    (args_neat : AllRegular tokens → ∀ slot ∈ args, slot.Neat) (among : Among tokens n (first :: more)) :
    Parses tokens (readArgumentRound reader style args first more)
      (readArgumentRound reader style (args.map (Slot.moved shift)) (first.moved shift) (movedAll shift more))
      (Step.moved shift (List.map (Slot.moved shift)) (Parsed.moved shift (movedFunction shift))) fun
        | .next args rest =>
          Takes style.IsBare first more rest ∧ (AllRegular tokens → ∀ slot ∈ args, slot.Neat)
        | .stop function => Spends style.IsBare 1 (first :: more) function.rest ∧
          (AllRegular tokens → NeatFunction function.value) := by
  refine .bind (readArgument_reads reads style among) fun arg read => ?_
  obtain ⟨arg, rest⟩ := arg
  obtain ⟨takes, arg_neat⟩ := read
  have added : args.map (Slot.moved shift) ++ [arg.moved shift] = (args ++ [arg]).map (Slot.moved shift) := by simp
  have args_neat : AllRegular tokens → ∀ slot ∈ args ++ [arg], slot.Neat := fun regular =>
    List.forall_mem_append.2 ⟨args_neat regular, List.forall_mem_singleton.2 (arg_neat regular)⟩
  have returnsNothing : AllRegular tokens → NeatFunction (args ++ [arg], .normal "void") :=
    fun regular => ⟨args_neat regular, normal_neat (by decide)⟩
  have returned : movedFunction shift (args ++ [arg], .normal "void") =
      ((args ++ [arg]).map (Slot.moved shift), .normal "void") := by simp [movedFunction]
  have rest_among := among.spends takes.spends
  dsimp only [Parsed.moved]
  rw [added]
  cases rest with
  | nil =>
    cases style with
    | declared => exact .pure ⟨takes.spends.weaken False.elim, returnsNothing⟩ (by rw [← returned]; rfl)
    | bare opts => exact .blame among.last nofun
  | cons t rest =>
    refine .ite Iff.rfl (fun ends => ?_) fun _ => .ite Iff.rfl (fun comma => ?_) fun _ =>
      .ite Iff.rfl (fun isArrow => ?_) fun _ => .blame rest_among.head nofun
    · cases style with
      | declared => exact .pure ⟨takes.spends.weaken False.elim, returnsNothing⟩ (by rw [← returned]; rfl)
      | bare opts => cases ends
    · refine .note_bind rest_among.head (canPlay_of_isOp comma (by decide) _) (.guard (by simp)
        (.blame rest_among.head nofun) fun _ => .pure ⟨takes.before ?_, args_neat⟩ rfl)
      exact .operator comma (by decide)
    · exact .bind (readReturned_reads reads args_neat isArrow rest_among) fun function read =>
        .pure ⟨takes.spends.trans read.1, read.2⟩ rfl

theorem readArguments_reads (among : Among tokens n ts) :
    Parses tokens (readArguments reader style ts) (readArguments reader style (movedAll shift ts))
      (Parsed.moved shift (movedFunction shift)) fun function =>
        Spends style.IsBare 1 ts function.rest ∧ (AllRegular tokens → NeatFunction function.value) := by
  refine .walk (g := List.map (Slot.moved shift)) (fun args rest => Spends style.IsBare 0 ts rest ∧
    (AllRegular tokens → ∀ slot ∈ args, slot.Neat)) ?_ (fun _ _ => .fail concerns_functionType)
    ⟨.refl, by simp⟩
  rintro args first more ⟨spent, args_neat⟩
  refine (readArgumentRound_reads reads style args_neat (among.spends spent)).mono fun step read => ?_
  cases step with
  | next args rest => exact ⟨read.1.suffix, spent.trans read.1.spends, read.2⟩
  | stop function => exact ⟨spent.trans read.1, read.2⟩

theorem readFunction_reads (among : Among tokens n ts) :
    Parses tokens (readFunction reader style ts) (readFunction reader style (movedAll shift ts))
      (Parsed.moved shift (movedFunction shift)) fun function =>
        Spends style.IsBare 1 ts function.rest ∧ (AllRegular tokens → NeatFunction function.value) := by
  cases ts with
  | nil => exact .fail concerns_functionType
  | cons first more =>
    refine .ite Iff.rfl (fun _ => readArguments_reads reads style among) fun discard => ?_
    have isName := isNameLike_of_isDiscard (by simpa using discard)
    refine .note_bind among.head (canPlay_of_isNameLike isName _) ?_
    cases more with
    | nil => exact .blame among.head nofun
    | cons arrow rest =>
      refine .require rfl (.blame among.head nofun) fun isArrow => ?_
      exact (readReturned_reads reads (by simp) isArrow among.tail).mono fun function read =>
        ⟨.cons (.name isName) read.1, read.2⟩

end

/-! ## Generics -/

section Splits

def Split.moved (shift : Shift) (s : Split) : Split :=
  ⟨movedAll shift s.before, s.found.moved shift, movedAll shift s.after⟩

theorem Split.map_cons_moved (t : Token) (split? : Option Split) :
    (split?.map (Split.moved shift)).map (Split.cons (t.moved shift)) =
      (split?.map (Split.cons t)).map (Split.moved shift) := by
  cases split? <;> rfl

theorem splitCloseAt_moved (form : BracketForm) (depth : Nat) (ts : List Token) :
    splitCloseAt form depth (movedAll shift ts) = (splitCloseAt form depth ts).map (Split.moved shift) := by
  induction ts generalizing depth with
  | nil => rfl
  | cons t ts ih =>
    have isOp (text : String) : (t.moved shift).isOp text = t.isOp text := rfl
    simp only [List.map_cons, splitCloseAt, isOp, ih, Split.map_cons_moved]
    split
    · rfl
    · split
      · cases depth <;> rfl
      · rfl

theorem splitTopAt_moved {p : Token → Bool} (same : ∀ t, p (t.moved shift) = p t) (depth : Nat)
    (ts : List Token) : splitTopAt p depth (movedAll shift ts) = (splitTopAt p depth ts).map (Split.moved shift) := by
  induction ts generalizing depth with
  | nil => rfl
  | cons t ts ih =>
    have opener : (t.moved shift).isOpener = t.isOpener := rfl
    have closer : (t.moved shift).isCloser = t.isCloser := rfl
    simp only [List.map_cons, splitTopAt, same, opener, closer, ih, Split.map_cons_moved]
    split
    · rfl
    · split
      · rfl
      · split
        · cases depth <;> rfl
        · rfl

theorem splitParamGroup_moved (first : Token) (more : List Token) :
    splitParamGroup? (first.moved shift) (movedAll shift more) =
      (splitParamGroup? first more).map (Split.moved shift) := by
  have isOp : (first.moved shift).isOp "(" = first.isOp "(" := rfl
  have top (s : Split) : hasTop (·.isOp "/") (s.moved shift).before = hasTop (·.isOp "/") s.before := by
    rw [hasTop, hasTop, splitTop, splitTop, Split.moved, splitTopAt_moved fun _ => rfl, Option.isSome_map]
  unfold splitParamGroup?
  rw [isOp, splitClose, splitCloseAt_moved]
  split
  · rw [Option.filter_map]
    congr 2
    funext s
    exact top s
  · rfl

theorem splitClose_of_splitParamGroup {s : Split} (split : splitParamGroup? first more = some s) :
    first.isOp "(" = true ∧ splitClose .parenthesis more = some s := by
  unfold splitParamGroup? at split
  split at split
  · next opens => exact ⟨opens, (Option.filter_eq_some_iff.1 split).1⟩
  · cases split

end Splits

def ParamState.moved (shift : Shift) (state : ParamState) : ParamState :=
  ⟨state.params.map (TypeExpr.moved shift), state.before.moved shift⟩

/-- The parameters are neat, and the token in front of the next one is known. -/
structure ParamState.Sound (tokens : List Token) (state : ParamState) : Prop where
  neat : AllRegular tokens → ∀ param ∈ state.params, param.Neat
  before : state.before ∈ tokens

theorem ParamState.Sound.start {before : Token} (member : before ∈ tokens) : ParamState.Sound tokens { before } :=
  ⟨by simp, member⟩

theorem ParamState.Sound.concerns {state : ParamState} (sound : state.Sound tokens) : Concerns tokens state.fault :=
  .blame sound.before nofun

section

variable (reads : reader.Parses tokens shift n)
include reads

theorem readGroupedParams_reads {before : Token} (member : before ∈ tokens) (among : Among tokens n ts) :
    Parses tokens (readGroupedParams reader before ts)
      (readGroupedParams reader (before.moved shift) (movedAll shift ts)) (List.map (TypeExpr.moved shift))
      fun params => Spends True 0 ts [] ∧ (AllRegular tokens → ∀ param ∈ params, param.Neat) := by
  refine .walk (g := ParamState.moved shift) (fun state rest => Spends True 0 ts rest ∧ state.Sound tokens) ?_
    (fun _ invariant => .fail invariant.2.concerns) ⟨.refl, .start member⟩
  rintro state first more ⟨spent, sound⟩
  have among := among.spends spent
  refine .bind (reads .genericsParam first more among) fun param read => ?_
  obtain ⟨param, rest⟩ := param
  obtain ⟨takes, param_neat⟩ := read
  have added : state.params.map (TypeExpr.moved shift) ++ [param.moved shift] =
      (state.params ++ [param]).map (TypeExpr.moved shift) := by simp
  have params_neat : AllRegular tokens → ∀ type ∈ state.params ++ [param], type.Neat := fun regular =>
    List.forall_mem_append.2 ⟨sound.neat regular, List.forall_mem_singleton.2 (param_neat regular)⟩
  have rest_among := among.spends takes.spends
  dsimp only [Parsed.moved, ParamState.moved]
  rw [added]
  cases rest with
  | nil => exact .pure ⟨spent.trans takes.spends, params_neat⟩ rfl
  | cons t rest =>
    refine .require rfl (.blame rest_among.head nofun) fun slash =>
      .note_bind rest_among.head (canPlay_of_isOp slash (by decide) _) (.pure ?_ rfl)
    have takes := takes.before (.operator slash (by decide))
    exact ⟨takes.suffix, spent.trans takes.spends, params_neat, rest_among.head⟩

theorem readParam_reads (among : Among tokens n (first :: more)) :
    Parses tokens (readParam reader first more) (readParam reader (first.moved shift) (movedAll shift more))
      (Parsed.moved shift (List.map (TypeExpr.moved shift)))
      fun param => Takes True first more param.rest ∧ (AllRegular tokens → ∀ type ∈ param.value, type.Neat) := by
  unfold readParam
  rw [splitParamGroup_moved]
  cases split : splitParamGroup? first more with
  | none =>
    refine .bind (reads .genericsParam first more among) fun _ read => .pure ⟨read.1, fun regular => ?_⟩ rfl
    simpa using read.2 regular
  | some s =>
    obtain ⟨opens, split⟩ := splitClose_of_splitParamGroup split
    refine .bind (readGroupedParams_reads reads among.head (among.tail.splitClose split)) fun _ read =>
      .pure ⟨⟨.group opens split read.1, ?_⟩, read.2⟩ rfl
    exact Source.suffix_of_split (eq_of_splitClose split)

theorem readParams_reads (isSingle : Bool) {before : Token} (member : before ∈ tokens) (among : Among tokens n ts) :
    Parses tokens (readParams reader isSingle before ts)
      (readParams reader isSingle (before.moved shift) (movedAll shift ts))
      (Parsed.moved shift (List.map (TypeExpr.moved shift))) fun params =>
        Spends True 0 ts params.rest ∧ (AllRegular tokens → ∀ param ∈ params.value, param.Neat) := by
  refine .walk (g := ParamState.moved shift) (fun state rest => Spends True 0 ts rest ∧ state.Sound tokens) ?_
    (fun _ invariant => .fail invariant.2.concerns) ⟨.refl, .start member⟩
  rintro state first more ⟨spent, sound⟩
  have among := among.spends spent
  refine .bind (readParam_reads reads among) fun param read => ?_
  obtain ⟨param, rest⟩ := param
  obtain ⟨takes, param_neat⟩ := read
  have added : state.params.map (TypeExpr.moved shift) ++ param.map (TypeExpr.moved shift) =
      (state.params ++ param).map (TypeExpr.moved shift) := by simp
  have params_neat : AllRegular tokens → ∀ type ∈ state.params ++ param, type.Neat := fun regular =>
    List.forall_mem_append.2 ⟨sound.neat regular, param_neat regular⟩
  have rest_among := among.spends takes.spends
  dsimp only [Parsed.moved, ParamState.moved]
  rw [added]
  cases rest with
  | nil => exact .pure ⟨spent.trans takes.spends, params_neat⟩ rfl
  | cons t rest =>
    refine .ite Iff.rfl (fun _ => .pure ⟨spent.trans takes.spends, params_neat⟩ rfl) fun goesOn => ?_
    simp only [Bool.or_eq_true, Bool.not_eq_true', not_or, Bool.not_eq_false] at goesOn
    refine .note_bind rest_among.head (canPlay_of_isOp goesOn.1 (by decide) _) (.pure ?_ rfl)
    have takes := takes.before (.operator goesOn.1 (by decide))
    exact ⟨takes.suffix, spent.trans takes.spends, params_neat, rest_among.head⟩

end

theorem noteTypeName_done (t : Token) : ∃ notes, noteTypeName t = .done () notes := by
  unfold noteTypeName
  split
  · exact ⟨_, rfl⟩
  · split <;> exact ⟨_, rfl⟩

theorem noteTypeName_reads (member : t ∈ tokens) (isName : t.isTypeName = true) :
    Parses tokens (noteTypeName t) (noteTypeName t') id fun _ => True := by
  obtain ⟨notes', done⟩ := noteTypeName_done t'
  rw [done]
  unfold noteTypeName
  split
  · next discard =>
    have plays := canPlay_of_isNameLike (isNameLike_of_isTypeName isName discard) .discard
    exact ⟨trivial, List.forall_mem_singleton.2 ⟨member, plays⟩, notes', rfl⟩
  · split
    · next identifier =>
      have plays := canPlay_of_isNameLike (t := t) (by simp [isNameLike, identifier]) .other
      exact ⟨trivial, List.forall_mem_singleton.2 ⟨member, plays⟩, notes', rfl⟩
    · exact ⟨trivial, List.forall_mem_nil _, notes', rfl⟩

theorem readGenerics_reads (reads : reader.Parses tokens shift n) (opts : TypeOptions) {head : Token}
    (isName : head.isTypeName = true) (isDash : dash.isOp "-" = true)
    (among : Among tokens (n + 1) (head :: dash :: ts)) :
    Parses tokens (readGenerics reader opts head dash ts)
      (readGenerics reader opts (head.moved shift) (dash.moved shift) (movedAll shift ts))
      (Parsed.moved shift (TypeExpr.moved shift)) fun type =>
        Takes True head (dash :: ts) type.rest ∧ (AllRegular tokens → type.value.Neat) := by
  have dash_among := among.pred
  refine .bind (noteTypeName_reads among.head isName) fun _ _ => .note_bind dash_among.head
    (canPlay_of_isOp isDash (by decide) _) (.bind (readParams_reads reads _ dash_among.head dash_among.tail)
    fun params read => .pure ⟨.cons (.typeName isName) ?_, fun regular => ?_⟩ ?_)
  · exact .cons (.operator isDash (by decide)) read.1
  · have tidy := (regular head among.head).tidy_word (isWord_of_isTypeName isName)
    exact .mk (.generics (normal_neat tidy) (read.2 regular)) (by simp)
  · simp [Parsed.moved, plain_moved, Shape.moved]
    rfl

end Parts

end Sharp
