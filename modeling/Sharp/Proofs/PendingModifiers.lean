import Sharp.Proofs.Enclosing
import Sharp.Proofs.ModifierSequences

/-!
# Modifiers that wait for a declaration

A modifier is held until a declaration takes it, and the declaration writes it down.  Only `yield` is never
written: it changes the `return` statements in the body of a function.

* `pending_taken`: what becomes of the modifiers in front of a statement, and of those in a block.
-/

namespace Sharp

open Layers

variable {target text spaced : String} {value : Unit} {container : Container} {front : List Piece}
  {pending : Modifiers} {inner : Converters} {scope : Scope} {ts ts' : List Token} {output : Output}
  {kind : Option Inheritance} {given : StructModifiers} {P : Parsed Statement → List Piece → Prop}

/-! ## Words of a header -/

/-- Nothing, or something with a space after it. -/
def EndsInSpace (text : String) : Prop := text = "" ∨ ∃ front, text = front ++ " "

/-- The text has the word, between spaces. -/
def HasWord (text word : String) : Prop :=
  ∃ before after, EndsInSpace before ∧ text = before ++ word ++ " " ++ after

def writtenModifier (word : String) : String :=
  if word = "immut" then "readonly" else word

section Words

variable {front word : String}

theorem EndsInSpace.append (first : EndsInSpace front) (second : EndsInSpace text) : EndsInSpace (front ++ text) := by
  rcases second with rfl | ⟨inside, rfl⟩
  · rwa [String.append_empty]
  · exact .inr ⟨front ++ inside, (String.append_assoc ..).symm⟩

theorem endsInSpace_accessText (words : List String) : EndsInSpace (accessText words) := by
  induction words with
  | nil => exact .inl rfl
  | cons word words ih => exact .append (.inr ⟨word, rfl⟩) ih

theorem HasWord.single (word : String) : HasWord (word ++ " ") word := ⟨"", "", .inl rfl, by simp⟩

theorem HasWord.append (has : HasWord text word) (back : String) : HasWord (text ++ back) word := by
  obtain ⟨before, after, spaced, rfl⟩ := has
  exact ⟨before, after ++ back, spaced, String.append_assoc ..⟩

theorem HasWord.behind (has : HasWord text word) (spaced : EndsInSpace front) : HasWord (front ++ text) word := by
  obtain ⟨before, after, spaced', rfl⟩ := has
  exact ⟨front ++ before, after, spaced.append spaced', by simp only [String.append_assoc]⟩

end Words

/-! ## Modifiers of a declaration -/

namespace Modifiers

variable {words : List String} {word : String} {mods : Modifiers}

/-- Every word is held in one of the five places. -/
theorem Holds.cases (holds : mods.Holds words) (known : word ∈ modifierWords) (member : word ∈ words) :
    (∃ kind : Inheritance, mods.inheritance.map (·.1) = some kind ∧ word = kind.text) ∨
      (∃ held, mods.refImmut.map (·.1) = some held ∧ word ∈ held.words) ∨
      (word = "async" ∧ mods.async.isSome) ∨ (word = "yield" ∧ mods.yields.isSome) ∨
      (word = "partial" ∧ mods.partly.isSome) := by
  have pair (listed : word = "ref" ∨ word = "immut") :
      ∃ held, mods.refImmut.map (·.1) = some held ∧ word ∈ held.words := by
    rw [← mem_refImmutWords_iff listed, holds.refImmut] at member
    cases held : mods.refImmut with
    | none =>
      rw [held] at member
      cases member
    | some pair =>
      rw [held] at member
      exact ⟨pair.1, rfl, member⟩
  rcases List.mem_append.1 known with listed | listed
  · obtain ⟨kind, rfl⟩ := Inheritance.exists_text listed
    exact .inl ⟨kind, (holds.inheritance kind).2 member, rfl⟩
  · simp only [List.mem_cons, List.not_mem_nil, or_false] at listed
    rcases listed with rfl | rfl | rfl | listed
    · exact .inr (.inr (.inl ⟨rfl, holds.async.2 member⟩))
    · exact .inr (.inr (.inr (.inl ⟨rfl, holds.yields.2 member⟩)))
    · exact .inr (.inr (.inr (.inr ⟨rfl, holds.partly.2 member⟩)))
    · exact .inr (.inl (pair listed))

theorem Collects.exists_latest (collected : mods.Collects words) (held : words ≠ []) :
    ∃ last, mods.latest = some last := by
  have latest := collected.latest
  rw [List.getLast?_eq_some_getLast held] at latest
  obtain ⟨last, held, -⟩ := Option.map_eq_some_iff.1 latest
  exact ⟨last, held⟩

theorem exists_of_bind_ok {α β : Type} {x : Except Fault α} {f : α → Except Fault β} {b : β}
    (both : x >>= f = .ok b) : ∃ a, x = .ok a ∧ f a = .ok b := by
  cases x with
  | error fault => cases both
  | ok a => exact ⟨a, rfl, both⟩

theorem none_of_refuse {held : Option Token} (accepted : refuse held target = .ok value) : held = none := by
  cases held with
  | none => rfl
  | some t => cases accepted

theorem none_of_refuseRefImmut (accepted : mods.refuseRefImmut target = .ok value) : mods.refImmut = none :=
  Option.map_eq_none_iff.1 (none_of_refuse accepted)

theorem none_of_refuseAsyncYield (accepted : mods.refuseAsyncYield target = .ok value) :
    mods.async = none ∧ mods.yields = none := by
  obtain ⟨_, async, yields⟩ := exists_of_bind_ok accepted
  exact ⟨none_of_refuse async, none_of_refuse yields⟩

theorem memberInheritance_ok (accepted : mods.memberInheritance container target = .ok kind) :
    mods.inheritance.map (·.1) = kind := by
  unfold memberInheritance at accepted
  cases held : mods.inheritance with
  | none =>
    rw [held] at accepted
    cases accepted
    rfl
  | some pair =>
    rw [held] at accepted
    dsimp only at accepted
    split at accepted
    · cases accepted
      rfl
    · cases accepted

theorem forClass_ok {given : ClassModifiers} (accepted : mods.forClass = .ok given) :
    mods.refImmut = none ∧ mods.async = none ∧ mods.yields = none ∧
      mods.inheritance.map (·.1) = (if given.isAbstract then some .abstract else none) ∧
      given.isPartial = mods.partly.isSome := by
  obtain ⟨_, noPair, accepted⟩ := exists_of_bind_ok accepted
  obtain ⟨_, noAsyncYield, accepted⟩ := exists_of_bind_ok accepted
  obtain ⟨noAsync, noYield⟩ := none_of_refuseAsyncYield noAsyncYield
  refine ⟨none_of_refuseRefImmut noPair, noAsync, noYield, ?_⟩
  rcases held : mods.inheritance with _ | ⟨_ | _ | _ | _, _⟩ <;> rw [held] at accepted <;> cases accepted <;> simp

theorem forStruct_ok (accepted : mods.forStruct = .ok given) :
    mods.inheritance = none ∧ mods.async = none ∧ mods.yields = none ∧
      mods.refImmut.map (·.1) = given.refImmut ∧ given.refImmut ≠ some .refImmut ∧
      given.isPartial = mods.partly.isSome := by
  obtain ⟨_, noAsyncYield, accepted⟩ := exists_of_bind_ok accepted
  obtain ⟨_, noInheritance, accepted⟩ := exists_of_bind_ok accepted
  obtain ⟨noAsync, noYield⟩ := none_of_refuseAsyncYield noAsyncYield
  refine ⟨Option.map_eq_none_iff.1 (none_of_refuse noInheritance), noAsync, noYield, ?_⟩
  rcases held : mods.refImmut with _ | ⟨_ | _ | _ | _, _⟩ <;> rw [held] at accepted <;> cases accepted <;> simp

theorem forFn_ok {given : FnModifiers} (accepted : mods.forFn container = .ok given) :
    mods.refImmut = none ∧ mods.inheritance.map (·.1) = given.inheritance ∧ given.isAsync = mods.async.isSome ∧
      given.yields = mods.yields.isSome ∧ given.isPartial = mods.partly.isSome := by
  obtain ⟨_, noPair, accepted⟩ := exists_of_bind_ok accepted
  obtain ⟨kind, inheritance, same⟩ := exists_of_bind_ok accepted
  cases same
  exact ⟨none_of_refuseRefImmut noPair, memberInheritance_ok inheritance, rfl, rfl, rfl⟩

theorem forProp_ok (accepted : mods.forProp container = .ok kind) :
    mods.refImmut = none ∧ mods.async = none ∧ mods.yields = none ∧ mods.partly = none ∧
      mods.inheritance.map (·.1) = kind := by
  obtain ⟨_, noPair, accepted⟩ := exists_of_bind_ok accepted
  obtain ⟨_, noAsyncYield, accepted⟩ := exists_of_bind_ok accepted
  obtain ⟨_, noPartial, inheritance⟩ := exists_of_bind_ok accepted
  obtain ⟨noAsync, noYield⟩ := none_of_refuseAsyncYield noAsyncYield
  exact ⟨none_of_refuseRefImmut noPair, noAsync, noYield, none_of_refuse noPartial, memberInheritance_ok inheritance⟩

end Modifiers

/-- Every word is written in the text, except `yield`. -/
def WritesModifiers (words : List String) (text : String) : Prop :=
  ∀ word ∈ words, word ≠ "yield" → HasWord text (writtenModifier word)

section Consumers

variable {words : List String} {mods : Modifiers}

theorem WritesModifiers.append (writes : WritesModifiers words text) (back : String) :
    WritesModifiers words (text ++ back) :=
  fun word member other => (writes word member other).append back

theorem WritesModifiers.behind {front : String} (writes : WritesModifiers words text) (spaced : EndsInSpace front) :
    WritesModifiers words (front ++ text) :=
  fun word member other => (writes word member other).behind spaced

theorem writtenModifier_kind (kind : Inheritance) : writtenModifier kind.text = kind.text := by
  cases kind <;> rfl

theorem endsInSpace_kind (kind : Option Inheritance) : EndsInSpace ((kind.map fun i => i.text ++ " ").getD "") := by
  cases kind with
  | none => exact .inl rfl
  | some kind => exact .inr ⟨kind.text, rfl⟩

theorem hasWord_optional {c : Bool} (holds : c = true) (word : String) (same : spaced = word ++ " ") :
    HasWord (if c then spaced else "") word := by
  rw [if_pos holds, same]
  exact .single word

theorem endsInSpace_optional (c : Bool) (word : String) (same : spaced = word ++ " ") :
    EndsInSpace (if c then spaced else "") := by
  cases c with
  | false => exact .inl rfl
  | true => exact .inr ⟨word, same⟩

theorem refText_hasWord {held : RefImmut} {word : String} (taken : given.refImmut = some held)
    (accepted : given.refImmut ≠ some .refImmut) (listed : word ∈ held.words) :
    HasWord given.refText (writtenModifier word) := by
  rw [StructModifiers.refText, taken]
  cases held with
  | ref =>
    obtain rfl := List.mem_singleton.1 listed
    exact .single "ref"
  | immut =>
    obtain rfl := List.mem_singleton.1 listed
    exact .single "readonly"
  | refImmut => exact absurd taken accepted
  | immutRef =>
    rcases List.mem_pair.1 listed with rfl | rfl
    · exact ⟨"", "ref ", .inl rfl, rfl⟩
    · exact ⟨"readonly ", "", .inr ⟨"readonly", rfl⟩, rfl⟩

theorem endsInSpace_refText (given : StructModifiers) : EndsInSpace given.refText := by
  unfold StructModifiers.refText
  split
  · exact .inr ⟨"ref", rfl⟩
  · exact .inr ⟨"readonly", rfl⟩
  · exact .inr ⟨"readonly ref", rfl⟩
  · exact .inl rfl
  · exact .inl rfl

section

variable (collected : mods.Collects words) (legal : LegalWords words)
include collected legal

theorem classType_writes (taken : TypeDeclKind.classType.modifierText mods = .ok text) :
    WritesModifiers words text ∧ "yield" ∉ words := by
  obtain ⟨given, accepted, same⟩ := Modifiers.exists_of_bind_ok taken
  cases same
  obtain ⟨noPair, noAsync, noYield, inheritance, isPartial⟩ := Modifiers.forClass_ok accepted
  refine ⟨fun word member other => ?_, fun member => by simpa [noYield] using collected.yields.2 member⟩
  rcases collected.cases (legal.known word member) member with
    ⟨kind, held, rfl⟩ | ⟨pair, held, -⟩ | ⟨rfl, held⟩ | ⟨rfl, -⟩ | ⟨rfl, held⟩
  · rw [inheritance] at held
    obtain ⟨isAbstract, same⟩ := Option.ite_none_right_eq_some.1 held
    cases same
    exact .append (hasWord_optional isAbstract "abstract" rfl) _
  · simp [noPair] at held
  · simp [noAsync] at held
  · exact absurd rfl other
  · exact .behind (hasWord_optional (isPartial.trans held) "partial" rfl) (endsInSpace_optional _ "abstract" rfl)

theorem structType_writes (taken : TypeDeclKind.structType.modifierText mods = .ok text) :
    WritesModifiers words text ∧ "yield" ∉ words := by
  obtain ⟨given, accepted, same⟩ := Modifiers.exists_of_bind_ok taken
  cases same
  obtain ⟨noInheritance, noAsync, noYield, pair, accepted, isPartial⟩ := Modifiers.forStruct_ok accepted
  refine ⟨fun word member other => ?_, fun member => by simpa [noYield] using collected.yields.2 member⟩
  rcases collected.cases (legal.known word member) member with
    ⟨kind, held, rfl⟩ | ⟨held, taken, listed⟩ | ⟨rfl, held⟩ | ⟨rfl, -⟩ | ⟨rfl, held⟩
  · simp [noInheritance] at held
  · exact .append (refText_hasWord (pair.symm.trans taken) accepted listed) _
  · simp [noAsync] at held
  · exact absurd rfl other
  · exact .behind (hasWord_optional (isPartial.trans held) "partial" rfl) (endsInSpace_refText given)

theorem fn_writes {given : FnModifiers} (taken : mods.forFn container = .ok given) :
    WritesModifiers words given.text ∧ (given.yields = true ↔ "yield" ∈ words) := by
  obtain ⟨noPair, inheritance, isAsync, yields, isPartial⟩ := Modifiers.forFn_ok taken
  refine ⟨fun word member other => ?_, by rw [yields, collected.yields]⟩
  have kinds := endsInSpace_kind given.inheritance
  unfold FnModifiers.text
  rcases collected.cases (legal.known word member) member with
    ⟨kind, held, rfl⟩ | ⟨pair, held, -⟩ | ⟨rfl, held⟩ | ⟨rfl, -⟩ | ⟨rfl, held⟩
  · rw [← inheritance, held, writtenModifier_kind]
    exact ((HasWord.single kind.text).append _).append _
  · simp [noPair] at held
  · exact .append (.behind (hasWord_optional (isAsync.trans held) "async" rfl) kinds) _
  · exact absurd rfl other
  · refine .behind (hasWord_optional (isPartial.trans held) "partial" rfl) ?_
    exact kinds.append (endsInSpace_optional _ "async" rfl)

theorem prop_writes {given : Option Inheritance} (taken : mods.forProp container = .ok given) :
    WritesModifiers words ((given.map fun i => i.text ++ " ").getD "") ∧ "yield" ∉ words := by
  obtain ⟨noPair, noAsync, noYield, noPartial, inheritance⟩ := Modifiers.forProp_ok taken
  refine ⟨fun word member other => ?_, fun member => by simpa [noYield] using collected.yields.2 member⟩
  rcases collected.cases (legal.known word member) member with
    ⟨kind, held, rfl⟩ | ⟨pair, held, -⟩ | ⟨rfl, held⟩ | ⟨rfl, -⟩ | ⟨rfl, held⟩
  · rw [← inheritance, held, writtenModifier_kind]
    exact .single kind.text
  · simp [noPair] at held
  · simp [noAsync] at held
  · exact absurd rfl other
  · simp [noPartial] at held

end

end Consumers

/-! ## Declarations -/

/-- The first text of the pieces has every word. -/
def HasHeader (level : Nat) (words : List String) (pieces : List Piece) : Prop :=
  ∃ text more, WritesModifiers words text ∧
    (pieces = Piece.indents level ++ Piece.raw text :: more ∨ pieces = Piece.indents level ++ Piece.line text :: more)

/-- The pieces are a function that has no body, or has the tokens in braces after its header for a body.  A
function that yields is one with another scope for its body. -/
def IsFunction (inner : Converters) (scope : Scope) (yields : Bool) (rest : List Token) (pieces : List Piece) : Prop :=
  ∃ s header, splitTop (·.isOpIn ["\x7b", ";"]) rest = some s ∧
    (s.found.isOp ";" = true ∧ pieces = Piece.indents scope.level ++ [Piece.line (header ++ ";")] ∨
      s.found.isOp ";" = false ∧ ∃ body inside, splitClose .brace s.after = some body ∧
        inner.block (scope.enterFn yields) body.before = .done () inside ∧
        pieces = Piece.indents scope.level ++
          (.raw header :: .line " \x7b" :: (inside.pieces ++ closeBrace scope.level)))

/-- The statement is a declaration that takes the words in front of it: none is left, its header has them all,
and `yield` goes to its body. -/
structure TakesModifiers (inner : Converters) (scope : Scope) (words : List String) (t : Token) (rest : List Token)
    (statement : Parsed Statement) (pieces : List Piece) : Prop where
  keyword : t.category = .keyword
  declares : t.text ∈ ["class", "struct", "fn", "prop"]
  leaves : statement.value = {}
  header : HasHeader scope.level words pieces
  yields : "yield" ∈ words → t.text = "fn"
  function : t.text = "fn" → IsFunction inner scope (decide ("yield" ∈ words)) rest pieces

section Declarations

variable {words : List String} {t : Token} {rest : List Token}

theorem convertBraced_inside (outer : Nat) (opening : Token) :
    (convertBraced inner outer scope opening ts).Emits fun _ pieces => ∃ body inside,
      splitClose .brace ts = some body ∧ inner.block scope body.before = .done () inside ∧
      pieces = .line " \x7b" :: (inside.pieces ++ closeBrace outer) := by
  unfold convertBraced
  cases split : splitClose .brace ts with
  | none => exact .fail _
  | some body =>
    have block : (inner.block scope body.before).Emits fun _ pieces => ∃ inside,
        inner.block scope body.before = .done () inside ∧ inside.pieces = pieces :=
      fun _ inside done => ⟨inside, done, rfl⟩
    refine .emit_bind (.bind block ?_)
    rintro _ pieces ⟨inside, done, rfl⟩
    exact .emit_bind (.pure ⟨body, inside, rfl, done, by simp⟩)

theorem convertFn_takes (collected : pending.Collects words) (legal : LegalWords words) :
    (convertFn inner scope pending t rest).Emits fun _ pieces =>
      HasHeader scope.level words pieces ∧ IsFunction inner scope (decide ("yield" ∈ words)) rest pieces := by
  unfold convertFn
  refine .check_bind fun mods taken => ?_
  obtain ⟨writes, yields⟩ := fn_writes collected legal taken
  have sameYields : mods.yields = decide ("yield" ∈ words) := by rw [Bool.eq_iff_iff, yields, decide_eq_true_iff]
  cases split : splitTop (·.isOpIn ["\x7b", ";"]) rest with
  | none => exact .fail _
  | some s =>
    refine .skip fun header => ?_
    have written : WritesModifiers words (header.text mods) := by
      unfold FnHeader.text
      exact ((((((writes.behind (endsInSpace_accessText _)).append _).append _).append _).append _).append _).append _
        |>.append _
    refine .ite (fun ends => ?_) fun goesOn => ?_
    · refine .ite (fun _ => .fail _) fun _ => .emit_bind (.pure ?_)
      rw [List.append_nil]
      exact ⟨⟨_, [], written.append ";", .inr rfl⟩, s, header.text mods, split, .inl ⟨ends, rfl⟩⟩
    · refine .ite (fun _ => .fail _) fun _ => .emit_bind ?_
      refine (convertBraced_inside scope.level s.found).mono ?_
      rintro _ pieces ⟨body, inside, closed, done, rfl⟩
      refine ⟨⟨_, _, written, .inl (List.append_assoc ..)⟩, s, header.text mods, split, .inr ⟨by simpa using goesOn,
        body, inside, closed, ?_, List.append_assoc ..⟩⟩
      rw [← sameYields]
      exact done

theorem convertTypeDecl_takes {kind : TypeDeclKind} (collected : pending.Collects words) (legal : LegalWords words) :
    (convertTypeDecl inner kind scope pending t rest).Emits fun _ pieces =>
      HasHeader scope.level words pieces ∧ "yield" ∉ words := by
  unfold convertTypeDecl
  refine .ite (fun _ => .fail _) fun _ => .check_bind fun modifiers taken => ?_
  have writes : WritesModifiers words modifiers ∧ "yield" ∉ words := by
    cases kind with
    | classType => exact classType_writes collected legal taken
    | structType => exact structType_writes collected legal taken
  cases splitTop (·.isOpIn ["\x7b", ";"]) rest with
  | none => exact .fail _
  | some s =>
    refine .ite (fun _ => .fail _) fun _ => ?_
    cases significant s.before with
    | nil => exact .fail _
    | cons name header =>
      refine .ite (fun _ => .fail _) fun _ => .skip fun _ => .skip fun generics => .skip fun bases => ?_
      refine .skip fun access => .emit_bind ?_
      refine (convertBraced_inside scope.level s.found).mono ?_
      rintro _ pieces ⟨body, inside, -, -, rfl⟩
      refine ⟨⟨_, _, ?_, .inl (List.append_assoc ..)⟩, writes.2⟩
      exact (((((writes.1.behind (endsInSpace_accessText _)).append _).append _).append _).append _).append _

theorem readProp_inheritance : (readProp scope pending t rest).Ensures fun parts =>
    pending.forProp scope.container = .ok parts.header.inheritance := by
  unfold readProp
  refine .next fun _ => .ite (fun _ => .fail _) fun _ => ?_
  have checked : (Logged.ofExcept (pending.forProp scope.container) : Reading (Option Inheritance)).Ensures fun given =>
      pending.forProp scope.container = .ok given := by
    intro given log done
    cases accepted : pending.forProp scope.container with
    | error fault =>
      rw [accepted] at done
      cases done
    | ok kind =>
      rw [accepted] at done
      cases done
      rfl
  refine .bind checked fun given accepted => .next fun named => ?_
  dsimp only
  split
  · exact .fail _
  · exact .next fun type => .next fun access => .pure accepted

theorem convertProp_takes (collected : pending.Collects words) (legal : LegalWords words) :
    (convertProp inner scope pending t rest).Emits fun _ pieces =>
      HasHeader scope.level words pieces ∧ "yield" ∉ words := by
  unfold convertProp
  refine .reading_bind readProp_inheritance fun parts taken => ?_
  obtain ⟨header, access, marker, body⟩ := parts
  obtain ⟨writes, noYield⟩ := prop_writes collected legal taken
  have written (access : List String) : WritesModifiers words (header.text access) :=
    ((writes.behind (endsInSpace_accessText access)).append _).append _ |>.append _
  refine .ite (fun _ => ?_) fun _ => .ite (fun _ => ?_) fun _ => .ite (fun _ => .fail _) fun _ => .fail _
  · unfold convertPropExpression
    refine .skip fun _ => ?_
    cases skipTrivia body with
    | nil => exact .fail _
    | cons first more =>
      refine .emit_bind (.ite (fun _ => .emit_bind ?_) fun _ => .emit_bind ?_)
      · exact fun _ output _ => ⟨⟨_, output.pieces, (written access).append _, .inl rfl⟩, noYield⟩
      · exact fun _ output _ => ⟨⟨_, _, (written access).append _, .inr rfl⟩, noYield⟩
  · unfold convertPropBlock
    cases splitClose .brace body with
    | none => exact .fail _
    | some s =>
      refine .skip fun accessors => .ite (fun _ => .fail _) fun _ => .skip fun after => .emit_bind ?_
      exact fun _ output _ => ⟨⟨_, output.pieces, written after.value, .inl (List.append_assoc ..)⟩, noYield⟩

end Declarations

/-! ## Statements -/

/-- What a statement makes of the words in front of it: it leaves them, adds a word, or takes them all. -/
def HandlesModifiers (inner : Converters) (scope : Scope) (words : List String) (pending : Modifiers) (t : Token)
    (rest : List Token) (statement : Parsed Statement) (pieces : List Piece) : Prop :=
  (t.isOp ";" = true ∧ statement = ⟨{ pending }, rest⟩ ∧ pieces = []) ∨
    (t.category = .keyword ∧ t.text ∈ modifierWords ∧ ∃ more, pending.apply t = .ok more ∧
      statement = ⟨{ pending := more }, rest⟩ ∧ pieces = []) ∨
    TakesModifiers inner scope words t rest statement pieces

section Statements

variable {words : List String} {t last : Token} {rest : List Token}

/-- A statement without modifiers is refused where some are held. -/
theorem unmodified_refuses (held : pending.latest = some last) (draft : Draft (List Token)) :
    (unmodified pending draft).Emits P := by
  rw [unmodified, Modifiers.ensureEmpty, held]
  exact .fail _

theorem convertVariable_refuses (held : pending.latest = some last) (kind : VariableKind) :
    (plainStatement (convertVariable inner kind scope pending t rest)).Emits P := by
  rw [convertVariable, Modifiers.forVariable, held]
  exact .fail _

theorem holdModifier_handles (keyword : t.category = .keyword) (collected : pending.Collects words)
    (legal : LegalWords words) :
    (holdModifier pending t rest).Emits (HandlesModifiers inner scope words pending t rest) := by
  unfold holdModifier
  refine .skip fun _ => .check_bind fun more applied => .pure (.inr (.inl ⟨keyword, ?_, more, applied, rfl, rfl⟩))
  have step := Modifiers.apply_collected t legal collected
  rw [applied] at step
  exact step.1.known t.text (by simp)

theorem plainStatement_takes {draft : Draft (List Token)} (keyword : t.category = .keyword)
    (declares : t.text ∈ ["class", "struct", "fn", "prop"])
    (takes : draft.Emits fun _ pieces => HasHeader scope.level words pieces ∧ ("yield" ∈ words → t.text = "fn") ∧
      (t.text = "fn" → IsFunction inner scope (decide ("yield" ∈ words)) rest pieces)) :
    (plainStatement draft).Emits (HandlesModifiers inner scope words pending t rest) := by
  refine .bind takes ?_
  rintro after pieces ⟨header, yields, function⟩
  refine .pure (.inr (.inr ⟨keyword, declares, rfl, ?_, yields, ?_⟩))
  · rwa [List.append_nil]
  · rwa [List.append_nil]

/-- A statement behind modifiers leaves them, adds one or takes them all. -/
theorem convertStatement_handles (held : words ≠ []) (collected : pending.Collects words) (legal : LegalWords words) :
    (convertStatement inner scope pending t rest).Emits (HandlesModifiers inner scope words pending t rest) := by
  obtain ⟨last, held⟩ := collected.exists_latest held
  -- A declaration other than a function takes no `yield`, and has no body that yields.
  have takes {draft : Draft (List Token)} (keyword : t.category = .keyword)
      (declares : t.text ∈ ["class", "struct", "prop"])
      (header : draft.Emits fun _ pieces => HasHeader scope.level words pieces ∧ "yield" ∉ words) :
      (plainStatement draft).Emits (HandlesModifiers inner scope words pending t rest) := by
    have known : ∀ word ∈ ["class", "struct", "prop"], word ∈ ["class", "struct", "fn", "prop"] ∧ word ≠ "fn" := by
      decide
    refine plainStatement_takes keyword (known t.text declares).1 (header.mono fun _ pieces has => ?_)
    exact ⟨has.1, fun yields => absurd yields has.2, fun isFn => absurd isFn (known t.text declares).2⟩
  have form := @convertStatement_form inner scope pending t rest
  generalize convertStatement inner scope pending t rest = draft at form ⊢
  cases form with
  | refused => exact .fail _
  | empty ends => exact .pure (.inl ⟨ends, rfl, rfl⟩)
  | modifier keyword => exact holdModifier_handles keyword collected legal
  | typeDecl keyword word =>
    have known : ∀ word ∈ ["class", "struct"], word ∈ ["class", "struct", "prop"] := by decide
    exact takes keyword (known t.text word) (convertTypeDecl_takes collected legal)
  | function keyword word =>
    refine plainStatement_takes keyword (by rw [word]; decide) ?_
    exact (convertFn_takes collected legal).mono fun _ _ has => ⟨has.1, fun _ => word, fun _ => has.2⟩
  | declared => exact convertVariable_refuses held _
  | property keyword word => exact takes keyword (by rw [word]; decide) (convertProp_takes collected legal)
  | inNamespace =>
    rw [Modifiers.ensureEmpty, held]
    exact .fail _
  | imported | yielded | controlFlow | expression => exact unmodified_refuses held _

/-- The pieces are a `return` that ends the elements, or that gives the next one. -/
def RewritesReturn (inner : Converters) (scope : Scope) (t : Token) (rest : List Token) (pieces : List Piece) : Prop :=
  pieces = Piece.indents scope.level ++ [Piece.line "yield break;"] ∨
    ∃ value output, convertRightSide inner scope t (t :: rest) = .done value output ∧
      pieces = Piece.indents scope.level ++ .keyword "yield" :: output.pieces

theorem convertYield_rewrites :
    (convertYield inner scope t rest).Emits fun _ pieces => RewritesReturn inner scope t rest pieces := by
  have gives : Draft.Emits (do
      emit [.keyword "yield"]
      let value ← convertRightSide inner scope t (t :: rest)
      return value.rest) fun _ pieces =>
        RewritesReturn inner scope t rest (Piece.indents scope.level ++ pieces) := by
    have right : (convertRightSide inner scope t (t :: rest)).Emits fun value pieces => ∃ output,
        convertRightSide inner scope t (t :: rest) = .done value output ∧ output.pieces = pieces :=
      fun value output done => ⟨output, done, rfl⟩
    refine .emit_bind (.bind right ?_)
    rintro value _ ⟨output, done, rfl⟩
    exact .pure (.inr ⟨value, output, done, by simp⟩)
  unfold convertYield
  refine .skip fun _ => .emit_bind ?_
  cases skipTrivia rest with
  | nil => exact gives
  | cons next more => exact .ite (fun _ => .emit_bind (.pure (.inl rfl))) fun _ => gives

/-- In a function that yields, a `return` is rewritten. -/
theorem convertStatement_rewrites (keyword : t.category = .keyword) (text : t.text = "return")
    (yields : scope.yields = true) :
    (convertStatement inner scope pending t rest).Emits fun _ pieces => RewritesReturn inner scope t rest pieces := by
  rw [convertStatement_of_keyword keyword]
  simp only [convertKeywordStatement, text, yields, if_true]
  refine .check_bind fun _ _ => .bind convertYield_rewrites fun after pieces rewritten => .pure ?_
  rwa [List.append_nil]

/-- The modifiers after a statement are those before it, those and the statement's own word, or none. -/
def LeavesModifiers (pending : Modifiers) (t : Token) (statement : Parsed Statement) : Prop :=
  statement.value.pending = {} ∨ statement.value.pending = pending ∨ pending.apply t = .ok statement.value.pending

theorem plainStatement_leaves (draft : Draft (List Token)) :
    (plainStatement draft).Ensures (LeavesModifiers pending t) :=
  .next fun _ => .pure (.inl rfl)

theorem unmodified_leaves (draft : Draft (List Token)) :
    (unmodified pending draft).Ensures (LeavesModifiers pending t) :=
  .next fun _ => plainStatement_leaves draft

theorem holdModifier_leaves : (holdModifier pending t rest).Ensures (LeavesModifiers pending t) := by
  unfold holdModifier
  refine .next fun _ => ?_
  cases applied : pending.apply t with
  | error fault => exact .fail _
  | ok more => exact .pure (.inr (.inr applied))

theorem convertNamespace_leaves : (convertNamespace inner scope t rest).Ensures (LeavesModifiers pending t) := by
  unfold convertNamespace
  refine .ite (fun _ => .fail _) fun _ => ?_
  cases splitTop (·.isOpIn ["\x7b", ";"]) rest with
  | none => exact .fail _
  | some s =>
    refine .ite (fun _ => .fail _) fun _ => .next fun name => .ite (fun _ => ?_) fun _ => ?_
    · exact .ite (fun _ => .fail _) fun _ => .next fun _ => .pure (.inl rfl)
    · exact .next fun _ => .next fun _ => .pure (.inl rfl)

theorem convertStatement_leaves :
    (convertStatement inner scope pending t rest).Ensures (LeavesModifiers pending t) := by
  have form := @convertStatement_form inner scope pending t rest
  generalize convertStatement inner scope pending t rest = draft at form ⊢
  cases form with
  | refused => exact .fail _
  | empty => exact .pure (.inr (.inl rfl))
  | modifier => exact holdModifier_leaves
  | inNamespace => exact .next fun _ => convertNamespace_leaves
  | typeDecl | function | declared | property => exact plainStatement_leaves _
  | imported | yielded | controlFlow | expression => exact unmodified_leaves _

end Statements

/-! ## Blocks -/

/-- Some rounds of a walk lead from a state and tokens to others, and write the pieces. -/
inductive Runs {σ α : Type} (round : σ → Token → List Token → Draft (Step σ α)) :
    σ → List Token → List Piece → σ → List Token → Prop where
  | refl {state : σ} {ts : List Token} : Runs round state ts [] state ts
  | next {state state' state'' : σ} {t : Token} {rest rest' ts : List Token} {output : Output} {pieces : List Piece}
      (went : round state t rest = .done (.next state' rest') output)
      (others : Runs round state' rest' pieces state'' ts) :
      Runs round state (t :: rest) (output.pieces ++ pieces) state'' ts

section Runs

variable {σ α : Type} {round : σ → Token → List Token → Draft (Step σ α)} {finish : σ → Draft α}
  {state state' : σ} {t : Token} {rest rest' : List Token} {value : α}

theorem walk_of_next {log : Output} (went : round state t rest = .done (.next state' rest') log)
    (done : walk round finish state (t :: rest) = .done value output) :
    ∃ later, walk round finish state' rest' = .done value later ∧ output.pieces = log.pieces ++ later.pieces ∧
      rest'.length < (t :: rest).length := by
  rw [walk_cons, went] at done
  obtain ⟨_, _, later, same, goesOn, rfl⟩ := Logged.bind_eq_done.1 done
  cases same
  dsimp only at goesOn
  split at goesOn
  case isTrue shorter => exact ⟨later, goesOn, rfl, shorter⟩
  case isFalse => cases goesOn

theorem walk_of_runs (runs : Runs round state ts front state' ts')
    (done : walk round finish state ts = .done value output) :
    ∃ later, walk round finish state' ts' = .done value later ∧ output.pieces = front ++ later.pieces := by
  induction runs generalizing output with
  | refl => exact ⟨output, done, rfl⟩
  | next went _ ih =>
    obtain ⟨later, goesOn, same, -⟩ := walk_of_next went done
    obtain ⟨last, ends, same'⟩ := ih goesOn
    exact ⟨last, ends, by rw [same, same', List.append_assoc]⟩

end Runs

/-- The modifiers are those that some words leave. -/
def Modifiers.Reachable (mods : Modifiers) : Prop :=
  ∃ held : List Token, held.foldlM Modifiers.apply {} = .ok mods

theorem Modifiers.Reachable.apply {mods more : Modifiers} {t : Token} (reachable : mods.Reachable)
    (applied : mods.apply t = .ok more) : more.Reachable := by
  obtain ⟨held, folded⟩ := reachable
  refine ⟨held ++ [t], ?_⟩
  rw [List.foldlM_append, folded]
  change [t].foldlM Modifiers.apply mods = .ok more
  rw [List.foldlM_cons, applied]
  rfl

/-- Modifiers are held in front of some tokens of a block, and a declaration of the block takes them: what it
writes is among the pieces. -/
def TakenLater (rank : Nat) (state : BlockState) (ts : List Token) (words : List String) (pieces : List Piece) : Prop :=
  ∃ (front back : List Piece) (state' : BlockState) (t : Token) (rest : List Token) (more : List String)
      (statement : Parsed Statement) (output : Output),
    Runs (convertBlockRound (standard.converters rank)) state ts front state' (t :: rest) ∧
    (standard.converters rank).statementFrom state'.scope state'.pending t rest = .done statement output ∧
    TakesModifiers (standard.converters (statementRank rest.length)) state'.scope (words ++ more) t rest statement
      output.pieces ∧
    pieces = front ++ (output.pieces ++ back)

section Blocks

variable {rank : Nat} {state state' : BlockState} {t : Token} {rest rest' : List Token}
  {words : List String} {pieces : List Piece} {log : Output}

/-- A statement of a block is converted with the converters for what it contains. -/
theorem convertStatement_of_statementFrom {statement : Parsed Statement}
    (done : (standard.converters rank).statementFrom scope pending t rest = .done statement output) :
    convertStatement (standard.converters (statementRank rest.length)) scope pending t rest =
      .done statement output :=
  result_all_of_done (.statement scope pending t rest) done

theorem reachable_of_next (reachable : state.pending.Reachable)
    (went : convertBlockRound (standard.converters rank) state t rest = .done (.next state' rest') log) :
    state'.pending.Reachable := by
  obtain ⟨_, _, same, stays | ⟨statement, done, rfl⟩⟩ := convertBlockRound_next went
  · cases same
    rwa [stays]
  · cases same
    rcases convertStatement_leaves _ _ (convertStatement_of_statementFrom done) with none | stays | applied
    · exact ⟨[], congrArg Except.ok none.symm⟩
    · change statement.value.pending.Reachable
      rwa [stays]
    · exact reachable.apply applied

theorem reachable_of_runs (reachable : state.pending.Reachable)
    (runs : Runs (convertBlockRound (standard.converters rank)) state ts front state' ts') :
    state'.pending.Reachable := by
  induction runs with
  | refl => exact reachable
  | next went _ ih => exact ih (reachable_of_next reachable went)

theorem TakenLater.next {more : List String}
    (went : convertBlockRound (standard.converters rank) state t rest = .done (.next state' rest') log)
    (later : TakenLater rank state' rest' (words ++ more) pieces) :
    TakenLater rank state (t :: rest) words (log.pieces ++ pieces) := by
  obtain ⟨front, back, last, declaration, after, others, statement, output, runs, done, takes, rfl⟩ := later
  refine ⟨log.pieces ++ front, back, last, declaration, after, more ++ others, statement, output, .next went runs, done,
    ?_, (List.append_assoc ..).symm⟩
  rwa [← List.append_assoc]

/-- The modifiers in front of the tokens that are left are taken, or the block fails. -/
theorem takenLater_of_walk (held : words ≠ []) (collected : state.pending.Collects words) (legal : LegalWords words)
    (done : walk (convertBlockRound (standard.converters rank))
      (fun state => Logged.ofExcept state.pending.ensureEmpty) state ts = .done value output) :
    TakenLater rank state ts words output.pieces := by
  induction state, ts using walk.induct generalizing words output with
  | case1 state =>
    -- At the end of the block a modifier that is left over is a fault.
    obtain ⟨last, latest⟩ := collected.exists_latest held
    rw [walk_nil, Modifiers.ensureEmpty, latest] at done
    cases done
  | case2 state t rest ih =>
    cases went : convertBlockRound (standard.converters rank) state t rest with
    | fail fault =>
      rw [walk_cons, went] at done
      cases done
    | done step log =>
      obtain ⟨state', rest', rfl, leads⟩ := convertBlockRound_next went
      obtain ⟨later, goesOn, same, shorter⟩ := walk_of_next went done
      rw [same]
      have others (more : List String) (legal : LegalWords (words ++ more))
          (collected : state'.pending.Collects (words ++ more)) :
          TakenLater rank state (t :: rest) words (log.pieces ++ later.pieces) :=
        .next went (ih state' rest' shorter (by simp [held]) collected legal goesOn)
      rcases leads with stays | ⟨statement, run, rfl⟩
      · refine others [] ?_ ?_
        · rwa [List.append_nil]
        · rwa [List.append_nil, stays]
      · have handled := convertStatement_handles held collected legal statement log
          (convertStatement_of_statementFrom run)
        rcases handled with ⟨-, rfl, -⟩ | ⟨-, -, more, applied, rfl, -⟩ | takes
        · refine others [] ?_ ?_
          · rwa [List.append_nil]
          · rwa [List.append_nil]
        · have step := Modifiers.apply_collected t legal collected
          rw [applied] at step
          exact others [t.text] step.1 step.2
        · refine ⟨[], later.pieces, state, t, rest, [], statement, log, .refl, run, ?_, rfl⟩
          rwa [List.append_nil]

end Blocks

/-- What stands in the body of a function yields if the function does, however deep it stands, and then every
`return` there is rewritten. -/
theorem inBody_rewrites {rank : Nat} {yields : Bool} {scope' : Scope} {t t' : Token} {rest rest' : List Token}
    {inside : Output} (done : (standard.converters rank).block (scope.enterFn yields) (t :: rest) = .done () inside)
    (inBody : Task.InBody (.block (scope.enterFn yields) t rest) (.statement scope' pending t' rest')) :
    scope'.yields = yields ∧
      (t'.category = .keyword → t'.text = "return" → yields = true → ∃ statement output,
        standard.all.statementFrom scope' pending t' rest' = .done statement output ∧
        RewritesReturn (standard.converters (statementRank rest'.length)) scope' t' rest' output.pieces) := by
  have same : scope'.yields = yields := inBody.yields
  refine ⟨same, fun keyword text isYield => ?_⟩
  have accepted : Task.Accepted (.block (scope.enterFn yields) t rest) :=
    ⟨(), inside, result_all_of_done (.block (scope.enterFn yields) t rest) done⟩
  obtain ⟨statement, output, converted⟩ := inBody.accepted accepted
  exact ⟨statement, output, converted, convertStatement_rewrites keyword text (same.trans isYield) _ _ converted⟩

/-- Modifiers in front of a statement stay, become more or are all taken by a declaration, which writes every one
of them but `yield`.  That one only a function takes.  The body of the function yields then, and so do the bodies
of the statements in it that are no declarations, however deep they stand; every `return` there is rewritten.  In
a block that is converted, every modifier is taken by a declaration of the block. -/
theorem pending_taken :
    (∀ (inner : Converters) (scope : Scope) (held : List Token) (pending : Modifiers) (t : Token) (rest : List Token)
        (statement : Parsed Statement) (output : Output),
      held ≠ [] → held.foldlM Modifiers.apply {} = .ok pending →
      convertStatement inner scope pending t rest = .done statement output →
      HandlesModifiers inner scope (held.map Token.text) pending t rest statement output.pieces) ∧
    (∀ (rank : Nat) (scope scope' : Scope) (yields : Bool) (pending : Modifiers) (t t' : Token)
        (rest rest' : List Token) (inside : Output),
      (standard.converters rank).block (scope.enterFn yields) (t :: rest) = .done () inside →
      Task.InBody (.block (scope.enterFn yields) t rest) (.statement scope' pending t' rest') →
      scope'.yields = yields ∧
        (t'.category = .keyword → t'.text = "return" → yields = true → ∃ statement output,
          standard.all.statementFrom scope' pending t' rest' = .done statement output ∧
          RewritesReturn (standard.converters (statementRank rest'.length)) scope' t' rest' output.pieces)) ∧
    ∀ (rank : Nat) (scope : Scope) (ts ts' : List Token) (output : Output) (front : List Piece) (state : BlockState),
      convertBlock (standard.converters rank) scope ts = .done () output →
      Runs (convertBlockRound (standard.converters rank)) { scope } ts front state ts' → state.pending ≠ {} →
      ∃ held later, held ≠ [] ∧ held.foldlM Modifiers.apply {} = .ok state.pending ∧
        TakenLater rank state ts' (held.map Token.text) later ∧ output.pieces = front ++ later := by
  have collects {held : List Token} {pending : Modifiers} (folded : held.foldlM Modifiers.apply {} = .ok pending) :
      LegalWords (held.map Token.text) ∧ pending.Collects (held.map Token.text) := by
    have collected := Modifiers.foldlM_apply_collected held
    rwa [folded] at collected
  refine ⟨?_, ?_, ?_⟩
  · intro inner scope held pending t rest statement output nonempty folded done
    obtain ⟨legal, collected⟩ := collects folded
    exact convertStatement_handles (by simpa using nonempty) collected legal statement output done
  · intro rank scope scope' yields pending t t' rest rest' inside done inBody
    exact inBody_rewrites done inBody
  · intro rank scope ts ts' output front state done runs waiting
    obtain ⟨held, folded⟩ := reachable_of_runs ⟨[], rfl⟩ runs
    have nonempty : held ≠ [] := by
      rintro rfl
      have none : (Except.ok {} : Except Fault Modifiers) = .ok state.pending := folded
      exact waiting (Except.ok.inj none).symm
    obtain ⟨later, goesOn, same⟩ := walk_of_runs runs done
    obtain ⟨legal, collected⟩ := collects folded
    exact ⟨held, later.pieces, nonempty, folded, takenLater_of_walk (by simpa using nonempty) collected legal goesOn,
      same⟩

/-- The modifiers of `yield async fn F` are taken by the function, which yields, also in a branch. -/
theorem pending_taken_yield :
    convert {} "yield async fn F\x7bif a\x7breturn 1;\x7d\x7d" =
        .ok "async void F() \x7b\r\n  if (a) \x7b\r\n    yield return 1;\r\n  \x7d\r\n\x7d\r\n" ∧
      ∃ (tokens held : List Token) (pending : Modifiers) (t : Token) (rest : List Token),
        tokenize "yield async fn F\x7bif a\x7breturn 1;\x7d\x7d" = .ok tokens ∧
        held.map Token.text = ["yield", "async"] ∧ held.foldlM Modifiers.apply {} = .ok pending ∧
        (∃ statement output,
          convertStatement (standard.converters 100) .root pending t rest = .done statement output ∧
          TakesModifiers (standard.converters 100) .root ["yield", "async"] t rest statement output.pieces) ∧
        (∃ first more scope' t' rest' inside statement output, t'.text = "return" ∧
          (standard.converters 100).block (Scope.root.enterFn true) (first :: more) = .done () inside ∧
          Task.InBody (.block (Scope.root.enterFn true) first more) (.statement scope' {} t' rest') ∧
          standard.all.statementFrom scope' {} t' rest' = .done statement output ∧
          RewritesReturn (standard.converters (statementRank rest'.length)) scope' t' rest' output.pieces) ∧
        ∃ output front later state ts' held', convertBlock (standard.converters 100) .root tokens = .done () output ∧
          Runs (convertBlockRound (standard.converters 100)) { scope := .root } tokens front state ts' ∧
          held'.foldlM Modifiers.apply {} = .ok state.pending ∧ held' ≠ [] ∧
          TakenLater 100 state ts' (held'.map Token.text) later ∧ output.pieces = front ++ later := by
  let tokens := (tokenize "yield async fn F\x7bif a\x7breturn 1;\x7d\x7d").toOption.getD []
  let token (n : Nat) : Token := tokens.getD n ⟨0, "", 0, 0, .space, none⟩
  let held := [token 0, token 2]
  let inner := standard.converters 100
  let inFn : Scope := Scope.root.enterFn true
  let more := [token 9, token 10, token 11, token 12, token 13, token 14, token 15, token 16]
  let given := [token 13, token 14, token 15]
  let body : Task := .block inFn (token 8) more
  let branch : Task := .statement inFn {} (token 8) more
  let block : Task := .block inFn.enterBody (token 12) given
  let jump : Task := .statement inFn.enterBody {} (token 12) given
  obtain ⟨read, starts, texts, isYield, isFn, isReturn, keyword, isPlain⟩ :
      tokenize "yield async fn F\x7bif a\x7breturn 1;\x7d\x7d" = .ok tokens ∧ tokens = token 0 :: tokens.drop 1 ∧
        held.map Token.text = ["yield", "async"] ∧ (token 0).category = .keyword ∧ (token 4).text = "fn" ∧
        (token 12).text = "return" ∧ (token 12).category = .keyword ∧ (token 8).ownsBody = false := by
    decide +kernel +zetaReduce
  obtain ⟨pending, folded, succeeds⟩ : ∃ pending, held.foldlM Modifiers.apply {} = .ok pending ∧
      (convertStatement inner .root pending (token 4) (tokens.drop 5)).toExcept.isOk = true :=
    exists_of_toOption (by decide +kernel +zetaReduce)
  obtain ⟨statement, output, converted⟩ := Logged.exists_done_of_isOk succeeds
  obtain ⟨_, inside, bodyConverted⟩ : ∃ value inside, inner.block inFn (token 8 :: more) = .done value inside :=
    Logged.exists_done_of_isOk (by decide +kernel +zetaReduce)
  have body_asks : body.Asks branch := asks_of_isOk (.outside (token 0)) (by decide +kernel +zetaReduce)
  have branch_asks : branch.Asks block := asks_of_isOk (.outside (token 0)) (by decide +kernel +zetaReduce)
  have block_asks : block.Asks jump := asks_of_isOk (.outside (token 0)) (by decide +kernel +zetaReduce)
  have inBody : body.InBody jump := .statement (.nested (.statement .self body_asks) isPlain branch_asks) block_asks
  obtain ⟨_, whole, blockConverted⟩ : ∃ value output, convertBlock inner .root tokens = .done value output :=
    Logged.exists_done_of_isOk (by decide +kernel +zetaReduce)
  obtain ⟨first, log, run, waiting⟩ : ∃ first log,
      inner.statementFrom .root {} (token 0) (tokens.drop 1) = .done first log ∧
        decide (first.value.pending = {}) = false :=
    Logged.exists_done (by decide +kernel +zetaReduce)
  obtain ⟨handles, rewrites, blocks⟩ := pending_taken
  obtain ⟨statement', output', returned, rewritten⟩ :=
    (rewrites _ _ _ _ _ _ _ _ _ inside bodyConverted inBody).2 keyword isReturn rfl
  refine ⟨by decide +kernel, tokens, held, pending, token 4, tokens.drop 5, read, texts, folded,
    ⟨statement, output, converted, ?_⟩, ⟨token 8, more, inFn.enterBody, token 12, given, inside, statement', output',
      isReturn, bodyConverted, inBody, returned, rewritten⟩, ?_⟩
  · have handled := handles _ _ held pending _ _ statement output (by simp [held]) folded converted
    rw [texts] at handled
    rcases handled with ⟨empty, -⟩ | ⟨-, listed, -⟩ | takes
    · simp [Token.isOp, isFn] at empty
    · rw [isFn] at listed
      exact absurd listed (by decide)
    · exact takes
  · have went : convertBlockRound inner { scope := .root } (token 0) (tokens.drop 1) =
        .done (.next ⟨first.value.scopeAfter .root, first.value.pending⟩ (skipSemicolons first.rest)) log := by
      simp only [convertBlockRound, isYield, run]
      exact congrArg (Logged.done _) (Log.append_none log)
    have runs := Runs.next went .refl
    rw [← starts] at runs
    obtain ⟨held', later, nonempty, folded', taken, same⟩ :=
      blocks _ _ _ _ _ _ _ blockConverted runs (of_decide_eq_false waiting)
    exact ⟨whole, _, later, _, _, held', blockConverted, runs, folded', nonempty, taken, same⟩

/-- Nothing comes of `yield` in front of a function that has no body, or no `return` in it. -/
theorem convert_idle_yield :
    convert {} "yield partial fn F;" = .ok "partial void F();\r\n" ∧
      convert {} "partial fn F;" = .ok "partial void F();\r\n" ∧
      convert {} "yield fn F \x7b f(); \x7d" = convert {} "fn F \x7b f(); \x7d" := by
  decide +kernel

end Sharp
