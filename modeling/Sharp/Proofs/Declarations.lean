import Sharp.Declaration.Namespace
import Sharp.Declaration.TypeDecl
import Sharp.Declaration.Variable
import Sharp.Proofs.ControlFlow

/-!
# Declarations

What holds of the declarations, given that it holds of what they contain.  Their headers are read
from tokens that are no literals, and written as tidy texts.
-/

namespace Sharp

open Source Token

variable {target text : String} {before : Token} {scope : Scope} {ts rest : List Token}
  {inner : Converters} {region : List Token} {opened : List Bracket} {pending added : Modifiers} {α : Type}
  {held : Option Token} {role : ModifierRole} {words names : List String}

/-! ## Modifiers -/

namespace Modifiers

variable {source : Source} {mods : Modifiers} {t : Token}

theorem repeated_sound {P : α → Prop} (member : t ∈ source.tokens) : source.Checks (repeated t) P :=
  .error (blames_blame member nofun)

theorem refused_sound {P : α → Prop} (member : t ∈ source.tokens) : source.Checks (refused t target) P :=
  .error (blames_blame member nofun)

theorem Sound.joinRefImmut (sound : mods.Sound source) (member : t ∈ source.tokens)
    (alone other joined : RefImmut) (otherText : String) :
    source.Checks (mods.joinRefImmut t alone other joined otherText) (Modifiers.Sound source) := by
  unfold Modifiers.joinRefImmut
  cases held : mods.refImmut with
  | none => exact .ok { sound with refImmut := by simpa using member }
  | some first =>
    have first_member := sound.refImmut first held
    refine .ite (fun _ => .ite (fun _ => ?_) fun _ => .error (blames_blame member nofun))
      fun _ => repeated_sound member
    exact .ok { sound with refImmut := by simpa using first_member }

theorem addOnce_sound (member : t ∈ source.tokens) (added_sound : added.Sound source) :
    source.Checks (addOnce held t added) (Modifiers.Sound source) :=
  .ite (fun _ => repeated_sound member) fun _ => .ok added_sound

theorem Sound.addInheritance (sound : mods.Sound source) (member : t ∈ source.tokens) :
    source.Checks (mods.addInheritance t) (Modifiers.Sound source) := by
  unfold Modifiers.addInheritance
  cases Inheritance.ofText? t.text with
  | none => exact .error (blames_blame member nofun)
  | some kind =>
    cases held : mods.inheritance with
    | none => exact .ok { sound with inheritance := by simpa using member }
    | some first =>
      exact .ite (fun _ => repeated_sound member) fun _ => .error (blames_blame member nofun)

theorem Sound.add (sound : mods.Sound source) (member : t ∈ source.tokens) :
    source.Checks (mods.add t) (Modifiers.Sound source) := by
  unfold Modifiers.add
  split
  · exact sound.joinRefImmut member ..
  · exact sound.joinRefImmut member ..
  · exact addOnce_sound member { sound with async := by simpa using member }
  · exact addOnce_sound member { sound with yields := by simpa using member }
  · exact addOnce_sound member { sound with partly := by simpa using member }
  · exact sound.addInheritance member

theorem Sound.apply (sound : mods.Sound source) (member : t ∈ source.tokens) :
    source.Checks (mods.apply t) (Modifiers.Sound source) :=
  .bind (sound.add member) fun _ added => .ok { added with latest := by simpa using member }

theorem refuse_sound (members : ∀ t ∈ held, t ∈ source.tokens) :
    source.Checks (refuse held target) fun _ => True := by
  cases held with
  | none => exact .ok trivial
  | some t => exact refused_sound (members t rfl)

section

variable (sound : mods.Sound source)
include sound

theorem Sound.refuseRefImmut : source.Checks (mods.refuseRefImmut target) fun _ => True := by
  refine refuse_sound fun t held => ?_
  obtain ⟨first, given, rfl⟩ := Option.map_eq_some_iff.1 held
  exact sound.refImmut first given

theorem Sound.refuseAsyncYield : source.Checks (mods.refuseAsyncYield target) fun _ => True :=
  .bind (refuse_sound sound.async) fun _ _ => refuse_sound sound.yields

theorem Sound.memberInheritance {container : Container} :
    source.Checks (mods.memberInheritance container target) fun _ => True := by
  unfold Modifiers.memberInheritance
  cases held : mods.inheritance with
  | none => exact .ok trivial
  | some first =>
    exact .ite (fun _ => .ok trivial) fun _ => refused_sound (sound.inheritance first held)

theorem Sound.forClass : source.Checks mods.forClass fun _ => True := by
  refine .bind sound.refuseRefImmut fun _ _ => .bind sound.refuseAsyncYield fun _ _ => ?_
  split
  · exact .ok trivial
  · next t _ held => exact refused_sound (sound.inheritance _ held)
  · exact .ok trivial

theorem Sound.forStruct : source.Checks mods.forStruct fun _ => True := by
  refine .bind sound.refuseAsyncYield fun _ _ => .bind (refuse_sound fun t held => ?_) fun _ _ => ?_
  · obtain ⟨first, given, rfl⟩ := Option.map_eq_some_iff.1 held
    exact sound.inheritance first given
  · split
    · next t held => exact .error (blames_blame (sound.refImmut _ held) nofun)
    · exact .ok trivial

theorem Sound.forFn (container : Container) : source.Checks (mods.forFn container) fun _ => True :=
  .bind sound.refuseRefImmut fun _ _ => .bind sound.memberInheritance fun _ _ => .ok trivial

theorem Sound.forProp (container : Container) : source.Checks (mods.forProp container) fun _ => True :=
  .bind sound.refuseRefImmut fun _ _ => .bind sound.refuseAsyncYield fun _ _ =>
    .bind (refuse_sound sound.partly) fun _ _ => sound.memberInheritance

theorem Sound.forVariable : source.Checks mods.forVariable fun _ => True :=
  refuse_sound sound.latest

end

end Modifiers

/-! ## Headers -/

section Headers

variable {source : Source} {t marker : Token}

theorem Token.isWord_of_modifierRole {t : Token} (known : t.modifierRole? = some role) : t.isWord = true := by
  unfold modifierRole? vocabularyRole? at known
  unfold isWord
  cases category : t.category <;> simp_all

/-- Only reserved words are modifiers. -/
theorem Token.keyword_of_modifierRole {t : Token} (known : t.modifierRole? = some role) :
    t.category = .keyword := by
  have context (word : String) : ∀ found ∈ contextKeywordRole? word, found ≠ .modifier role := by
    intro found member
    obtain ⟨group, first, rfl⟩ := Option.map_eq_some_iff.1 member
    have listed := List.mem_of_find?_eq_some first
    simp only [contextKeywordGroups, List.mem_cons, List.not_mem_nil, or_false] at listed
    rcases listed with rfl | rfl | rfl <;> nofun
  have vocabulary : t.vocabularyRole? = some (.modifier role) := by
    unfold modifierRole? at known
    split at known
    · next same => cases known; exact same
    · cases known
  unfold vocabularyRole? at vocabulary
  split at vocabulary
  · assumption
  · exact absurd rfl (context t.text _ vocabulary)
  · cases vocabulary

theorem readAccessWords_sound (holds : source.Holds ts) {mods : List String}
    (mods_tidy : ∀ word ∈ mods, Tidy word) :
    source.Finds (readAccessWords mods ts) fun access =>
      source.Takes ts 0 access.rest ∧ ∀ word ∈ access.value, Tidy word := by
  induction ts generalizing mods with
  | nil => exact .pure ⟨.refl, mods_tidy⟩
  | cons t rest ih =>
    obtain ⟨member, holds⟩ := holds_cons.1 holds
    refine .ite (fun trivia => ?_) fun _ => .ite (fun _ => .pure ⟨.refl, mods_tidy⟩) fun known =>
      .ite (fun _ => .fail (blames_blame member nofun)) fun _ => ?_
    · exact (ih holds mods_tidy).mono fun _ read =>
        ⟨read.1.cons (isCopiedLiteral_of_isTrivia trivia), read.2⟩
    · have isWord := isWord_of_modifierRole (not_not.1 known)
      refine .note_bind member (.inl (keyword_of_modifierRole (not_not.1 known))) ?_
      have word_tidy := tidy_of_isWord member isWord
      refine (ih holds (List.forall_mem_append.2
        ⟨mods_tidy, List.forall_mem_singleton.2 word_tidy⟩)).mono fun _ read => ?_
      exact ⟨read.1.cons (isCopiedLiteral_of_isWord isWord), read.2⟩

section

variable (member : marker ∈ source.tokens) (isMark : marker.isOp "@" = true) (holds : source.Holds ts)
include member isMark holds

theorem readAccess_sound : source.Finds (readAccess marker ts) fun access =>
      source.Takes ts 0 access.rest ∧ ∀ word ∈ access.value, Tidy word :=
  .note_bind member (canPlay_of_isOp isMark (by decide) _)
    (.bind (readAccessWords_sound holds (List.forall_mem_nil _)) fun _ read =>
    .guard (blames_missing member _) fun _ => .pure read)

theorem readWholeAccess_sound : source.Finds (readWholeAccess marker ts) fun access =>
      source.Takes ts 0 [] ∧ ∀ word ∈ access, Tidy word := by
  refine .bind (readAccess_sound member isMark holds) fun access read => ?_
  obtain ⟨access, rest⟩ := access
  cases rest with
  | nil => exact .pure read
  | cons extra rest => exact .fail (blames_unexpected (read.1.within holds.within).head)

end

theorem tidy_accessText (tidy : ∀ word ∈ words, Tidy word) : Tidy (accessText words) := by
  induction words with
  | nil => decide
  | cons word words ih =>
    obtain ⟨word_tidy, words_tidy⟩ := List.forall_mem_cons.1 tidy
    exact (word_tidy.append (by decide)).append (ih words_tidy)

theorem readGenericsNames_sound {before : Token} (member : before ∈ source.tokens) : (ts : List Token)
    → source.Holds ts → source.Finds (readGenericsNames before ts) fun names =>
      source.Takes ts 0 names.rest ∧ ∀ name ∈ names.value, Tidy name
  | [], _ => .fail (blames_missing member _)
  | name :: rest, holds => by
    obtain ⟨name_member, holds⟩ := holds_cons.1 holds
    unfold readGenericsNames
    refine .require (blames_missing member _) fun isName => ?_
    have isWord := isWord_of_isNameLike isName
    refine .note_bind name_member (canPlay_of_isNameLike isName _) ?_
    have name_other := isCopiedLiteral_of_isWord isWord
    have name_tidy := tidy_of_isWord name_member isWord
    cases rest with
    | nil => exact .pure ⟨.cons name_other .refl, List.forall_mem_singleton.2 name_tidy⟩
    | cons slash more =>
      obtain ⟨slash_member, more_holds⟩ := holds_cons.1 holds
      refine .iteNot (fun _ => .pure ⟨.cons name_other .refl, List.forall_mem_singleton.2 name_tidy⟩)
        fun isSlash => ?_
      refine .note_bind slash_member (canPlay_of_isOp isSlash (by decide) _) ?_
      refine .bind (readGenericsNames_sound slash_member more more_holds) fun names read => .pure ?_
      exact ⟨(read.1.cons (isCopiedLiteral_of_isOp isSlash)).cons name_other,
        List.forall_mem_cons.2 ⟨name_tidy, read.2⟩⟩

theorem readGenericsHeader_sound (holds : source.Holds ts) : source.Finds (readGenericsHeader ts) fun names =>
      source.Takes ts 0 names.rest ∧ ∀ name ∈ names.value, Tidy name := by
  cases ts with
  | nil => exact .pure ⟨.refl, List.forall_mem_nil _⟩
  | cons dash rest =>
    obtain ⟨member, holds⟩ := holds_cons.1 holds
    refine .iteNot (fun _ => .pure ⟨.refl, List.forall_mem_nil _⟩) fun isDash => ?_
    refine .note_bind member (canPlay_of_isOp isDash (by decide) _) ?_
    exact (readGenericsNames_sound member rest holds).mono fun _ read =>
      ⟨read.1.cons (isCopiedLiteral_of_isOp isDash), read.2⟩

theorem tidy_genericsText (tidy : ∀ name ∈ names, Tidy name) : Tidy (genericsText names) := by
  unfold genericsText
  split
  · decide
  · exact (Tidy.append (by decide) (tidy_commaSeparated tidy)).append (by decide)

/-- The tokens in front of a mark and those after it belong to the source, and together they are all
tokens but the mark. -/
structure MarkSound (source : Source) (ts : List Token)
    (split : List Token × Option (Token × List Token)) : Prop where
  front : source.Holds split.1
  marker : ∀ held ∈ split.2, held.1 ∈ source.tokens ∧ held.1.isOp "@" = true
  after : ∀ held ∈ split.2, source.Holds held.2
  takes : source.Takes split.1 0 [] → (∀ held ∈ split.2, source.Takes held.2 0 []) → source.Takes ts 0 []

theorem splitAtMark_sound (holds : source.Holds ts) : MarkSound source ts (splitAtMark ts) := by
  unfold splitAtMark
  cases split : splitTop (·.isOp "@") ts with
  | none => exact ⟨holds, by simp, by simp, fun front _ => front⟩
  | some s =>
    obtain ⟨front, marker, after⟩ := holds.within.splitTop split
    have isMark := found_of_splitTopAt split
    refine ⟨front.holds, by simpa using ⟨marker, isMark⟩, by simpa using after.holds, fun taken others => ?_⟩
    exact (Takes.splitTop split (isCopiedLiteral_of_isOp isMark) taken).after (others _ rfl)

theorem readMemberAccess_sound {mark : Option (Token × List Token)}
    (marker : ∀ held ∈ mark, held.1 ∈ source.tokens ∧ held.1.isOp "@" = true)
    (after : ∀ held ∈ mark, source.Holds held.2) :
    source.Finds (readMemberAccess scope mark) fun access =>
      (∀ held ∈ mark, source.Takes held.2 0 []) ∧ ∀ word ∈ access, Tidy word := by
  cases mark with
  | none => exact .pure ⟨by simp, List.forall_mem_nil _⟩
  | some held =>
    obtain ⟨marker_member, isMark⟩ := marker held rfl
    refine .ite (fun _ => .fail (blames_blame marker_member nofun)) fun _ => ?_
    exact (readWholeAccess_sound marker_member isMark (after held rfl)).mono fun _ read =>
      ⟨by simpa using read.1, read.2⟩

theorem tidy_inheritance (held : Option Inheritance) : Tidy ((held.map fun kind => kind.text ++ " ").getD "") := by
  cases held with
  | none => decide
  | some kind => cases kind <;> decide

end Headers

/-! ## Functions -/

section Functions

variable {source : Source} {t : Token}

/-- What the header of a function is written with is tidy. -/
structure FnHeader.Neat (header : FnHeader) : Prop where
  name : Tidy header.name
  generics : ∀ name ∈ header.generics, Tidy name
  params : ∀ slot ∈ header.params, slot.Neat
  returned : header.returned.Neat
  access : ∀ word ∈ header.access, Tidy word

theorem FnModifiers.tidy_text (mods : FnModifiers) : Tidy mods.text := by
  have async : Tidy (if mods.isAsync then "async " else "") := .ite (by decide) (by decide)
  have partly : Tidy (if mods.isPartial then "partial " else "") := .ite (by decide) (by decide)
  exact ((tidy_inheritance mods.inheritance).append async).append partly

theorem FnHeader.Neat.tidy_text {header : FnHeader} (neat : header.Neat) (mods : FnModifiers) :
    Tidy (header.text mods) := by
  have params : Tidy ("(" ++ commaSeparated (header.params.map Slot.render) ++ ")") := by
    refine (tidy_commaSeparated fun text member => ?_).enclosed
    obtain ⟨slot, slot_member, rfl⟩ := List.mem_map.1 member
    exact (neat.params slot slot_member).tidy_render
  have front := (tidy_accessText neat.access).append mods.tidy_text
  have typed := front.append (neat.returned.tidy_render header.returned .returned)
  have named := (typed.append (by decide : Tidy " ")).append neat.name
  have whole := (named.append (tidy_genericsText neat.generics)).append params
  simpa only [FnHeader.text, String.append_assoc] using whole

theorem readWholeSignature_sound (holds : source.Holds ts) : source.Finds (readWholeSignature ts) fun function =>
      source.Takes ts 0 [] ∧ NeatFunction function := by
  unfold readWholeSignature
  refine .ite (fun empty => ?_) fun _ => .bind (readSignature_sound holds) fun function read => ?_
  · rw [List.isEmpty_iff.1 empty]
    exact .pure ⟨.refl, List.forall_mem_nil _, normal_neat (by decide)⟩
  · obtain ⟨function, rest⟩ := function
    cases rest with
    | nil => exact .pure read
    | cons extra rest => exact .fail (blames_unexpected (read.1.within holds.within).head)

theorem readFnHeader_sound (member : t ∈ source.tokens) (holds : source.Holds ts) :
    source.Finds (readFnHeader scope t ts) fun header => source.Takes ts 0 [] ∧ header.Neat := by
  have missing := blames_missing member .functionName
  have all_holds := holds.significant
  unfold readFnHeader
  cases all : significant ts with
  | nil => exact .fail missing
  | cons name header =>
    rw [all] at all_holds
    obtain ⟨name_member, header_holds⟩ := holds_cons.1 all_holds
    refine .require missing fun isName => ?_
    have isWord := isWord_of_isNameLike isName
    refine .note_bind name_member (canPlay_of_isNameLike isName _)
      (.bind (readGenericsHeader_sound header_holds) fun generics genericsRead => ?_)
    have mark := splitAtMark_sound (header_holds.suffix genericsRead.1.suffix)
    refine .bind (readWholeSignature_sound mark.front) fun function functionRead =>
      .bind (readMemberAccess_sound mark.marker mark.after) fun access accessRead => .pure ⟨?_, ?_⟩
    · have others := genericsRead.1.after (mark.takes functionRead.1 accessRead.1)
      have whole := others.cons (isCopiedLiteral_of_isWord isWord)
      exact .of_significant (all ▸ whole)
    · exact ⟨tidy_of_isWord name_member isWord, genericsRead.2, functionRead.2.1, functionRead.2.2, accessRead.2⟩

theorem convertFn_sound (inner_sound : inner.SoundBlocks source region) (pending_sound : pending.Sound source)
    (member : t ∈ source.tokens) (within : source.Within region rest) :
    source.DraftsFrom rest opened (convertFn inner scope pending t rest) := by
  unfold convertFn
  refine .ofExcept_bind (pending_sound.forFn scope.container) fun mods _ => ?_
  cases split : splitTop (·.isOpIn ["\x7b", ";"]) rest with
  | none => exact .fail (blames_missing member _)
  | some s =>
    obtain ⟨front, found, after⟩ := within.splitTop split
    have other := isCopiedLiteral_of_isOpIn (found_of_splitTopAt split)
    refine .reading_bind (readFnHeader_sound member front.holds) fun header read => ?_
    have taken := Takes.splitTop split other read.1
    have tidy := read.2.tidy_text mods
    refine .ite (fun _ => .guard (blames_missing found _) fun _ => .emit_bind ?_ (by simp)
      (.pure taken)) fun _ => .guard (blames_blame found nofun) fun _ =>
      .emit_bind (leads_start_indented _ tidy) (by simp) ?_
    · have nonempty : header.text mods ++ ";" ≠ "" := by simp
      exact (leads_indents _).append (leads_line_of_tidy nonempty (tidy.append (by decide)))
    · exact (convertBraced_sound inner_sound _ found after).mono fun _ _ => taken.after

end Functions

/-! ## Variables -/

section Variables

variable {source : Source} {kind : VariableKind} {t : Token}

structure VariableHeader.Sound (source : Source) (header : VariableHeader) : Prop where
  member : header.name ∈ source.tokens
  isWord : header.name.isWord = true
  type : ∀ type ∈ header.type, type.Neat
  access : ∀ word ∈ header.access, Tidy word

theorem readVariableType_sound (holds : source.Holds ts) : source.Finds (readVariableType ts) fun type =>
      source.Takes ts 0 [] ∧ ∀ given ∈ type, given.Neat := by
  cases ts with
  | nil => exact .pure ⟨.refl, nofun⟩
  | cons colon rest =>
    obtain ⟨member, holds⟩ := Source.holds_cons.1 holds
    unfold readVariableType
    refine .require (Source.blames_unexpected member) fun isColon => ?_
    refine .note_bind member (Token.canPlay_of_isOp isColon (by decide) _)
      (.bind (TypeExpr.readWhole_sound member holds) fun type read => .pure ⟨?_, ?_⟩)
    · exact read.1.cons (Token.isCopiedLiteral_of_isOp isColon)
    · simpa using read.2

theorem readVariableHeader_sound (member : t ∈ source.tokens) (holds : source.Holds ts) :
    source.Finds (readVariableHeader kind scope t ts) fun header =>
      source.Takes ts 0 [] ∧ header.Sound source := by
  have missing := blames_missing member .variableName
  have all_holds := holds.significant
  unfold readVariableHeader
  cases all : significant ts with
  | nil => exact .fail missing
  | cons name header =>
    rw [all] at all_holds
    obtain ⟨name_member, header_holds⟩ := holds_cons.1 all_holds
    have mark := splitAtMark_sound header_holds
    refine .require missing fun isName => ?_
    have isWord := isWord_of_isNameLike isName
    refine .note_bind name_member (canPlay_of_isNameLike isName _)
      (.bind (readVariableType_sound mark.front) fun type typeRead =>
      .bind (readMemberAccess_sound mark.marker mark.after) fun access accessRead => .pure ?_)
    have whole := (mark.takes typeRead.1 accessRead.1).cons (isCopiedLiteral_of_isWord isWord)
    exact ⟨.of_significant (all ▸ whole), name_member, isWord, typeRead.2, accessRead.2⟩

theorem tidy_numberType (text : String) : Tidy (numberType text) := by
  exact .ite (by decide) (.ite (by decide) (.ite (by decide) (.ite (by decide) (.ite (by decide)
    (.ite (by decide) (.ite (by decide) (by decide)))))))

theorem tidy_literalType (known : literalType? t = some text) : Tidy text := by
  unfold literalType? at known
  split at known
  · cases known; decide
  · cases known; decide
  · cases known; decide
  · cases known; exact tidy_numberType _
  · split at known
    · cases known; decide
    · cases known
  · cases known

theorem VariableHeader.Sound.typeText {header : VariableHeader} (sound : header.Sound source)
    (hasValue : Bool) (value : List Token) :
    source.Checks (header.typeText kind scope hasValue value) Tidy := by
  have untyped {cause : Cause} (inside : cause ≠ .outsideRange) :
      source.Blames (.blame header.name cause) := blames_blame sound.member inside
  unfold VariableHeader.typeText
  split
  · next type typed => exact .ok ((sound.type type typed).tidy_render type .plain)
  · exact .error (untyped nofun)
  · cases inferred : inferConstType? value with
    | none => exact .error (untyped nofun)
    | some text =>
      obtain ⟨literal, -, known⟩ := Option.bind_eq_some_iff.1 inferred
      exact .ok (tidy_literalType known)
  · exact .ite (fun _ => .error (blames_missing sound.member _)) fun _ =>
      .ite (fun _ => .ok (by decide)) fun _ => .error (untyped nofun)

theorem VariableKind.tidy_text (kind : VariableKind) : Tidy kind.text := by
  cases kind <;> decide

theorem convertVariable_sound (inner_sound : inner.SoundExpressions source region)
    (pending_sound : pending.Sound source) (member : t ∈ source.tokens)
    (within : source.Within region rest) :
    source.DraftsFrom rest opened (convertVariable inner kind scope pending t rest) := by
  unfold convertVariable
  refine .ofExcept_bind pending_sound.forVariable fun _ _ => ?_
  cases split : splitTop (fun t => t.isAssignment || t.isOp ";") rest with
  | none =>
    refine .reading_bind (readVariableHeader_sound member within.holds) fun _ _ => .fail ?_
    exact blames_missing (within.holds.significant.getLastD member) _
  | some s =>
    obtain ⟨front, found, after⟩ := within.splitTop split
    refine .reading_bind (readVariableHeader_sound member front.holds) fun header read =>
      .require (blames_unexpected found) fun isMark =>
      .ofExcept_bind (read.2.typeText _ s.after) fun type type_tidy => ?_
    have taken := Takes.splitTop split (isCopiedLiteral_of_isOpIn isMark) read.1
    have name_tidy := tidy_of_isWord read.2.member read.2.isWord
    have tidy : Tidy (accessText header.access ++ kind.text ++ type ++ " " ++ header.name.text) :=
      ((((tidy_accessText read.2.access).append kind.tidy_text).append type_tidy).append
        (by decide)).append name_tidy
    have notConstant : source.Blames (.blame header.name .nonConstantConst) :=
      blames_blame read.2.member nofun
    refine .ite (fun _ => .guard notConstant fun _ => .emit_bind ?_ (by simp) (.pure taken)) fun _ =>
      .note_bind found (canPlay_of_isOpIn isMark (by decide) _)
      (.emit_bind (leads_start_of_tidy _ ?_ (tidy.append (by decide))) (by simp) ?_)
    · exact (leads_indents _).append (leads_line_of_tidy (by simp) (tidy.append (by decide)))
    · simp
    · refine .bind (convertRightSide_sound inner_sound found after) fun value used given =>
        .guard notConstant fun _ => .pure ?_
      simpa using taken.after given.1

end Variables

/-! ## Classes and structs -/

section TypeDecls

variable {source : Source} {t colon : Token}

theorem readBases_sound (member : colon ∈ source.tokens) (holds : source.Holds ts) :
    source.Finds (readBases colon ts) fun bases =>
      source.Takes ts 0 bases.rest ∧ ∀ base ∈ bases.value, base.Neat := by
  unfold readBases
  refine .walk (fun (bases : List TypeExpr) rest =>
    source.Takes ts 0 rest ∧ ∀ base ∈ bases, base.Neat) ?_
    (fun _ _ => .fail (blames_missing member _)) ⟨.refl, List.forall_mem_nil _⟩
  rintro bases first more ⟨takes, bases_neat⟩
  refine .bind (sound_reader .declaration (takes.within holds.within).holds) fun base read => ?_
  obtain ⟨base, rest⟩ := base
  obtain ⟨passes, base_neat⟩ := read
  have takes := takes.before passes.takes
  have bases_neat := List.forall_mem_append.2 ⟨bases_neat, List.forall_mem_singleton.2 base_neat⟩
  cases rest with
  | nil => exact .pure ⟨takes, bases_neat⟩
  | cons comma rest =>
    refine .ite (fun isComma => .pure ?_) fun _ => .pure ⟨takes, bases_neat⟩
    have next : source.Takes (comma :: rest) 0 rest :=
      .cons (isCopiedLiteral_of_isOp isComma) .refl
    exact ⟨next.suffix.trans passes.others.suffix, takes.before next, bases_neat⟩

theorem readBasesHeader_sound (holds : source.Holds ts) : source.Finds (readBasesHeader ts) fun bases =>
      source.Takes ts 0 bases.rest ∧ ∀ base ∈ bases.value, base.Neat := by
  cases ts with
  | nil => exact .pure ⟨.refl, List.forall_mem_nil _⟩
  | cons colon rest =>
    obtain ⟨member, holds⟩ := holds_cons.1 holds
    refine .iteNot (fun _ => .pure ⟨.refl, List.forall_mem_nil _⟩) fun isColon => ?_
    refine .note_bind member (canPlay_of_isOp isColon (by decide) _) ?_
    exact (readBases_sound member holds).mono fun _ read =>
      ⟨read.1.cons (isCopiedLiteral_of_isOp isColon), read.2⟩

theorem tidy_basesText {bases : List TypeExpr} (neat : ∀ base ∈ bases, base.Neat) : Tidy (basesText bases) := by
  unfold basesText
  split
  · decide
  · refine Tidy.append (by decide) (tidy_commaSeparated fun text member => ?_)
    obtain ⟨base, base_member, rfl⟩ := List.mem_map.1 member
    exact (neat base base_member).tidy_render base .plain

theorem readHeaderAccess_sound (holds : source.Holds ts) : source.Finds (readHeaderAccess ts) fun access =>
      source.Takes ts 0 [] ∧ ∀ word ∈ access, Tidy word := by
  cases ts with
  | nil => exact .pure ⟨.refl, List.forall_mem_nil _⟩
  | cons marker rest =>
    obtain ⟨member, holds⟩ := holds_cons.1 holds
    refine .ite (fun isMark => ?_) fun _ => .fail (blames_unexpected member)
    exact (readWholeAccess_sound member isMark holds).mono fun _ read =>
      ⟨read.1.cons (isCopiedLiteral_of_isOp isMark), read.2⟩

theorem tidy_refText (mods : StructModifiers) : Tidy mods.refText := by
  unfold StructModifiers.refText
  split <;> decide

theorem modifierText_sound (pending_sound : pending.Sound source) (kind : TypeDeclKind) :
    source.Checks (kind.modifierText pending) Tidy := by
  have partly (isPartial : Bool) : Tidy (if isPartial then "partial " else "") :=
    .ite (by decide) (by decide)
  cases kind with
  | classType =>
    have abstract (isAbstract : Bool) : Tidy (if isAbstract then "abstract " else "") :=
      .ite (by decide) (by decide)
    exact .bind pending_sound.forClass fun mods _ => .ok ((abstract _).append (partly _))
  | structType =>
    exact .bind pending_sound.forStruct fun mods _ => .ok ((tidy_refText mods).append (partly _))

theorem convertTypeDecl_sound (inner_sound : inner.SoundBlocks source region)
    (pending_sound : pending.Sound source) (kind : TypeDeclKind) (isWord : t.isWord = true)
    (member : t ∈ source.tokens) (within : source.Within region rest) :
    source.DraftsFrom rest opened (convertTypeDecl inner kind scope pending t rest) := by
  have nameMissing := blames_missing member (.declaredName t.text)
  unfold convertTypeDecl
  refine .guard (blames_blame member nofun) fun _ =>
    .ofExcept_bind (modifierText_sound pending_sound kind) fun modifiers modifiers_tidy => ?_
  cases split : splitTop (·.isOpIn ["\x7b", ";"]) rest with
  | none => exact .fail (blames_missing member _)
  | some s =>
    obtain ⟨front, found, after⟩ := within.splitTop split
    have other := isCopiedLiteral_of_isOpIn (found_of_splitTopAt split)
    have all_holds := front.holds.significant
    refine .guard (blames_missing member _) fun _ => ?_
    cases all : significant s.before with
    | nil => exact .fail nameMissing
    | cons name header =>
      rw [all] at all_holds
      obtain ⟨name_member, header_holds⟩ := holds_cons.1 all_holds
      refine .require nameMissing fun isName => ?_
      have name_isWord := isWord_of_isNameLike isName
      refine .note_bind name_member (canPlay_of_isNameLike isName _)
        (.reading_bind (readGenericsHeader_sound header_holds) fun generics genericsRead => ?_)
      have bases_holds := header_holds.suffix genericsRead.1.suffix
      refine .reading_bind (readBasesHeader_sound bases_holds) fun bases basesRead =>
        .reading_bind (readHeaderAccess_sound (bases_holds.suffix basesRead.1.suffix))
        fun access accessRead => .emit_bind (leads_start_indented _ ?_) (by simp) ?_
      · have words := ((tidy_accessText accessRead.2).append modifiers_tidy).append (tidy_of_isWord member isWord)
        have named := (words.append (by decide : Tidy " ")).append (tidy_of_isWord name_member name_isWord)
        exact (named.append (tidy_genericsText genericsRead.2)).append (tidy_basesText basesRead.2)
      · have whole := (genericsRead.1.after (basesRead.1.after accessRead.1)).cons
          (isCopiedLiteral_of_isWord name_isWord)
        have taken := Takes.splitTop split other (.of_significant (all ▸ whole))
        exact (convertBraced_sound inner_sound _ found after).mono fun _ _ => taken.after

end TypeDecls

/-! ## Namespaces -/

section Namespaces

variable {source : Source} {t : Token}

/-- At least one token is taken. -/
theorem readNamespaceName_sound {before : Token} (member : before ∈ source.tokens) : (ts : List Token)
    → source.Holds ts → source.Finds (readNamespaceName before ts) fun name =>
      source.Takes ts 0 name.rest ∧ name.rest ≠ ts ∧ Tidy name.value
  | [], _ => .fail (blames_missing member _)
  | segment :: rest, holds => by
    obtain ⟨segment_member, holds⟩ := holds_cons.1 holds
    unfold readNamespaceName
    refine .require (blames_missing member _) fun isWord => ?_
    refine .note_bind segment_member (.inr ⟨isWord, rfl⟩) ?_
    have segment_other := isCopiedLiteral_of_isWord isWord
    have segment_tidy := tidy_of_isWord segment_member isWord
    cases rest with
    | nil => exact .pure ⟨.cons segment_other .refl, nofun, segment_tidy⟩
    | cons dot more =>
      obtain ⟨dot_member, more_holds⟩ := holds_cons.1 holds
      refine .iteNot (fun _ => .pure ⟨.cons segment_other .refl, (List.cons_ne_self _ _).symm, segment_tidy⟩)
        fun isDot => ?_
      refine .note_bind dot_member (canPlay_of_isOp isDot (by decide) _) ?_
      refine .bind (readNamespaceName_sound dot_member more more_holds) fun tail read => .pure ?_
      have taken := (read.1.cons (isCopiedLiteral_of_isOp isDot)).cons segment_other
      refine ⟨taken, fun same => ?_, (segment_tidy.append (by decide)).append read.2.2⟩
      have shorter := read.1.suffix.length_le
      have longer := congrArg List.length same
      simp only [List.length_cons] at longer
      omega

theorem readUsingFlags_sound (holds : source.Holds ts) (flags : UsingFlags) :
    source.Checks (readUsingFlags flags ts) fun given => source.Takes ts 0 given.rest := by
  induction ts generalizing flags with
  | nil => exact .ok .refl
  | cons t rest ih =>
    obtain ⟨member, holds⟩ := holds_cons.1 holds
    have twice : source.Blames (.blame t (.duplicate t.text)) := blames_blame member nofun
    have further {word : String} (isKeyword : t.isKeyword word = true) (flags : UsingFlags) :
        source.Checks (readUsingFlags flags rest) fun given => source.Takes (t :: rest) 0 given.rest :=
      .mono (ih holds flags) fun _ taken => taken.cons (isCopiedLiteral_of_isKeyword isKeyword)
    exact .ite (fun isStatic => .ite (fun _ => .error twice) fun _ => further isStatic _) fun _ =>
      .ite (fun isGlobal => .ite (fun _ => .error twice) fun _ => further isGlobal _) fun _ => .ok .refl

theorem readUsingMark_sound (holds : source.Holds ts) :
    source.Finds (readUsingMark ts) fun mark => source.Takes ts 0 mark.rest := by
  cases ts with
  | nil => exact .pure .refl
  | cons marker rest =>
    obtain ⟨member, holds⟩ := holds_cons.1 holds
    unfold readUsingMark
    refine .iteNot (fun _ => .pure .refl) fun isMark => ?_
    refine .note_bind member (canPlay_of_isOp isMark (by decide) _) ?_
    have checks := readUsingFlags_sound holds {}
    dsimp only
    cases given : readUsingFlags {} rest with
    | error fault => exact .fail (checks.blames given)
    | ok flags =>
      refine .guard (blames_missing member _) fun _ => .pure ?_
      exact (checks.holds given).cons (isCopiedLiteral_of_isOp isMark)

structure UsingState.Sound (source : Source) (state : UsingState) : Prop where
  before : state.before ∈ source.tokens
  names : ∀ name ∈ state.names, Tidy name

theorem readUsingRound_sound {state : UsingState} (state_sound : state.Sound source)
    (taken : source.Takes ts 0 (t :: rest)) (holds : source.Holds ts) :
    source.Finds (readUsingRound state t rest) (Step.Meets rest
      (fun state rest' => source.Takes ts 0 rest' ∧ state.Sound source)
      fun entries => source.Takes ts 0 [] ∧ ∀ name ∈ entries.1, Tidy name) := by
  have t_holds := holds.suffix taken.suffix
  unfold readUsingRound
  refine .bind (readNamespaceName_sound state_sound.before (t :: rest) t_holds) fun name read => ?_
  obtain ⟨nameTaken, shorter, name_tidy⟩ := read
  refine .bind (readUsingMark_sound (t_holds.suffix nameTaken.suffix)) fun mark markTaken => ?_
  have names_tidy := List.forall_mem_append.2 ⟨state_sound.names, List.forall_mem_singleton.2 name_tidy⟩
  have name_suffix : name.rest <:+ rest := (List.suffix_cons_iff.1 nameTaken.suffix).resolve_left shorter
  have markTaken' := (taken.before nameTaken).before markTaken
  dsimp only
  cases ends : mark.rest with
  | nil => exact .pure ⟨ends ▸ markTaken', names_tidy⟩
  | cons comma more =>
    rw [ends] at markTaken markTaken'
    have comma_member := (holds.suffix markTaken'.suffix) comma List.mem_cons_self
    refine .guard (blames_unexpected comma_member) fun isComma => .pure ?_
    simp only [Bool.or_eq_true, Bool.not_eq_true', not_or, Bool.not_eq_false] at isComma
    have next : source.Takes (comma :: more) 0 more :=
      .cons (isCopiedLiteral_of_isOp isComma.1) .refl
    exact ⟨next.suffix.trans (markTaken.suffix.trans name_suffix), markTaken'.before next, comma_member, names_tidy⟩

theorem readUsing_sound (member : before ∈ source.tokens) (holds : source.Holds ts) :
    source.Finds (readUsing before ts) fun entries =>
      source.Takes ts 0 [] ∧ ∀ name ∈ entries.1, Tidy name :=
  .walk (fun state rest => source.Takes ts 0 rest ∧ state.Sound source)
    (fun _ _ _ invariant => readUsingRound_sound invariant.2 invariant.1 holds)
    (fun _ invariant => .fail (blames_missing invariant.2.before _))
    ⟨.refl, member, List.forall_mem_nil _⟩

theorem leads_usingPieces (level : Nat) (flags : UsingFlags) (tidy : ∀ name ∈ names, Tidy name) :
    source.Leads ⟨.quiet, opened⟩ (usingPieces level flags names) ⟨.quiet, opened⟩ := by
  induction names with
  | nil => exact .refl
  | cons name names ih =>
    obtain ⟨name_tidy, names_tidy⟩ := List.forall_mem_cons.1 tidy
    have global : Tidy (if flags.isGlobal then "global " else "") := .ite (by decide) (by decide)
    have static : Tidy (if flags.isStatic then "static " else "") := .ite (by decide) (by decide)
    have words := (global.append (by decide : Tidy "using ")).append static
    have line := (words.append name_tidy).append (by decide : Tidy ";")
    have first : source.Leads ⟨.quiet, opened⟩ (Piece.indents level ++ [Piece.line _]) ⟨.quiet, opened⟩ :=
      (leads_indents level).append (leads_line_of_tidy (by simp) line)
    simpa [usingPieces] using first.append (ih names_tidy)

theorem copiedLiterals_usingPieces (level : Nat) (flags : UsingFlags) (names : List String) :
    copiedLiterals (usingPieces level flags names) = 0 := by
  induction names with
  | nil => rfl
  | cons name names ih => simp [usingPieces, ih]

theorem convertUsing_sound (member : t ∈ source.tokens) (within : source.Within region rest) :
    source.DraftsFrom rest opened (convertUsing scope t rest) := by
  unfold convertUsing
  refine .guard (blames_blame member nofun) fun _ => ?_
  cases split : splitTop (·.isOp ";") rest with
  | none => exact .fail (blames_missing member _)
  | some s =>
    have front := (within.splitTop split).1
    have semicolon := isCopiedLiteral_of_isOp (found_of_splitTopAt split)
    have all_holds := front.holds.significant
    dsimp only
    cases all : significant s.before with
    | nil => exact .fail (blames_missing member _)
    | cons first more =>
      rw [all] at all_holds
      refine .reading_bind (readUsing_sound (all_holds first List.mem_cons_self) all_holds)
        fun entries read => .emit_bind (leads_usingPieces _ _ read.2)
        (copiedLiterals_usingPieces ..) (.pure ?_)
      exact Takes.splitTop split semicolon (.of_significant (all ▸ read.1))

theorem readWholeNamespaceName_sound : (ts : List Token) → source.Holds ts →
    source.Finds (readWholeNamespaceName ts) fun name => source.Takes ts 0 [] ∧ Tidy name
  | [], _ => .pure ⟨.refl, by decide⟩
  | [segment], holds => by
    have member := holds segment List.mem_cons_self
    unfold readWholeNamespaceName
    refine .require (blames_unexpected member) fun isWord => ?_
    refine .note_bind member (.inr ⟨isWord, rfl⟩) (.pure ?_)
    exact ⟨.cons (isCopiedLiteral_of_isWord isWord) .refl, tidy_of_isWord member isWord⟩
  | segment :: dot :: rest, holds => by
    obtain ⟨member, dot_member, rest_holds⟩ : segment ∈ source.tokens ∧ dot ∈ source.tokens ∧
      source.Holds rest := by simpa using holds
    unfold readWholeNamespaceName
    refine .require (blames_unexpected member) fun isWord => ?_
    refine .note_bind member (.inr ⟨isWord, rfl⟩) (.require (blames_unexpected dot_member) fun isDot =>
      .guard (blames_missing dot_member _) fun _ =>
      .bind (readWholeNamespaceName_sound rest rest_holds) fun tail read => .pure ?_)
    have taken := (read.1.cons (isCopiedLiteral_of_isOp isDot)).cons (isCopiedLiteral_of_isWord isWord)
    have dot_text : dot.text = "." := by
      rw [isOp_iff] at isDot
      exact isDot.2
    have dot_tidy : Tidy dot.text := dot_text ▸ (by decide)
    exact ⟨taken, ((tidy_of_isWord member isWord).append dot_tidy).append read.2⟩

theorem convertNamespace_sound (inner_sound : inner.SoundBlocks source region) (member : t ∈ source.tokens)
    (within : source.Within region rest) :
    source.DraftsLines opened (convertNamespace inner scope t rest)
      fun statement used => source.Takes rest used statement.rest ∧ statement.value.pending = {} := by
  unfold convertNamespace
  refine .guard (blames_blame member nofun) fun _ => ?_
  cases split : splitTop (·.isOpIn ["\x7b", ";"]) rest with
  | none => exact .fail (blames_missing member _)
  | some s =>
    obtain ⟨front, found, after⟩ := within.splitTop split
    have other := isCopiedLiteral_of_isOpIn (found_of_splitTopAt split)
    refine .guard (blames_missing member _) fun _ => .reading_bind
      (readWholeNamespaceName_sound _ front.holds.significant) fun name read => ?_
    have taken := Takes.splitTop split other (.of_significant read.1)
    have tidy : Tidy ("namespace " ++ name) := Tidy.append (by decide) read.2
    refine .ite (fun _ => .guard (blames_blame found nofun) fun _ => .emit_bind ?_ (by simp)
      (.pure ⟨taken, rfl⟩)) fun _ => .emit_bind (leads_start_indented _ tidy) (by simp) (.bind
      (convertBraced_sound inner_sound _ found after) fun after used bodyTaken => .pure ⟨?_, rfl⟩)
    · exact (leads_indents _).append (leads_line_of_tidy (by simp) (tidy.append (by decide)))
    · simpa using taken.after bodyTaken

end Namespaces

end Sharp
