import Sharp.Proofs.Nesting
import Sharp.TypeExpr.Render

/-!
# The texts of types

What is written for a type closes the brackets it opens, on one line.

* `TypeExpr.Neat.tidy_render`: what is written for a neat type is tidy.
-/

namespace Sharp

open TypeExpr

/-! ## Neat types -/

mutual

/-- The names in the type are tidy. -/
inductive TypeExpr.Neat : TypeExpr → Prop where
  | mk {shape : Shape} {qualifiers : List Qualifier} {isNullable : Bool} (shape_neat : shape.Neat)
      (qualifiers_neat : ∀ qualifier ∈ qualifiers, qualifier.Neat) :
      TypeExpr.Neat (.mk shape qualifiers isNullable)

inductive Shape.Neat : Shape → Prop where
  | normal {name : String} (name_tidy : Tidy name) : Shape.Neat (.normal name)
  | array {element : TypeExpr} (element_neat : element.Neat) : Shape.Neat (.array element)
  | function {args : List Slot} {returned : TypeExpr} (args_neat : ∀ slot ∈ args, slot.Neat)
      (returned_neat : returned.Neat) : Shape.Neat (.function args returned)
  | generics {head : TypeExpr} {params : List TypeExpr} (head_neat : head.Neat)
      (params_neat : ∀ param ∈ params, param.Neat) : Shape.Neat (.generics head params)
  | tuple {elements : List TupleElement} (elements_neat : ∀ element ∈ elements, element.Neat) :
      Shape.Neat (.tuple elements)

inductive Qualifier.Neat : Qualifier → Prop where
  | mk {segment : TypeExpr} {accessor : Accessor} {segmentSpan accessorSpan : Span} (segment_neat : segment.Neat) :
      Qualifier.Neat (.mk segment accessor segmentSpan accessorSpan)

inductive Slot.Neat : Slot → Prop where
  | mk {name : String} {type : TypeExpr} {passing : Option Passing} (name_tidy : Tidy name)
      (type_neat : type.Neat) : Slot.Neat (.mk name type passing)

inductive TupleElement.Neat : TupleElement → Prop where
  | unnamed {type : TypeExpr} (type_neat : type.Neat) : TupleElement.Neat (.unnamed type)
  | named {slot : Slot} (slot_neat : slot.Neat) : TupleElement.Neat (.named slot)

end

section Text

variable {texts : List String} {text : String}

theorem Tidy.enclosed (tidy : Tidy text) : Tidy ("(" ++ text ++ ")") := by
  have inside := tidy.1.nest [.round]
  refine ⟨?_, by simp [tidy.2]⟩
  rw [Balanced, String.toList_append, String.toList_append, nest_append, nest_append]
  simp [Sharp.nest, nestChar, bracketMark, inside]

theorem Tidy.spaced_enclosed (tidy : Tidy text) : Tidy (" (" ++ text ++ ")") := by
  have spaced : Tidy (" " ++ ("(" ++ text ++ ")")) := Tidy.append (by decide) tidy.enclosed
  rwa [← String.append_assoc, ← String.append_assoc] at spaced

section

variable (tidy : ∀ text ∈ texts, Tidy text)
include tidy

theorem tidy_commaSeparated : Tidy (commaSeparated texts) := by
  fun_induction commaSeparated texts with
  | case1 => decide
  | case2 text => exact tidy text List.mem_cons_self
  | case3 text texts _ ih =>
    obtain ⟨first, others⟩ := List.forall_mem_cons.1 tidy
    exact (first.append (by decide)).append (ih others)

theorem tidy_functionTypeText {returned : Option String} (returned_tidy : ∀ text ∈ returned, Tidy text) :
    Tidy (functionTypeText texts returned) := by
  unfold functionTypeText
  split
  · decide
  · exact (Tidy.append (by decide) (tidy_commaSeparated tidy)).append (by decide)
  · next returned =>
    refine (Tidy.append (by decide) (tidy_commaSeparated ?_)).append (by decide)
    intro text member
    rcases List.mem_append.1 member with member | member
    · exact tidy text member
    · rw [List.mem_singleton.1 member]
      exact returned_tidy returned rfl

theorem tidy_tupleTypeText {elements : List String} (elements_tidy : ∀ text ∈ elements, Tidy text) :
    Tidy (tupleTypeText texts elements) := by
  unfold tupleTypeText
  split
  · decide
  · next type =>
    exact (Tidy.append (by decide) (tidy type List.mem_cons_self)).append (by decide)
  · exact (tidy_commaSeparated elements_tidy).enclosed

end

theorem Accessor.tidy_text (accessor : Accessor) : Tidy accessor.text := by
  cases accessor <;> decide

end Text

mutual

theorem TypeExpr.Neat.tidy_render : (type : TypeExpr) → type.Neat → (position : TypePosition) →
    Tidy (type.render position)
  | .mk shape qualifiers isNullable, .mk shape_neat qualifiers_neat, position => by
    rw [TypeExpr.render]
    split
    · decide
    · refine ((tidy_renderQualifiers qualifiers qualifiers_neat).append
        (Shape.Neat.tidy_renderShape shape shape_neat position)).append ?_
      split <;> decide

theorem Shape.Neat.tidy_renderShape : (shape : Shape) → shape.Neat →
    (position : TypePosition) → Tidy (renderShape position shape)
  | .normal name, .normal name_tidy, position => by
    rw [renderShape]
    split
    · decide
    · exact name_tidy
  | .array element, .array element_neat, position => by
    rw [renderShape]
    exact (element_neat.tidy_render element .plain).append (by decide)
  | .function args returned, .function args_neat returned_neat, position => by
    rw [renderShape]
    refine tidy_functionTypeText (fun text member => ?_) fun text member => ?_
    · exact tidy_renderSlots args args_neat text (List.mem_filter.1 member).1
    · split at member
      · cases member
      · cases member
        exact returned_neat.tidy_render returned .returned
  | .generics head params, .generics head_neat params_neat, position => by
    rw [renderShape]
    refine (((head_neat.tidy_render head .plain).append (by decide)).append ?_).append (by decide)
    exact tidy_commaSeparated (tidy_renderTypes params params_neat)
  | .tuple elements, .tuple elements_neat, position => by
    rw [renderShape]
    exact tidy_tupleTypeText (tidy_renderElementTypes elements elements_neat)
      (tidy_renderElements elements elements_neat)

theorem tidy_renderQualifiers : (qualifiers : List Qualifier) →
    (∀ qualifier ∈ qualifiers, qualifier.Neat) → Tidy (renderQualifiers qualifiers)
  | [], _ => by
    rw [renderQualifiers]
    decide
  | .mk segment accessor segmentSpan accessorSpan :: qualifiers, neat => by
    obtain ⟨⟨segment_neat⟩, others⟩ := List.forall_mem_cons.1 neat
    rw [renderQualifiers]
    exact ((segment_neat.tidy_render segment .plain).append accessor.tidy_text).append
      (tidy_renderQualifiers qualifiers others)

theorem tidy_renderSlots : (slots : List Slot) → (∀ slot ∈ slots, slot.Neat) → ∀ text ∈ renderSlots slots, Tidy text
  | [], _ => by simp [renderSlots]
  | .mk name type passing :: slots, neat => by
    obtain ⟨⟨name_tidy, type_neat⟩, others⟩ := List.forall_mem_cons.1 neat
    rw [renderSlots, List.forall_mem_cons]
    exact ⟨type_neat.tidy_render type .argument, tidy_renderSlots slots others⟩

theorem tidy_renderTypes : (types : List TypeExpr) → (∀ type ∈ types, type.Neat) →
    ∀ text ∈ renderTypes types, Tidy text
  | [], _ => by simp [renderTypes]
  | type :: types, neat => by
    obtain ⟨type_neat, others⟩ := List.forall_mem_cons.1 neat
    rw [renderTypes, List.forall_mem_cons]
    exact ⟨type_neat.tidy_render type .plain, tidy_renderTypes types others⟩

theorem tidy_renderElementTypes : (elements : List TupleElement) → (∀ element ∈ elements, element.Neat) →
    ∀ text ∈ renderElementTypes elements, Tidy text
  | [], _ => by simp [renderElementTypes]
  | .unnamed type :: elements, neat => by
    obtain ⟨⟨type_neat⟩, others⟩ := List.forall_mem_cons.1 neat
    rw [renderElementTypes, List.forall_mem_cons]
    exact ⟨type_neat.tidy_render type .plain, tidy_renderElementTypes elements others⟩
  | .named (.mk name type passing) :: elements, neat => by
    obtain ⟨_ | ⟨name_tidy, type_neat⟩, others⟩ := List.forall_mem_cons.1 neat
    rw [renderElementTypes, List.forall_mem_cons]
    exact ⟨type_neat.tidy_render type .plain, tidy_renderElementTypes elements others⟩

theorem tidy_renderElements : (elements : List TupleElement) → (∀ element ∈ elements, element.Neat) →
    ∀ text ∈ renderElements elements, Tidy text
  | [], _ => by simp [renderElements]
  | .unnamed type :: elements, neat => by
    obtain ⟨⟨type_neat⟩, others⟩ := List.forall_mem_cons.1 neat
    rw [renderElements, List.forall_mem_cons]
    exact ⟨type_neat.tidy_render type .plain, tidy_renderElements elements others⟩
  | .named (.mk name type passing) :: elements, neat => by
    obtain ⟨_ | ⟨name_tidy, type_neat⟩, others⟩ := List.forall_mem_cons.1 neat
    rw [renderElements, List.forall_mem_cons]
    exact ⟨((type_neat.tidy_render type .plain).append (by decide)).append name_tidy,
      tidy_renderElements elements others⟩

end

theorem Passing.tidy_text (passing : Passing) : Tidy passing.text := by
  cases passing <;> decide

theorem Slot.Neat.tidy_render {slot : Slot} (neat : slot.Neat) : Tidy slot.render := by
  obtain ⟨name_tidy, type_neat⟩ := neat
  rename_i name type passing
  have declared : Tidy (type.render .plain ++ " " ++ name) :=
    ((type_neat.tidy_render type .plain).append (by decide)).append name_tidy
  cases passing with
  | none => exact declared
  | some passing => exact (passing.tidy_text.append (by decide)).append declared

end Sharp
