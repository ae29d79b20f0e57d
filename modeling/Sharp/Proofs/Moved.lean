import Sharp.TypeExpr.Reader
import Sharp.TypeExpr.Render

/-!
# Types farther on

A type that is read farther on in a source differs only in where its parts stand, and is written the
same.

* `TypeExpr.render_moved`: the text of a type does not tell where the type was read.
-/

namespace Sharp

open TypeExpr

/-! ## Moving -/

/-- How much farther on something stands, in tokens and in bytes. -/
structure Shift where
  ids : Nat
  bytes : Nat

def Span.moved (shift : Shift) (span : Span) : Span := ⟨span.offset + shift.bytes, span.length⟩

def Token.moved (shift : Shift) (t : Token) : Token :=
  { t with id := t.id + shift.ids, start := t.start + shift.bytes, stop := t.stop + shift.bytes }

theorem Span.between_moved (shift : Shift) (start stop : Nat) :
    Span.between (start + shift.bytes) (stop + shift.bytes) = (Span.between start stop).moved shift := by
  simp [Span.between, Span.moved, Nat.add_sub_add_right]

@[simp] theorem Token.span_moved (shift : Shift) (t : Token) : (t.moved shift).span = t.span.moved shift :=
  Span.between_moved shift t.start t.stop

mutual

def TypeExpr.moved (shift : Shift) : TypeExpr → TypeExpr
  | .mk shape qualifiers isNullable =>
    .mk (shape.moved shift) (movedQualifiers shift qualifiers) isNullable

def Shape.moved (shift : Shift) : Shape → Shape
  | .normal name => .normal name
  | .array element => .array (element.moved shift)
  | .function args returned => .function (movedSlots shift args) (returned.moved shift)
  | .generics head params => .generics (head.moved shift) (movedTypes shift params)
  | .tuple elements => .tuple (movedElements shift elements)

def movedQualifiers (shift : Shift) : List Qualifier → List Qualifier
  | [] => []
  | .mk segment accessor segmentSpan accessorSpan :: qualifiers =>
    .mk (segment.moved shift) accessor (segmentSpan.moved shift) (accessorSpan.moved shift) ::
      movedQualifiers shift qualifiers

def movedSlots (shift : Shift) : List Slot → List Slot
  | [] => []
  | .mk name type passing :: slots => .mk name (type.moved shift) passing :: movedSlots shift slots

def movedTypes (shift : Shift) : List TypeExpr → List TypeExpr
  | [] => []
  | type :: types => type.moved shift :: movedTypes shift types

def movedElements (shift : Shift) : List TupleElement → List TupleElement
  | [] => []
  | .unnamed type :: elements => .unnamed (type.moved shift) :: movedElements shift elements
  | .named (.mk name type passing) :: elements =>
    .named (.mk name (type.moved shift) passing) :: movedElements shift elements

end

def Qualifier.moved (shift : Shift) : Qualifier → Qualifier
  | .mk segment accessor segmentSpan accessorSpan =>
    .mk (segment.moved shift) accessor (segmentSpan.moved shift) (accessorSpan.moved shift)

def Slot.moved (shift : Shift) : Slot → Slot
  | .mk name type passing => .mk name (type.moved shift) passing

def TupleElement.moved (shift : Shift) : TupleElement → TupleElement
  | .unnamed type => .unnamed (type.moved shift)
  | .named slot => .named (slot.moved shift)

section Moved

variable (shift : Shift)

@[simp] theorem movedQualifiers_eq_map (qualifiers : List Qualifier) :
    movedQualifiers shift qualifiers = qualifiers.map (Qualifier.moved shift) := by
  induction qualifiers with
  | nil => rfl
  | cons qualifier qualifiers ih =>
    cases qualifier
    simp [movedQualifiers, Qualifier.moved, ih]

@[simp] theorem movedSlots_eq_map (slots : List Slot) : movedSlots shift slots = slots.map (Slot.moved shift) := by
  induction slots with
  | nil => rfl
  | cons slot slots ih =>
    cases slot
    simp [movedSlots, Slot.moved, ih]

@[simp] theorem movedTypes_eq_map (types : List TypeExpr) :
    movedTypes shift types = types.map (TypeExpr.moved shift) := by
  induction types with
  | nil => rfl
  | cons type types ih => simp [movedTypes, ih]

@[simp] theorem movedElements_eq_map (elements : List TupleElement) :
    movedElements shift elements = elements.map (TupleElement.moved shift) := by
  induction elements with
  | nil => rfl
  | cons element elements ih =>
    cases element with
    | unnamed type => simp [movedElements, TupleElement.moved, ih]
    | named slot =>
      cases slot
      simp [movedElements, TupleElement.moved, Slot.moved, ih]

section

variable (type : TypeExpr)

@[simp] theorem TypeExpr.isNullable_moved : (type.moved shift).isNullable = type.isNullable := by
  cases type
  simp [TypeExpr.moved, TypeExpr.isNullable]

@[simp] theorem TypeExpr.normalName_moved : (type.moved shift).normalName? = type.normalName? := by
  obtain ⟨shape, qualifiers, isNullable⟩ := type
  cases shape <;> simp [TypeExpr.moved, Shape.moved, normalName?, TypeExpr.shape]

@[simp] theorem TypeExpr.isVoidLike_moved : (type.moved shift).isVoidLike = type.isVoidLike := by
  simp [TypeExpr.isVoidLike]

@[simp] theorem TypeExpr.isQualifying_moved : (type.moved shift).isQualifying = type.isQualifying := by
  obtain ⟨shape, qualifiers, isNullable⟩ := type
  cases shape <;> simp [TypeExpr.moved, Shape.moved, TypeExpr.isQualifying, TypeExpr.shape]

theorem TypeExpr.withNullable_moved (isNullable : Bool) :
    (type.withNullable isNullable).moved shift = (type.moved shift).withNullable isNullable := by
  cases type
  simp [TypeExpr.moved, withNullable]

theorem TypeExpr.withQualifiers_moved (qualifiers : List Qualifier) : (type.withQualifiers qualifiers).moved shift =
      (type.moved shift).withQualifiers (qualifiers.map (Qualifier.moved shift)) := by
  cases type
  simp [TypeExpr.moved, withQualifiers]

end

@[simp] theorem TypeExpr.normal_moved (name : String) : (TypeExpr.normal name).moved shift = .normal name := by
  simp [TypeExpr.normal, TypeExpr.plain, TypeExpr.moved, Shape.moved]

theorem TypeExpr.plain_moved (shape : Shape) : (TypeExpr.plain shape).moved shift = .plain (shape.moved shift) := by
  simp [TypeExpr.plain, TypeExpr.moved]

@[simp] theorem TupleElement.type_moved (element : TupleElement) :
    (element.moved shift).type = element.type.moved shift := by
  cases element with
  | unnamed type => rfl
  | named slot => cases slot; rfl

theorem TupleElement.setType_moved (element : TupleElement) (type : TypeExpr) :
    (element.setType type).moved shift = (element.moved shift).setType (type.moved shift) := by
  cases element with
  | unnamed _ => rfl
  | named slot => cases slot; rfl

end Moved

/-! ## Rendering -/

mutual

/-- The text of a type does not tell where the type was read. -/
theorem TypeExpr.render_moved (shift : Shift) (position : TypePosition) :
    (type : TypeExpr) → (type.moved shift).render position = type.render position
  | .mk shape qualifiers isNullable => by
    have name := normalName_moved shift (.mk shape qualifiers isNullable)
    rw [TypeExpr.moved] at name ⊢
    rw [TypeExpr.render, TypeExpr.render, name, renderQualifiers_moved shift qualifiers,
      renderShape_moved shift position shape]

theorem renderShape_moved (shift : Shift) (position : TypePosition) : (shape : Shape) →
      renderShape position (shape.moved shift) = renderShape position shape
  | .normal _ => by rw [Shape.moved]
  | .array element => by
    rw [Shape.moved, renderShape, renderShape, element.render_moved shift]
  | .function args returned => by
    rw [Shape.moved, renderShape, renderShape, renderSlots_moved shift args,
      returned.render_moved shift, isVoidLike_moved]
  | .generics head params => by
    rw [Shape.moved, renderShape, renderShape, head.render_moved shift, renderTypes_moved shift params]
  | .tuple elements => by
    rw [Shape.moved, renderShape, renderShape, renderElements_moved shift elements,
      renderElementTypes_moved shift elements]

theorem renderQualifiers_moved (shift : Shift) : (qualifiers : List Qualifier) →
    renderQualifiers (movedQualifiers shift qualifiers) = renderQualifiers qualifiers
  | [] => by rw [movedQualifiers]
  | .mk segment accessor _ _ :: qualifiers => by
    rw [movedQualifiers, renderQualifiers, renderQualifiers,
      segment.render_moved shift, renderQualifiers_moved shift qualifiers]

theorem renderSlots_moved (shift : Shift) : (slots : List Slot) →
    renderSlots (movedSlots shift slots) = renderSlots slots
  | [] => by rw [movedSlots]
  | .mk _ type _ :: slots => by
    rw [movedSlots, renderSlots, renderSlots, type.render_moved shift, renderSlots_moved shift slots]

theorem renderTypes_moved (shift : Shift) : (types : List TypeExpr) →
    renderTypes (movedTypes shift types) = renderTypes types
  | [] => by rw [movedTypes]
  | type :: types => by
    rw [movedTypes, renderTypes, renderTypes, type.render_moved shift, renderTypes_moved shift types]

theorem renderElementTypes_moved (shift : Shift) : (elements : List TupleElement) →
    renderElementTypes (movedElements shift elements) = renderElementTypes elements
  | [] => by rw [movedElements]
  | .unnamed type :: elements | .named (.mk _ type _) :: elements => by
    rw [movedElements, renderElementTypes, renderElementTypes,
      type.render_moved shift, renderElementTypes_moved shift elements]

theorem renderElements_moved (shift : Shift) : (elements : List TupleElement) →
    renderElements (movedElements shift elements) = renderElements elements
  | [] => by rw [movedElements]
  | .unnamed type :: elements | .named (.mk _ type _) :: elements => by
    rw [movedElements, renderElements, renderElements, type.render_moved shift, renderElements_moved shift elements]

end

end Sharp
