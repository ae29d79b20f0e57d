import Sharp.Proofs.MarkedTypes

/-!
# The text of a type tells the type

Two types without qualifying names and without function types that are written the same are the same,
however deep they are.  Reading a text from the left, a type ends where its marks end, and what follows it
in a longer text can be none of them.

* `render_injective`: the text of a type tells the type.
-/

namespace Sharp

variable {c closer : Char} {type : TypeExpr} {elements : List TupleElement} {rest : List Char} {name name' : String}

/-! ## Legible types -/

def typeDelimiters : List Char := ['<', '>', '(', ')', '[', ']', '?', ',', ' ']

/-- Can the character be part of a name? -/
def isLegibleChar (c : Char) : Bool := !typeDelimiters.contains c

/-- Is the text a name?  All words of letters, digits and underscores are names. -/
def IsLegibleName (name : String) : Prop := name ≠ "" ∧ ∀ c ∈ name.toList, isLegibleChar c = true

theorem isLegibleChar_of_isWordChar (word : isWordChar c = true) : isLegibleChar c = true := by
  have others : typeDelimiters.all (fun c => !isWordChar c) = true := by decide
  simp only [isLegibleChar, Bool.not_eq_true', Bool.eq_false_iff, ne_eq, List.contains_iff_mem]
  intro member
  have other := List.all_eq_true.1 others c member
  rw [word] at other
  cases other

/-- If the element has a name, it is a legible one, and the element is passed by value. -/
def TupleElement.IsLegiblyLabelled : TupleElement → Prop
  | .unnamed _ => True
  | .named slot => IsLegibleName slot.name ∧ slot.passing = none

/-- The types that their text tells. -/
inductive TypeExpr.Legible : TypeExpr → Prop where
  | normal {name : String} (word : IsLegibleName name) : Legible (.normal name)
  | nullable {shape : Shape} (plain : Legible (.plain shape)) : Legible (.mk shape [] true)
  | array {element : TypeExpr} (inside : Legible element) : Legible (.plain (.array element))
  | generics {name : String} {params : List TypeExpr} (word : IsLegibleName name) (nonempty : params ≠ [])
      (inside : ∀ param ∈ params, Legible param) : Legible (.plain (.generics (.normal name) params))
  | tuple {elements : List TupleElement} (several : 2 ≤ elements.length)
      (labelled : ∀ element ∈ elements, element.IsLegiblyLabelled)
      (inside : ∀ element ∈ elements, Legible element.type) : Legible (.plain (.tuple elements))

def TypeExpr.chars (type : TypeExpr) : List Char := (type.render .plain).toList

/-- The characters of an element of a tuple: its type, and its name if it has one. -/
def TupleElement.chars : TupleElement → List Char
  | .unnamed type => type.chars
  | .named slot => slot.type.chars ++ ' ' :: slot.name.toList

def elementsChars : List TupleElement → List Char
  | [] => []
  | [element] => element.chars
  | element :: elements => element.chars ++ ',' :: ' ' :: elementsChars elements

def marksChars (marks : List TypeMark) : List Char := marks.flatMap fun mark => mark.text.toList

section Chars

theorem TypeExpr.chars_normal (name : String) : (TypeExpr.normal name).chars = name.toList := by
  simp [chars, normal, plain, render, renderQualifiers, renderShape]

theorem TypeExpr.chars_apply {mark : TypeMark} (once : mark = .nullable → type.isNullable = false) :
    (mark.apply type).chars = type.chars ++ mark.text.toList := by
  rw [chars, render_apply once, String.toList_append, chars]

theorem elementsChars_cons_cons (element next : TupleElement) (elements : List TupleElement) :
    elementsChars (element :: next :: elements) = element.chars ++ ',' :: ' ' :: elementsChars (next :: elements) :=
  rfl

/-- Texts that are the characters of elements, with commas between them. -/
theorem toList_commaSeparated {texts : List String}
    (same : elements.map TupleElement.chars = texts.map String.toList) :
    (commaSeparated texts).toList = elementsChars elements := by
  induction elements generalizing texts with
  | nil =>
    cases texts with
    | nil => rfl
    | cons text texts => cases same
  | cons element elements ih =>
    cases texts with
    | nil => cases same
    | cons text texts =>
      obtain ⟨first, others⟩ := List.cons.inj same
      cases elements with
      | nil =>
        cases texts with
        | nil => exact first.symm
        | cons next texts => cases others
      | cons next elements =>
        cases texts with
        | nil => cases others
        | cons text' texts =>
          rw [elementsChars_cons_cons, ← ih others, first]
          simp [commaSeparated]

theorem TypeExpr.chars_generics_append (name : String) (params : List TypeExpr) (rest : List Char) :
    (TypeExpr.plain (.generics (.normal name) params)).chars ++ rest =
      name.toList ++ '<' :: (elementsChars (params.map .unnamed) ++ '>' :: rest) := by
  have each (params : List TypeExpr) :
      (params.map TupleElement.unnamed).map TupleElement.chars = (renderTypes params).map String.toList := by
    induction params with
    | nil => simp [renderTypes]
    | cons param params ih => simp only [renderTypes, List.map_cons, ih, TupleElement.chars, chars]
  have head : ((TypeExpr.normal name).render .plain).toList = name.toList := chars_normal name
  rw [← toList_commaSeparated (each params)]
  simp [chars, plain, render, renderQualifiers, renderShape, head]

theorem TypeExpr.chars_tuple_append (several : 2 ≤ elements.length) (rest : List Char) :
    (TypeExpr.plain (.tuple elements)).chars ++ rest = '(' :: (elementsChars elements ++ ')' :: rest) := by
  have each (elements : List TupleElement) :
      elements.map TupleElement.chars = (renderElements elements).map String.toList := by
    induction elements with
    | nil => simp [renderElements]
    | cons element elements ih =>
      cases element with
      | unnamed type => simp [renderElements, ih, TupleElement.chars, chars]
      | named slot =>
        cases slot
        simp [renderElements, ih, TupleElement.chars, chars, Slot.type, Slot.name]
  have length (elements : List TupleElement) : (renderElementTypes elements).length = elements.length := by
    induction elements with
    | nil => simp [renderElementTypes]
    | cons element elements ih =>
      cases element with
      | unnamed type => simp [renderElementTypes, ih]
      | named slot => cases slot; simp [renderElementTypes, ih]
  have text : tupleTypeText (renderElementTypes elements) (renderElements elements) =
      "(" ++ commaSeparated (renderElements elements) ++ ")" := by
    have several := (length elements).symm ▸ several
    unfold tupleTypeText
    split <;> simp_all
  rw [← toList_commaSeparated (each elements)]
  simp [chars, plain, render, renderQualifiers, renderShape, text]

end Chars

/-! ## What follows -/

/-- What can follow a type: nothing, or what separates and closes types. -/
def Stops (rest : List Char) : Prop := ∀ c ∈ rest.head?, c ∈ [',', '>', ')', ' ']

theorem stops_nil : Stops [] := by
  simp [Stops]

theorem stops_cons (listed : c ∈ [',', '>', ')', ' ']) (rest : List Char) : Stops (c :: rest) := by
  rintro _ ⟨⟩
  exact listed

/-- What can follow a type before its marks. -/
theorem head_marksChars {marks : List TypeMark} {rest : List Char} (stops : Stops rest) :
    ∀ c ∈ (marksChars marks ++ rest).head?, c ∈ ['?', '[', ',', '>', ')', ' '] := by
  cases marks with
  | nil =>
    intro c head
    have listed := stops c head
    simp only [List.mem_cons] at listed ⊢
    tauto
  | cons mark marks => cases mark <;> simp [marksChars, TypeMark.text]

theorem endsBefore_marksChars {marks : List TypeMark} {rest : List Char} (stops : Stops rest) :
    EndsBefore isLegibleChar (marksChars marks ++ rest) := by
  have others : ['?', '[', ',', '>', ')', ' '].all (fun c => !isLegibleChar c) = true := by decide
  intro c head
  simpa using List.all_eq_true.1 others c (head_marksChars stops c head)

theorem Stops.endsBefore (stops : Stops rest) : EndsBefore isLegibleChar rest :=
  @endsBefore_marksChars [] rest stops

/-- Marks end where something else follows. -/
theorem marksChars_append_inj {left right : List TypeMark} {rest' : List Char} (stops : Stops rest)
    (stops' : Stops rest') (same : marksChars left ++ rest = marksChars right ++ rest') :
    left = right ∧ rest = rest' := by
  have apart (mark : TypeMark) (marks : List TypeMark) {rest more : List Char} (stops : Stops rest) :
      rest ≠ marksChars (mark :: marks) ++ more := by
    rintro rfl
    cases mark
    · exact absurd (stops '?' rfl) (by decide)
    · exact absurd (stops '[' rfl) (by decide)
  induction left generalizing right with
  | nil =>
    cases right with
    | nil => exact ⟨rfl, same⟩
    | cons mark marks => exact absurd same (apart mark marks stops)
  | cons mark left ih =>
    cases right with
    | nil => exact absurd same.symm (apart mark left stops')
    | cons mark' right =>
      have rests (same : marksChars left ++ rest = marksChars right ++ rest') (equal : mark = mark') :
          mark :: left = mark' :: right ∧ rest = rest' := by
        obtain ⟨rfl, rfl⟩ := ih same
        exact ⟨by rw [equal], rfl⟩
      cases mark <;> cases mark' <;> simp [marksChars, TypeMark.text] at same
      · exact rests same rfl
      · exact rests same rfl

/-- A name ends where a character follows that is part of no name. -/
theorem name_append_inj {left right : String} (isName : IsLegibleName left) (isName' : IsLegibleName right)
    {rest' : List Char} (ends : EndsBefore isLegibleChar rest) (ends' : EndsBefore isLegibleChar rest')
    (same : left.toList ++ rest = right.toList ++ rest') : left = right ∧ rest = rest' := by
  obtain ⟨taken, dropped⟩ := takeWhile_append_endsBefore isName.2 ends
  obtain ⟨taken', dropped'⟩ := takeWhile_append_endsBefore isName'.2 ends'
  rw [same] at taken dropped
  exact ⟨String.toList_inj.1 (taken.symm.trans taken'), dropped.symm.trans dropped'⟩

/-- A name starts with a character of its own. -/
theorem name_append_ne (isName : IsLegibleName name) (other : isLegibleChar c = false)
    (rest more : List Char) : name.toList ++ rest ≠ c :: more := by
  intro same
  cases chars : name.toList with
  | nil => exact isName.1 (String.toList_eq_nil_iff.1 chars)
  | cons d cs =>
    rw [chars] at same
    obtain ⟨rfl, -⟩ := List.cons.inj same
    have legible := isName.2 d (by rw [chars]; exact List.mem_cons_self)
    rw [other] at legible
    cases legible

/-! ## Types in a longer text -/

/-- Where the text of the type is followed by something that ends it, the text tells the type and what
follows. -/
def TypeExpr.IsDelimited (type : TypeExpr) : Prop :=
  ∀ other : TypeExpr, other.Legible → ∀ rest rest', Stops rest → Stops rest' →
    type.chars ++ rest = other.chars ++ rest' → type = other ∧ rest = rest'

section Elements

variable {element other : TupleElement} {rest rest' : List Char}

/-- What can follow an element. -/
def ElementStops (rest : List Char) : Prop := ∀ c ∈ rest.head?, c ∈ [',', '>', ')']

theorem ElementStops.stops (stops : ElementStops rest) : Stops rest := by
  intro c head
  have listed := stops c head
  simp only [List.mem_cons] at listed ⊢
  tauto

theorem ElementStops.ne_space (stops : ElementStops rest) (more : List Char) : rest ≠ ' ' :: more := by
  rintro rfl
  exact absurd (stops ' ' rfl) (by decide)

theorem elementStops_cons (listed : c ∈ [',', '>', ')']) (rest : List Char) : ElementStops (c :: rest) := by
  rintro _ ⟨⟩
  exact listed

/-- The text of an element tells its type and its name. -/
theorem TupleElement.chars_append_inj (delimited : element.type.IsDelimited)
    (labelled : element.IsLegiblyLabelled) (legible : other.type.Legible) (labelled' : other.IsLegiblyLabelled)
    (stops : ElementStops rest) (stops' : ElementStops rest') (same : element.chars ++ rest = other.chars ++ rest') :
    element = other ∧ rest = rest' := by
  have space (cs : List Char) : Stops (' ' :: cs) := stops_cons (by decide) cs
  cases element with
  | unnamed type =>
    cases other with
    | unnamed type' =>
      obtain ⟨rfl, rests⟩ := delimited type' legible _ _ stops.stops stops'.stops same
      exact ⟨rfl, rests⟩
    | named slot' =>
      rw [TupleElement.chars, TupleElement.chars, List.append_assoc, List.cons_append] at same
      obtain ⟨-, rests⟩ := delimited slot'.type legible _ _ stops.stops (space _) same
      exact absurd rests (stops.ne_space _)
  | named slot =>
    cases other with
    | unnamed type' =>
      rw [TupleElement.chars, TupleElement.chars, List.append_assoc, List.cons_append] at same
      obtain ⟨-, rests⟩ := delimited type' legible _ _ (space _) stops'.stops same
      exact absurd rests.symm (stops'.ne_space _)
    | named slot' =>
      obtain ⟨name, type, passing⟩ := slot
      obtain ⟨name', type', passing'⟩ := slot'
      simp only [TupleElement.chars, List.append_assoc, List.cons_append] at same
      obtain ⟨rfl, names⟩ := delimited type' legible _ _ (space _) (space _) same
      obtain ⟨rfl, rests⟩ := name_append_inj labelled.1 labelled'.1 stops.stops.endsBefore stops'.stops.endsBefore
        (List.cons.inj names).2
      obtain rfl : passing = none := labelled.2
      obtain rfl : passing' = none := labelled'.2
      exact ⟨rfl, rests⟩

/-- The text of several elements in front of a closing bracket tells the elements. -/
theorem elementsChars_append_inj {left right : List TupleElement} (closes : closer ∈ ['>', ')'])
    (nonempty : left ≠ []) (delimited : ∀ element ∈ left, element.type.IsDelimited)
    (labelled : ∀ element ∈ left, element.IsLegiblyLabelled) (nonempty' : right ≠ [])
    (legible : ∀ element ∈ right, element.type.Legible) (labelled' : ∀ element ∈ right, element.IsLegiblyLabelled)
    (same : elementsChars left ++ closer :: rest = elementsChars right ++ closer :: rest') :
    left = right ∧ rest = rest' := by
  have other : closer ≠ ',' := by
    rintro rfl
    exact absurd closes (by decide)
  have closed (cs : List Char) : ElementStops (closer :: cs) := elementStops_cons (List.mem_cons_of_mem _ closes) cs
  have comma (cs : List Char) : ElementStops (',' :: cs) := elementStops_cons (by decide) cs
  induction left generalizing right with
  | nil => exact absurd rfl nonempty
  | cons element left ih =>
    obtain ⟨element', right, rfl⟩ := List.exists_cons_of_ne_nil nonempty'
    obtain ⟨delimited, delimited_left⟩ := List.forall_mem_cons.1 delimited
    obtain ⟨labelled, labelled_left⟩ := List.forall_mem_cons.1 labelled
    obtain ⟨legible, legible_right⟩ := List.forall_mem_cons.1 legible
    obtain ⟨labelled', labelled_right⟩ := List.forall_mem_cons.1 labelled'
    have first {cs cs' : List Char} := @TupleElement.chars_append_inj element element' cs cs' delimited labelled legible
      labelled'
    cases left with
    | nil =>
      cases right with
      | nil =>
        obtain ⟨rfl, rests⟩ := first (closed rest) (closed rest') same
        exact ⟨rfl, (List.cons.inj rests).2⟩
      | cons next right =>
        rw [elementsChars_cons_cons, List.append_assoc, List.cons_append] at same
        obtain ⟨-, rests⟩ := first (closed rest) (comma _) same
        exact absurd (List.cons.inj rests).1 other
    | cons next left =>
      rw [elementsChars_cons_cons, List.append_assoc, List.cons_append] at same
      cases right with
      | nil =>
        obtain ⟨-, rests⟩ := first (comma _) (closed rest') same
        exact absurd (List.cons.inj rests).1.symm other
      | cons next' right =>
        rw [elementsChars_cons_cons, List.append_assoc, List.cons_append] at same
        obtain ⟨rfl, rests⟩ := first (comma _) (comma _) same
        have rests := (List.cons.inj (List.cons.inj rests).2).2
        obtain ⟨others, rests⟩ := ih (by simp) delimited_left labelled_left (by simp) legible_right labelled_right rests
        exact ⟨by rw [others], rests⟩

end Elements

/-! ## Stems -/

/-- A legible type in front of all its marks. -/
inductive TypeExpr.IsStem : TypeExpr → Prop where
  | normal {name : String} (word : IsLegibleName name) : IsStem (.normal name)
  | generics {name : String} {params : List TypeExpr} (word : IsLegibleName name) (nonempty : params ≠ [])
      (inside : ∀ param ∈ params, param.Legible) : IsStem (.plain (.generics (.normal name) params))
  | tuple {elements : List TupleElement} (several : 2 ≤ elements.length)
      (labelled : ∀ element ∈ elements, element.IsLegiblyLabelled)
      (inside : ∀ element ∈ elements, element.type.Legible) : IsStem (.plain (.tuple elements))

theorem TypeExpr.marked_snoc (type : TypeExpr) (marks : List TypeMark) (mark : TypeMark) :
    type.marked (marks ++ [mark]) = mark.apply (type.marked marks) := by
  simp [marked]

/-- A legible type is its stem with marks behind it, and so is its text. -/
theorem TypeExpr.Legible.exists_stem (legible : type.Legible) :
    ∃ stem marks, IsStem stem ∧ type = stem.marked marks ∧ type.chars = stem.chars ++ marksChars marks := by
  have snoc {type : TypeExpr} {mark : TypeMark} (once : mark = .nullable → type.isNullable = false)
      (known : ∃ stem marks, IsStem stem ∧ type = stem.marked marks ∧ type.chars = stem.chars ++ marksChars marks) :
      ∃ stem marks, IsStem stem ∧ mark.apply type = stem.marked marks ∧
        (mark.apply type).chars = stem.chars ++ marksChars marks := by
    obtain ⟨stem, marks, isStem, same, text⟩ := known
    refine ⟨stem, marks ++ [mark], isStem, by rw [marked_snoc, same], ?_⟩
    rw [chars_apply once, text]
    simp [marksChars]
  induction legible with
  | normal word => exact ⟨_, [], .normal word, rfl, by simp [marksChars]⟩
  | @nullable shape plain ih => exact @snoc (.plain shape) .nullable (fun _ => rfl) ih
  | @array element inside ih => exact @snoc element .array (by simp) ih
  | generics word nonempty inside => exact ⟨_, [], .generics word nonempty inside, rfl, by simp [marksChars]⟩
  | tuple several labelled inside => exact ⟨_, [], .tuple several labelled inside, rfl, by simp [marksChars]⟩

/-- Where the text of the type is followed by marks, the text tells the type with these marks. -/
def TypeExpr.IsRecovered (type : TypeExpr) : Prop :=
  ∀ marks stem marks' rest rest', IsStem stem → Stops rest → Stops rest' →
    type.chars ++ (marksChars marks ++ rest) = stem.chars ++ (marksChars marks' ++ rest') →
    type.marked marks = stem.marked marks' ∧ rest = rest'

theorem TypeExpr.IsRecovered.isDelimited (recovered : type.IsRecovered) : type.IsDelimited := by
  intro other legible rest rest' stops stops' same
  obtain ⟨stem, marks, isStem, rfl, text⟩ := legible.exists_stem
  rw [text, List.append_assoc] at same
  exact recovered [] stem marks rest rest' isStem stops stops' same

/-- A mark of the type itself is the first one behind the rest of it. -/
theorem TypeExpr.IsRecovered.apply {type : TypeExpr} {mark : TypeMark} (recovered : type.IsRecovered)
    (once : mark = .nullable → type.isNullable = false) : (mark.apply type).IsRecovered := by
  intro marks stem marks' rest rest' isStem stops stops' same
  refine recovered (mark :: marks) stem marks' rest rest' isStem stops stops' ?_
  rw [chars_apply once] at same
  simpa [marksChars] using same

section Stems

variable {params : List TypeExpr}

theorem endsBefore_params (cs : List Char) : EndsBefore isLegibleChar ('<' :: cs) :=
  endsBefore_cons.2 (by decide)

/-- Behind a name that is a type there are no parameters. -/
theorem name_marks_ne_params (word : IsLegibleName name) (word' : IsLegibleName name')
    (stops : Stops rest) (marks : List TypeMark) (cs : List Char) :
    name.toList ++ (marksChars marks ++ rest) ≠ name'.toList ++ '<' :: cs := by
  intro same
  obtain ⟨-, tails⟩ := name_append_inj word word' (endsBefore_marksChars stops) (endsBefore_params cs) same
  have head := @head_marksChars marks rest stops '<' (by rw [tails]; rfl)
  exact absurd head (by decide)

theorem isRecovered_normal (word : IsLegibleName name) : (TypeExpr.normal name).IsRecovered := by
  intro marks stem marks' rest rest' isStem stops stops' same
  rw [TypeExpr.chars_normal] at same
  cases isStem with
  | normal word' =>
    rw [TypeExpr.chars_normal] at same
    obtain ⟨rfl, tails⟩ := name_append_inj word word' (endsBefore_marksChars stops) (endsBefore_marksChars stops') same
    obtain ⟨rfl, rests⟩ := marksChars_append_inj stops stops' tails
    exact ⟨rfl, rests⟩
  | generics word' nonempty inside =>
    rw [TypeExpr.chars_generics_append] at same
    exact absurd same (name_marks_ne_params word word' stops marks _)
  | tuple several labelled inside =>
    rw [TypeExpr.chars_tuple_append several] at same
    exact absurd same (name_append_ne word (by decide) _ _)

theorem isRecovered_generics (word : IsLegibleName name) (nonempty : params ≠ [])
    (delimited : ∀ param ∈ params, param.IsDelimited) :
    (TypeExpr.plain (.generics (.normal name) params)).IsRecovered := by
  intro marks stem marks' rest rest' isStem stops stops' same
  rw [TypeExpr.chars_generics_append] at same
  cases isStem with
  | normal word' =>
    rw [TypeExpr.chars_normal] at same
    exact absurd same.symm (name_marks_ne_params word' word stops' marks' _)
  | @generics name' params' word' nonempty' inside =>
    rw [TypeExpr.chars_generics_append] at same
    obtain ⟨rfl, lists⟩ := name_append_inj word word' (endsBefore_params _) (endsBefore_params _) same
    have unlabelled (params : List TypeExpr) : ∀ element ∈ params.map TupleElement.unnamed, element.IsLegiblyLabelled := by
      simp [TupleElement.IsLegiblyLabelled]
    obtain ⟨params_same, tails⟩ := elementsChars_append_inj (by decide) (by simpa using nonempty)
      (List.forall_mem_map.2 delimited) (unlabelled params) (by simpa using nonempty') (List.forall_mem_map.2 inside)
      (unlabelled params') (List.cons.inj lists).2
    obtain rfl := (List.map_inj_right fun _ _ => TupleElement.unnamed.inj).1 params_same
    obtain ⟨rfl, rests⟩ := marksChars_append_inj stops stops' tails
    exact ⟨rfl, rests⟩
  | tuple several labelled inside =>
    rw [TypeExpr.chars_tuple_append several] at same
    exact absurd same (name_append_ne word (by decide) _ _)

theorem isRecovered_tuple (several : 2 ≤ elements.length)
    (labelled : ∀ element ∈ elements, element.IsLegiblyLabelled)
    (delimited : ∀ element ∈ elements, element.type.IsDelimited) :
    (TypeExpr.plain (.tuple elements)).IsRecovered := by
  intro marks stem marks' rest rest' isStem stops stops' same
  have filled {elements : List TupleElement} (several : 2 ≤ elements.length) : elements ≠ [] := by
    rintro rfl
    cases several
  rw [TypeExpr.chars_tuple_append several] at same
  cases isStem with
  | normal word' =>
    rw [TypeExpr.chars_normal] at same
    exact absurd same.symm (name_append_ne word' (by decide) _ _)
  | generics word' nonempty' inside =>
    rw [TypeExpr.chars_generics_append] at same
    exact absurd same.symm (name_append_ne word' (by decide) _ _)
  | tuple several' labelled' inside =>
    rw [TypeExpr.chars_tuple_append several'] at same
    obtain ⟨rfl, tails⟩ := elementsChars_append_inj (by decide) (filled several) delimited labelled (filled several')
      inside labelled' (List.cons.inj same).2
    obtain ⟨rfl, rests⟩ := marksChars_append_inj stops stops' tails
    exact ⟨rfl, rests⟩

end Stems

/-- Every legible type is told by its text, whatever marks follow it. -/
theorem TypeExpr.Legible.isRecovered (legible : type.Legible) : type.IsRecovered := by
  induction legible with
  | normal word => exact isRecovered_normal word
  | @nullable shape plain ih => exact @IsRecovered.apply (.plain shape) .nullable ih fun _ => rfl
  | @array element inside ih => exact @IsRecovered.apply element .array ih (by simp)
  | generics word nonempty inside ih =>
    exact isRecovered_generics word nonempty fun param member => (ih param member).isDelimited
  | tuple several labelled inside ih =>
    exact isRecovered_tuple several labelled fun element member => (ih element member).isDelimited

/-- Types that are written the same are the same. -/
theorem render_injective {left right : TypeExpr} (legible : left.Legible) (legible' : right.Legible)
    (same : left.render .plain = right.render .plain) : left = right := by
  have chars : left.chars ++ [] = right.chars ++ [] := by rw [TypeExpr.chars, same, TypeExpr.chars]
  exact (legible.isRecovered.isDelimited right legible' [] [] stops_nil stops_nil chars).1

/-- Marks, a comma and a name inside the parameters of generics. -/
theorem render_injective_generics :
    ∃ left right : TypeExpr, left.Legible ∧ right.Legible ∧ left.render .plain = "Map<int?[]?, (A b, C)>" ∧
      right.render .plain = "Map<int?[]?, (A b, C)>" ∧ left = right := by
  have legible_word {name : String} (nonempty : name ≠ "") (word : name.toList.all isWordChar = true) :
      IsLegibleName name :=
    ⟨nonempty, fun c member => isLegibleChar_of_isWordChar (List.all_eq_true.1 word c member)⟩
  have array : TypeExpr.Legible (.mk (.array (.mk (.normal "int") [] true)) [] true) :=
    .nullable (.array (.nullable (.normal (legible_word (by decide) (by decide)))))
  have tuple : TypeExpr.Legible
      (.plain (.tuple [.named (.mk "b" (.normal "A") none), .unnamed (.normal "C")])) := by
    refine .tuple (by decide) ?_ ?_
    · simpa [TupleElement.IsLegiblyLabelled, Slot.name, Slot.passing] using legible_word (by decide) (by decide)
    · simp only [List.forall_mem_cons, List.not_mem_nil, false_imp_iff, implies_true, and_true]
      exact ⟨.normal (legible_word (by decide) (by decide)), .normal (legible_word (by decide) (by decide))⟩
  have legible : TypeExpr.Legible (.plain (.generics (.normal "Map")
      [.mk (.array (.mk (.normal "int") [] true)) [] true,
        .plain (.tuple [.named (.mk "b" (.normal "A") none), .unnamed (.normal "C")])])) := by
    refine .generics (legible_word (by decide) (by decide)) (by simp) ?_
    simp only [List.forall_mem_cons, List.not_mem_nil, false_imp_iff, implies_true, and_true]
    exact ⟨array, tuple⟩
  exact ⟨_, _, legible, legible, by decide, by decide, render_injective legible legible rfl⟩

end Sharp
