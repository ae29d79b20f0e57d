import Sharp.Proofs.ExpressionRounds
import Sharp.Proofs.TypeSpelling

/-!
# Marks behind type names

A type name can have any number of the marks `#` and `?` behind it, and names with marks can be the
elements of a tuple.  Each mark belongs to the name that it stands behind.

* `readWhole_markedNames`: several names with their marks, and the text of the tuple.
-/

namespace Sharp

open Token TypeExpr

/-! ## Marks -/

/-- A mark behind a type. -/
inductive TypeMark where
  | nullable
  | array
  deriving DecidableEq

variable {mark : TypeMark} {marks : List TypeMark} {t : Token} {rest : List Token}

namespace TypeMark

def operator : TypeMark → String
  | nullable => "?"
  | array => "#"

def text : TypeMark → String
  | nullable => "?"
  | array => "[]"

/-- The type with the mark behind it. -/
def apply (type : TypeExpr) : TypeMark → TypeExpr
  | nullable => type.withNullable true
  | array => .plain (.array type)

/-- Can the marks stand behind a type that is nullable, or is not?  A type is made nullable once, and
an array is a new type. -/
def Fits : Bool → List TypeMark → Prop
  | _, [] => True
  | isNullable, nullable :: marks => isNullable = false ∧ Fits true marks
  | _, array :: marks => Fits false marks

theorem fits_cons_iff {type : TypeExpr} : Fits type.isNullable (mark :: marks) ↔
      (mark = nullable → type.isNullable = false) ∧ Fits (mark.apply type).isNullable marks := by
  cases mark with
  | nullable =>
    have isNullable : (apply type nullable).isNullable = true := by cases type; rfl
    simp [Fits, isNullable]
  | array => simp [Fits, apply, TypeExpr.plain, TypeExpr.isNullable]

/-- What counts is that no two `?` follow each other, the one of the type itself included. -/
theorem fits_iff (isNullable : Bool) (marks : List TypeMark) : Fits isNullable marks ↔
      ¬ [nullable, nullable] <:+: (if isNullable then nullable :: marks else marks) := by
  induction marks generalizing isNullable with
  | nil =>
    have short : ¬ [nullable, nullable] <:+: [nullable] := by decide
    cases isNullable <;> simp [Fits, short]
  | cons mark marks ih =>
    cases mark with
    | nullable =>
      cases isNullable with
      | false => simp [Fits, ih]
      | true => simp [Fits, List.infix_cons_iff]
    | array =>
      have apart : ¬ [nullable, nullable] <+: array :: marks := by simp
      have behind : ¬ [nullable, nullable] <+: nullable :: array :: marks := by simp
      cases isNullable with
      | false => simp [Fits, ih, List.infix_cons_iff, apart]
      | true => simp [Fits, ih, List.infix_cons_iff, apart, behind]

theorem fits_false_iff : Fits false marks ↔ ¬ [nullable, nullable] <:+: marks := by
  simpa using fits_iff false marks

end TypeMark

/-- The type with all the marks behind it, the first one first. -/
def TypeExpr.marked (type : TypeExpr) (marks : List TypeMark) : TypeExpr :=
  marks.foldl TypeMark.apply type

theorem TypeExpr.render_apply {type : TypeExpr} (once : mark = .nullable → type.isNullable = false) :
    (mark.apply type).render .plain = type.render .plain ++ mark.text := by
  cases mark with
  | nullable =>
    obtain ⟨shape, qualifiers, isNullable⟩ := type
    obtain rfl : isNullable = false := once rfl
    simp [TypeMark.apply, withNullable, TypeExpr.render, TypeMark.text]
  | array =>
    simp [TypeMark.apply, TypeExpr.plain, TypeExpr.render, renderQualifiers, renderShape, TypeMark.text]

theorem TypeExpr.render_marked {type : TypeExpr} (fits : TypeMark.Fits type.isNullable marks) :
    (type.marked marks).render .plain = type.render .plain ++ String.join (marks.map TypeMark.text) := by
  induction marks generalizing type with
  | nil => simp [TypeExpr.marked]
  | cons mark marks ih =>
    obtain ⟨once, others⟩ := TypeMark.fits_cons_iff.1 fits
    have rest := ih others
    rw [render_apply once] at rest
    rw [List.map_cons, String.join_cons, ← String.append_assoc, ← rest]
    rfl

/-! ## Names with marks -/

/-- A type name with the marks behind it. -/
structure MarkedName where
  name : String
  marks : List TypeMark

namespace MarkedName

def type (marked : MarkedName) : TypeExpr := (TypeExpr.normal marked.name).marked marked.marks

def text (marked : MarkedName) : String :=
  marked.name ++ String.join (marked.marks.map TypeMark.text)

/-- No two `?` follow each other. -/
def IsLegal (marked : MarkedName) : Prop := ¬ [TypeMark.nullable, .nullable] <:+: marked.marks

instance (marked : MarkedName) : Decidable marked.IsLegal := inferInstanceAs (Decidable (¬ _))

theorem fits_of_isLegal {marked : MarkedName} (legal : marked.IsLegal) :
    TypeMark.Fits (TypeExpr.normal marked.name).isNullable marked.marks :=
  TypeMark.fits_false_iff.2 legal

theorem render_type {marked : MarkedName} (legal : marked.IsLegal) : marked.type.render .plain = marked.text := by
  have name : (TypeExpr.normal marked.name).render .plain = marked.name := by
    simp [TypeExpr.normal, TypeExpr.plain, TypeExpr.render, renderQualifiers, renderShape]
  rw [type, render_marked (fits_of_isLegal legal), name, text]

end MarkedName

/-- The token names a type.  The word `fn` never does: it starts the type of a function. -/
def Token.NamesType (t : Token) : Prop := t.isTypeName = true ∧ t.isKeyword "fn" = false

theorem Token.namesType_of_identifier (identifier : t.category = .identifier) : t.NamesType := by
  simp [NamesType, isTypeName, isNameLike, isKeyword, identifier]

theorem Token.namesType_of_builtinType (builtin : t.keywordRole? = some .builtinType) : t.NamesType :=
  ⟨by simp [isTypeName, builtin], isKeyword_fn_of_builtinType builtin⟩

/-- The tokens spell the name and the marks behind it. -/
def IsMarkedName (ts : List Token) (marked : MarkedName) : Prop :=
  ∃ name marks, ts = name :: marks ∧ name.NamesType ∧ name.text = marked.name ∧
    List.Forall₂ (fun t mark => t.isOp (TypeMark.operator mark) = true) marks marked.marks

/-! ## Reading them -/

theorem Token.NamesType.category_ne (isName : t.NamesType) : t.category ≠ .operator := by
  have isWord := isWord_of_isTypeName isName.1
  intro category
  simp [Token.isWord, category] at isWord

/-- What stands behind a name that is a term of its own. -/
def NameEnds (rest : List Token) : Prop :=
  ∀ t ∈ rest.head?, t.isOpIn ["?", "#", "~", "/", ","] = true

theorem Token.isOpIn_of_isOp {text : String} {texts : List String} (is : t.isOp text = true)
    (known : text ∈ texts) : t.isOpIn texts = true := by
  rw [isOp_iff] at is
  rw [isOpIn_iff]
  exact ⟨is.1, is.2 ▸ known⟩

theorem NameEnds.of_isOp {text : String} (is : t.isOp text = true)
    (known : text ∈ ["?", "#", "~", "/", ","]) (rest : List Token) : NameEnds (t :: rest) := by
  rintro _ ⟨⟩
  exact isOpIn_of_isOp is known

theorem NameEnds.isOp_eq_false (ends : NameEnds (t :: rest)) (text : String)
    (other : text ∉ ["?", "#", "~", "/", ","]) : t.isOp text = false := by
  have known := ends t rfl
  rw [isOpIn_iff] at known
  refine Bool.eq_false_iff.2 fun is => other ?_
  rw [isOp_iff] at is
  exact is.2 ▸ known.2

theorem NameEnds.of_marks {ts : List Token} (ends : NameEnds rest)
    (spelled : List.Forall₂ (fun t mark => t.isOp (TypeMark.operator mark) = true) ts marks) :
    NameEnds (ts ++ rest) := by
  cases spelled with
  | nil => exact ends
  | @cons t mark ts marks is tail => exact .of_isOp is (by cases mark <;> decide) (ts ++ rest)

theorem dottedName?_of_nameEnds (ends : NameEnds rest) : dottedName? (t :: rest) = none := by
  cases rest with
  | nil => rfl
  | cons next rest =>
    have no_dot := ends.isOp_eq_false "." (by decide)
    cases rest <;> simp [dottedName?, dottedTail?, no_dot]

section Terms

variable {n : Nat} {opts : TypeOptions} {first t : Token} {progress : TypeProgress} {type : TypeExpr}
  {ts rest : List Token} {result : Parsed TypeExpr}

/-- A mark changes the term that was added last, whether it is the only one or an element. -/
theorem TypeProgress.mark_addTerm (t : Token) (apply : TypeExpr → Reading TypeExpr) (type : TypeExpr)
    (progress : TypeProgress) :
    (progress.addTerm type).mark t apply = progress.addTerm <$> apply type := by
  cases progress <;> rfl

theorem readTerm_operator {reader : TypeReader} {state : TypeState} {text : String} (is : t.isOp text = true)
    (no_opener : text ≠ "(") : readTerm reader opts state t rest = readTypeOperator opts state t rest := by
  have other : t.isOp "(" = false := by simpa [isOp_of_isOp is] using no_opener
  rw [isOp_iff] at is
  simp [readTerm, other, is.1]

theorem Token.text_of_isOp {text : String} (is : t.isOp text = true) : t.text = text := by
  rw [isOp_iff] at is
  exact is.2

theorem gives_readTerms_mark (is : t.isOp mark.operator = true) :
    Reading.Gives (readTerms n opts { first, progress := progress.addTerm type } (t :: rest)) result ↔
      (mark = .nullable → type.isNullable = false) ∧
        Reading.Gives (readTerms n opts { first, progress := progress.addTerm (mark.apply type) } rest) result := by
  have round := @readTerm_operator opts t rest (typeReader n) { first, progress := progress.addTerm type } _ is
    (by cases mark <;> decide)
  cases mark with
  | array =>
    have next : (readTerm (typeReader n) opts { first, progress := progress.addTerm type } t rest).Gives
        (.next { first, progress := progress.addTerm (.plain (.array type)) } rest) := by
      rw [round, readTypeOperator, text_of_isOp is]
      simp only [TypeMark.operator, TypeProgress.mark_addTerm]
      exact ⟨_, rfl⟩
    rw [readTerms, gives_walk_next next Nat.le.refl]
    simp [TypeMark.apply, readTerms]
  | nullable =>
    cases isNullable : type.isNullable with
    | true =>
      have fails : (readTerm (typeReader n) opts { first, progress := progress.addTerm type } t rest).Fails := by
        rw [round, readTypeOperator, text_of_isOp is]
        simp only [TypeMark.operator, TypeProgress.mark_addTerm, markNullable, isNullable, if_true]
        exact ⟨_, rfl⟩
      rw [readTerms]
      simpa using not_gives_walk fails result
    | false =>
      have next : (readTerm (typeReader n) opts { first, progress := progress.addTerm type } t rest).Gives
          (.next { first, progress := progress.addTerm (type.withNullable true) } rest) := by
        rw [round, readTypeOperator, text_of_isOp is]
        simp only [TypeMark.operator, TypeProgress.mark_addTerm, markNullable, isNullable, Bool.false_eq_true,
          if_false]
        exact ⟨_, rfl⟩
      rw [readTerms, gives_walk_next next Nat.le.refl]
      simp [TypeMark.apply, readTerms]

theorem gives_readTerms_marks {marks : List TypeMark}
    (spelled : List.Forall₂ (fun t mark => t.isOp (TypeMark.operator mark) = true) ts marks) :
    Reading.Gives (readTerms n opts { first, progress := progress.addTerm type } (ts ++ rest)) result ↔
      TypeMark.Fits type.isNullable marks ∧
        Reading.Gives (readTerms n opts { first, progress := progress.addTerm (type.marked marks) } rest) result := by
  induction spelled generalizing type with
  | nil => simp [TypeMark.Fits, TypeExpr.marked]
  | cons is tail ih =>
    rw [List.cons_append, gives_readTerms_mark is, ih, TypeMark.fits_cons_iff, and_assoc]
    rfl

theorem readTerm_plainName {reader : TypeReader} {state : TypeState} (isName : t.NamesType) (ends : NameEnds rest)
    (starts : state.progress.canStart = true) :
    (readTerm reader opts state t rest).Gives (.next (state.addTerm (.normal t.text)) rest) := by
  have plain : (readPlainName state t rest).Gives (.next (state.addTerm (.normal t.text)) rest) := by
    obtain ⟨notes, noted⟩ := noteTypeName_done t
    simp only [readPlainName, starts, Bool.not_true, Bool.false_eq_true, if_false]
    exact .bind ⟨notes, noted⟩ (.pure _)
  have no_opener : t.isOp "(" = false := by simp [isOp, isName.category_ne]
  simp only [readTerm, no_opener, isName.category_ne, isName.1, isName.2, Bool.false_eq_true, if_false, if_true]
  cases rest with
  | nil => exact plain
  | cons next rest =>
    have no_dash := ends.isOp_eq_false "-" (by decide)
    have no_colon := ends.isOp_eq_false ":" (by decide)
    have no_accessor : Accessor.ofToken? next = none := by
      simp [Accessor.ofToken?, ends.isOp_eq_false "." (by decide),
        ends.isOp_eq_false "?." (by decide), ends.isOp_eq_false "!." (by decide)]
    simp only [readNameTerm, no_dash, no_accessor, no_colon, Bool.false_and, Bool.false_eq_true, if_false]
    exact plain

/-- A name with its marks, wherever a term may start: its marks have to fit, and it is one term. -/
theorem gives_readTerms_markedName {marked : MarkedName} (spelled : IsMarkedName ts marked)
    (ends : NameEnds rest) (starts : progress.canStart = true) :
    Reading.Gives (readTerms n opts { first, progress } (ts ++ rest)) result ↔ marked.IsLegal ∧
        Reading.Gives (readTerms n opts { first, progress := progress.addTerm marked.type } rest) result := by
  obtain ⟨name, marks, rfl, isName, text, operators⟩ := spelled
  have following := ends.of_marks operators
  have next := @readTerm_plainName opts name (marks ++ rest) (typeReader n) { first, progress } isName following starts
  rw [List.cons_append, readTerms, gives_walk_next next Nat.le.refl, text]
  have reached := @gives_readTerms_marks n opts first progress (.normal marked.name) marks rest result _ operators
  rw [readTerms] at reached
  refine reached.trans ?_
  rw [MarkedName.IsLegal, ← TypeMark.fits_false_iff]
  rfl

/-- A type with nothing, a comma or a `/` behind it. -/
def TypeEnds (rest : List Token) : Prop := ∀ t ∈ rest.head?, t.isOpIn ["/", ","] = true

theorem TypeEnds.nil : TypeEnds [] := by
  simp [TypeEnds]

theorem TypeEnds.cons {text : String} (is : t.isOp text = true) (known : text ∈ ["/", ","]) (rest : List Token) :
    TypeEnds (t :: rest) := by
  rintro _ ⟨⟩
  exact isOpIn_of_isOp is known

theorem TypeEnds.nameEnds (ends : TypeEnds rest) : NameEnds rest := by
  intro t head
  have known := ends t head
  rw [isOpIn_iff] at known ⊢
  exact ⟨known.1, (by decide : ∀ text ∈ ["/", ","], text ∈ ["?", "#", "~", "/", ","]) _ known.2⟩

theorem gives_readTerms_ends (ends : TypeEnds rest) :
    (readTerms n opts { first, progress := .single type } rest).Gives ⟨type, rest⟩ := by
  cases rest with
  | nil =>
    rw [readTerms, walk_nil]
    exact .bind (.pure type) (.pure _)
  | cons t rest =>
    have known := ends t rfl
    simp only [isOpIn_iff, List.mem_cons, List.not_mem_nil, or_false] at known
    obtain ⟨category, text | text⟩ := known
    all_goals
      rw [readTerms, walk_cons, @readTerm_operator opts t rest _ _ t.text (by simp [isOp, category])
        (by simp [text]), readTypeOperator, text]
      exact .bind (.bind (.pure type) (.pure _)) (.pure _)

theorem readFrom_markedName {marked : MarkedName} (spelled : IsMarkedName (t :: ts) marked)
    (legal : marked.IsLegal) (ends : TypeEnds rest) :
    (TypeExpr.reader.readFrom opts t (ts ++ rest)).Gives ⟨marked.type, rest⟩ := by
  have terms := @gives_readTerms_markedName (ts ++ rest).length opts t .start (t :: ts) rest ⟨marked.type, rest⟩ marked
    spelled ends.nameEnds rfl
  obtain ⟨_, _, ⟨⟩, -, -, operators⟩ := spelled
  show (readTypeWith (typeReader (ts ++ rest).length) opts t (ts ++ rest)).Gives _
  rw [readTypeWith, dottedName?_of_nameEnds (ends.nameEnds.of_marks operators)]
  exact terms.2 ⟨legal, gives_readTerms_ends ends⟩

end Terms

/-! ## Tuples of them -/

/-- The type of terms with `~` between them: one term is that term, several ones are a tuple. -/
def flatTuple : List TypeExpr → TypeExpr
  | [type] => type
  | types => .plain (.tuple (types.map .unnamed))

/-- The C# text of terms with `~` between them. -/
def flatTupleText : List String → String
  | [text] => text
  | texts => "(" ++ ", ".intercalate texts ++ ")"

theorem commaSeparated_eq_intercalate (texts : List String) : commaSeparated texts = ", ".intercalate texts := by
  fun_induction commaSeparated texts with
  | case1 => rfl
  | case2 text => simp
  | case3 text texts several ih =>
    obtain ⟨next, others, rfl⟩ := List.exists_cons_of_ne_nil (fun none => several none)
    rw [ih, String.intercalate_cons_cons]

theorem render_flatTuple {types : List TypeExpr} (nonempty : types ≠ []) :
    (flatTuple types).render .plain = flatTupleText (types.map (TypeExpr.render .plain)) := by
  have elementTypes (types : List TypeExpr) : renderElementTypes (types.map .unnamed) =
      types.map (TypeExpr.render .plain) := by
    induction types with
    | nil => simp [renderElementTypes]
    | cons type types ih => simp [renderElementTypes, ih]
  have elements (types : List TypeExpr) : renderElements (types.map .unnamed) =
      types.map (TypeExpr.render .plain) := by
    induction types with
    | nil => simp [renderElements]
    | cons type types ih => simp [renderElements, ih]
  obtain ⟨type, types, rfl⟩ := List.exists_cons_of_ne_nil nonempty
  cases types with
  | nil => rfl
  | cons next types =>
    have tuple : renderShape .plain (.tuple ((type :: next :: types).map .unnamed)) =
        "(" ++ commaSeparated ((type :: next :: types).map (TypeExpr.render .plain)) ++ ")" := by
      rw [renderShape, elementTypes, elements]
      rfl
    have several : flatTuple (type :: next :: types) = .plain (.tuple ((type :: next :: types).map .unnamed)) := rfl
    rw [several, TypeExpr.plain, TypeExpr.render, tuple, commaSeparated_eq_intercalate]
    simp [renderQualifiers, flatTupleText]

section Tuples

variable {n : Nat} {opts : TypeOptions} {first before : Token} {ts : List Token} {names : List MarkedName}

theorem gives_readTerms_connector (joins : opts.endsAtConnector = false) (is : t.isOp "~" = true)
    {progress progress' : TypeProgress} (connects : progress.connect t = .done progress' []) (rest : List Token)
    (result : Parsed TypeExpr) :
    Reading.Gives (readTerms n opts { first, progress } (t :: rest)) result ↔
      Reading.Gives (readTerms n opts { first, progress := progress' } rest) result := by
  have next : (readTerm (typeReader n) opts { first, progress } t rest).Gives
      (.next { first, progress := progress' } rest) := by
    rw [readTerm_operator is (by decide), readTypeOperator, text_of_isOp is]
    simp only [joins, Bool.false_eq_true, if_false, connects]
    exact ⟨_, rfl⟩
  exact gives_walk_next next Nat.le.refl result

theorem gives_readTerms_elements (joins : opts.endsAtConnector = false)
    (spelled : Separated "~" IsMarkedName ts names) (front : List TupleElement) (last : TupleElement)
    (connector : Token) (result : Parsed TypeExpr) :
    Reading.Gives (readTerms n opts { first, progress := .tuple front last (some connector) } ts) result ↔
      (∀ name ∈ names, name.IsLegal) ∧
        result = ⟨.plain (.tuple (front ++ last :: names.map fun name => .unnamed name.type)), []⟩ := by
  induction spelled generalizing front last connector with
  | @single ts name spelled =>
    have reached := @gives_readTerms_markedName n opts first (.tuple front last (some connector)) ts [] result name
      spelled (by simp [NameEnds]) rfl
    rw [List.append_nil] at reached
    rw [reached, readTerms, walk_nil]
    simp only [List.mem_singleton, forall_eq, List.map_singleton]
    refine and_congr_right fun _ => ?_
    have ended : ({ first, progress := (TypeProgress.tuple front last (some connector)).addTerm name.type } :
        TypeState).finish >>= (fun type => pure ⟨type, []⟩) =
          (pure ⟨.plain (.tuple (front ++ [last, .unnamed name.type])), []⟩ : Reading (Parsed TypeExpr)) := by
      simp [TypeState.finish, TypeProgress.addTerm, TypeProgress.finish]
      rfl
    rw [ended]
    exact ⟨fun gives => gives.unique (.pure _), fun same => same ▸ .pure _⟩
  | @cons ts more t name names spelled separates _ ih =>
    rw [gives_readTerms_markedName spelled (.of_isOp separates (by decide) more) rfl,
      gives_readTerms_connector joins separates rfl, ih]
    simp [and_assoc]

/-- A whole type that is no dotted name is read term by term. -/
theorem gives_readWhole_iff (undotted : dottedName? (t :: rest) = none) (type : TypeExpr) :
    (readWhole before (t :: rest)).Gives type ↔
      (readTerms rest.length .declaration { first := t } (t :: rest)).Gives ⟨type, []⟩ := by
  have read : TypeExpr.read .declaration (.missing before .type) (t :: rest) =
      readTerms rest.length .declaration { first := t } (t :: rest) := by
    show readTypeWith (typeReader rest.length) .declaration t rest = _
    rw [readTypeWith, undotted, readTerms]
  rw [readWhole, read]
  constructor
  · intro gives
    obtain ⟨⟨value, left⟩, terms, last⟩ := gives.of_bind
    cases left with
    | nil =>
      obtain rfl := last.unique (.pure _)
      exact terms
    | cons extra left =>
      obtain ⟨notes, failed⟩ := last
      cases failed
  · intro terms
    exact .bind terms (.pure _)

theorem IsMarkedName.exists_cons {marked : MarkedName} (spelled : IsMarkedName ts marked)
    (ends : NameEnds rest) : ∃ t more, ts ++ rest = t :: more ∧ dottedName? (t :: more) = none := by
  obtain ⟨name, marks, rfl, -, -, operators⟩ := spelled
  exact ⟨name, marks ++ rest, rfl, dottedName?_of_nameEnds (ends.of_marks operators)⟩

/-- Names with their marks and `~` between them are read exactly if no two `?` follow each other. -/
theorem gives_readWhole_markedNames (spelled : Separated "~" IsMarkedName ts names) (type : TypeExpr) :
    (readWhole before ts).Gives type ↔
      (∀ name ∈ names, name.IsLegal) ∧ type = flatTuple (names.map MarkedName.type) := by
  cases spelled with
  | @single ts name spelled =>
    have ends : NameEnds [] := by simp [NameEnds]
    obtain ⟨t, more, same, undotted⟩ := spelled.exists_cons ends
    have terms := @gives_readTerms_markedName more.length .declaration t .start ts [] ⟨type, []⟩ name spelled ends rfl
    rw [List.append_nil] at same terms
    subst same
    rw [gives_readWhole_iff undotted, terms, readTerms, walk_nil]
    simp only [List.mem_singleton, forall_eq, List.map_singleton, flatTuple]
    refine and_congr_right fun _ => ?_
    constructor
    · intro gives
      exact congrArg Parsed.value (gives.unique (.bind (.pure name.type) (.pure (Parsed.mk name.type []))))
    · rintro rfl
      exact .bind (.pure name.type) (.pure _)
  | @cons ts more t name names spelled separates others =>
    have ends : NameEnds (t :: more) := .of_isOp separates (by decide) more
    obtain ⟨first, following, same, undotted⟩ := spelled.exists_cons ends
    have terms := @gives_readTerms_markedName following.length .declaration first .start ts (t :: more) ⟨type, []⟩ name
      spelled ends rfl
    rw [same] at terms ⊢
    rw [gives_readWhole_iff undotted, terms, gives_readTerms_connector rfl separates rfl,
      gives_readTerms_elements rfl others]
    obtain ⟨next, rest, rfl⟩ := List.exists_cons_of_ne_nil others.values_ne_nil
    simp [flatTuple, and_assoc, Function.comp_def]

/-- Names with their marks and `~` between them are a type exactly if no two `?` follow each other behind
a name.  The type is written mark by mark, and in parentheses if there are several names. -/
theorem readWhole_markedNames (spelled : Separated "~" IsMarkedName ts names) (before : Token) :
    ((∃ type, (TypeExpr.readWhole before ts).Gives type) ↔
        ∀ name ∈ names, ¬ [TypeMark.nullable, .nullable] <:+: name.marks) ∧
      ∀ type, (TypeExpr.readWhole before ts).Gives type →
        type.render .plain = flatTupleText (names.map MarkedName.text) := by
  constructor
  · constructor
    · rintro ⟨type, gives⟩
      exact ((gives_readWhole_markedNames spelled type).1 gives).1
    · intro legal
      exact ⟨_, (gives_readWhole_markedNames spelled _).2 ⟨legal, rfl⟩⟩
  · intro type gives
    obtain ⟨legal, rfl⟩ := (gives_readWhole_markedNames spelled type).1 gives
    rw [render_flatTuple (by simpa using spelled.values_ne_nil), List.map_map]
    exact congrArg flatTupleText (List.map_congr_left fun name member => MarkedName.render_type (legal name member))

/-- Marks of both kinds behind a name, in both orders; and two `?` behind one name, with a space between. -/
theorem readWhole_markedNames_orders : (∃ tokens before type, tokenize "int?#~A#?" = .ok tokens ∧
      Separated "~" IsMarkedName tokens [⟨"int", [.nullable, .array]⟩, ⟨"A", [.array, .nullable]⟩] ∧
      (TypeExpr.readWhole before tokens).Gives type ∧ type.render .plain = "(int?[], A[]?)") ∧
    ∃ tokens before, tokenize "int? ?" = .ok tokens ∧
      Separated "~" IsMarkedName (significant tokens) [⟨"int", [.nullable, .nullable]⟩] ∧
      ¬ ∃ type, (TypeExpr.readWhole before (significant tokens)).Gives type := by
  let int : Token := ⟨0, "int", 0, 3, .keyword, some (.keyword .builtinType)⟩
  let first : Token := ⟨1, "?", 3, 4, .operator, none⟩
  have builtin : int.NamesType := Token.namesType_of_builtinType (by decide +zetaReduce)
  constructor
  · let second : Token := ⟨2, "#", 4, 5, .operator, none⟩
    let connector : Token := ⟨3, "~", 5, 6, .operator, none⟩
    let name : Token := ⟨4, "A", 6, 7, .identifier, none⟩
    let third : Token := ⟨5, "#", 7, 8, .operator, none⟩
    let fourth : Token := ⟨6, "?", 8, 9, .operator, none⟩
    have read : tokenize "int?#~A#?" = .ok [int, first, second, connector, name, third, fourth] := by
      decide +kernel +zetaReduce
    have left : IsMarkedName [int, first, second] ⟨"int", [.nullable, .array]⟩ :=
      ⟨int, [first, second], rfl, builtin, rfl, .cons rfl (.cons rfl .nil)⟩
    have right : IsMarkedName [name, third, fourth] ⟨"A", [.array, .nullable]⟩ :=
      ⟨name, [third, fourth], rfl, Token.namesType_of_identifier rfl, rfl, .cons rfl (.cons rfl .nil)⟩
    have spelled : Separated "~" IsMarkedName ([int, first, second] ++ connector :: [name, third, fourth])
        [⟨"int", [.nullable, .array]⟩, ⟨"A", [.array, .nullable]⟩] := .cons left rfl (.single right)
    obtain ⟨accepted, written⟩ := readWhole_markedNames spelled int
    obtain ⟨type, gives⟩ := accepted.2 (by decide)
    exact ⟨_, int, type, read, spelled, gives, (written type gives).trans (by decide)⟩
  · let space : Token := ⟨2, " ", 4, 5, .space, some (.blank .space)⟩
    let second : Token := ⟨3, "?", 5, 6, .operator, none⟩
    have read : tokenize "int? ?" = .ok [int, first, space, second] := by decide +kernel +zetaReduce
    have spelled : Separated "~" IsMarkedName [int, first, second] [⟨"int", [.nullable, .nullable]⟩] :=
      .single ⟨int, [first, second], rfl, builtin, rfl, .cons rfl (.cons rfl .nil)⟩
    refine ⟨_, int, read, spelled, fun accepted => ?_⟩
    exact absurd ((readWhole_markedNames spelled int).1.1 accepted) (by decide)

end Tuples

end Sharp
