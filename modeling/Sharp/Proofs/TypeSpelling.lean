import Sharp.Proofs.Brackets
import Sharp.TypeExpr.Reader

/-!
# Reading the spelling of a type

Every type has a spelling in which each of its parts stands in parentheses.  Reading the spelling
gives the type back, however deep it is.

* `parse_spell`: what is spelled is read.
-/

namespace Sharp

open Token

variable {n m : Nat} {t colon first : Token} {rest ts : List Token} {more : List String}
  {opts : TypeOptions} {reader : TypeReader} {arg slot : Slot} {args : List Slot}
  {text word mark : String}

/-! ## Spellings -/

def enclosed (words : List String) : List String := "(" :: words ++ [")"]

theorem enclosed_append (words more : List String) : enclosed words ++ more = "(" :: (words ++ ")" :: more) := by
  simp [enclosed]

mutual

def TypeExpr.spell : TypeExpr → List String
  | .mk shape _ isNullable => if isNullable then enclosed shape.spell ++ ["?"] else shape.spell

def Shape.spell : Shape → List String
  | .normal name => [name]
  | .array element => enclosed element.spell ++ ["#"]
  | .function args returned =>
    "fn" :: ":" :: (if args.isEmpty then ["_"] else [","].intercalate (spellArgs args)) ++
      "=>" :: enclosed returned.spell
  | .generics head params => head.spell ++ "-" :: ["/"].intercalate (spellParams params)
  | .tuple elements => ["~"].intercalate (spellElements elements)

def spellArgs : List Slot → List (List String)
  | [] => []
  | .mk _ type _ :: args => enclosed type.spell :: spellArgs args

def spellParams : List TypeExpr → List (List String)
  | [] => []
  | param :: params => enclosed (enclosed param.spell) :: spellParams params

def spellElements : List TupleElement → List (List String)
  | [] => []
  | .unnamed type :: elements => enclosed type.spell :: spellElements elements
  | .named (.mk name type _) :: elements =>
    (name :: ":" :: enclosed type.spell) :: spellElements elements

end

section Intercalate

variable {α : Type} (separator : String) (spell : α → List String) (a : α)

theorem intercalate_map_singleton : [separator].intercalate ([a].map spell) = spell a := by
  simp

theorem intercalate_map_cons_cons (b : α) (others : List α) :
    [separator].intercalate ((a :: b :: others).map spell) =
      spell a ++ separator :: [separator].intercalate ((b :: others).map spell) := by
  simp [List.intercalate_cons_cons]

theorem exists_intercalate_map_cons (others : List α) :
    ∃ more, [separator].intercalate ((a :: others).map spell) = spell a ++ more := by
  cases others with
  | nil => exact ⟨[], by rw [intercalate_map_singleton, List.append_nil]⟩
  | cons b others => exact ⟨_, intercalate_map_cons_cons separator spell a b others⟩

end Intercalate

theorem spellArgs_eq_map (args : List Slot) : spellArgs args = args.map fun arg => enclosed arg.type.spell := by
  induction args with
  | nil => rw [spellArgs, List.map_nil]
  | cons arg args ih =>
    cases arg
    rw [spellArgs, List.map_cons, ih]
    rfl

theorem spellParams_eq_map (params : List TypeExpr) :
    spellParams params = params.map fun param => enclosed (enclosed param.spell) := by
  induction params with
  | nil => rw [spellParams, List.map_nil]
  | cons param params ih => rw [spellParams, List.map_cons, ih]

def TupleElement.spell : TupleElement → List String
  | .unnamed type => enclosed type.spell
  | .named slot => slot.name :: ":" :: enclosed slot.type.spell

theorem spellElements_eq_map (elements : List TupleElement) :
    spellElements elements = elements.map TupleElement.spell := by
  induction elements with
  | nil => rw [spellElements, List.map_nil]
  | cons element elements ih =>
    cases element with
    | unnamed type => rw [spellElements, List.map_cons, ih, TupleElement.spell]
    | named slot =>
      cases slot
      rw [spellElements, List.map_cons, ih]
      rfl

/-- Is the word a name that is reserved nowhere? -/
def isIdentifier (word : String) : Bool :=
  isWordSpelling word.toList && keywordRole? word == none && contextKeywordRole? word == none

/-- Is the word an identifier or the keyword of a built-in type? -/
def isTypeWord (word : String) : Bool :=
  isIdentifier word || isWordSpelling word.toList && keywordRole? word == some (.keyword .builtinType)

/-- The slot is an argument that is passed by value and has no name. -/
def Slot.IsBare (slot : Slot) : Prop := slot.name = "" ∧ slot.passing = none

/-- If the element has a name, it is an identifier that is no discard. -/
def TupleElement.IsLabelled : TupleElement → Prop
  | .unnamed _ => True
  | .named slot => isIdentifier slot.name = true ∧ slot.name ≠ "_" ∧ slot.passing = none

/-- The types that have a spelling. -/
inductive TypeExpr.Canonical : TypeExpr → Prop where
  | normal {name : String} (word : isTypeWord name = true) : Canonical (.normal name)
  | nullable {shape : Shape} (plain : Canonical (.plain shape)) : Canonical (.mk shape [] true)
  | array {element : TypeExpr} (inside : Canonical element) : Canonical (.plain (.array element))
  | function {args : List Slot} {returned : TypeExpr} (bare : ∀ arg ∈ args, arg.IsBare)
      (inside : ∀ arg ∈ args, Canonical arg.type) (result : Canonical returned) :
      Canonical (.plain (.function args returned))
  | generics {name : String} {params : List TypeExpr} (word : isTypeWord name = true)
      (nonempty : params ≠ []) (inside : ∀ param ∈ params, Canonical param) :
      Canonical (.plain (.generics (.normal name) params))
  | tuple {elements : List TupleElement} (several : 2 ≤ elements.length ∨ ∃ slot, elements = [.named slot])
      (labelled : ∀ element ∈ elements, element.IsLabelled)
      (inside : ∀ element ∈ elements, Canonical element.type) :
      Canonical (.plain (.tuple elements))

/-! ## Values without logs -/

section Values

variable {ω : Type} [Log ω] {σ α β : Type}

theorem Logged.toExcept_bind_of {x : Logged ω α} {a : α} (given : x.toExcept = .ok a)
    (f : α → Logged ω β) : (x >>= f).toExcept = (f a).toExcept := by
  cases x with
  | fail fault => cases given
  | done b u =>
    cases given
    rw [done_bind]
    cases f a with
    | fail fault => rfl
    | done c v => rfl

@[simp] theorem toExcept_note_bind (t : Token) (role : Role) (f : Unit → Reading β) :
    (note t role >>= f).toExcept = (f ()).toExcept :=
  Logged.toExcept_bind_of rfl f

@[simp] theorem toExcept_noteTypeName_bind (t : Token) (f : Unit → Reading β) :
    (noteTypeName t >>= f).toExcept = (f ()).toExcept := by
  refine Logged.toExcept_bind_of ?_ f
  unfold noteTypeName
  split
  · rfl
  · split <;> rfl

variable {round : σ → Token → List Token → Logged ω (Step σ α)} {finish : σ → Logged ω α}
  {state after : σ} {more : List Token}

/-- A walk goes on where its first round says. -/
theorem toExcept_walk_next (goes_on : (round state t more).toExcept = .ok (.next after rest))
    (shorter : rest.length ≤ more.length) :
    (walk round finish state (t :: more)).toExcept = (walk round finish after rest).toExcept := by
  have fewer : rest.length < (t :: more).length := Nat.lt_succ_of_le shorter
  rw [walk_cons, Logged.toExcept_bind_of goes_on]
  exact congrArg Logged.toExcept (if_pos fewer)

theorem toExcept_walk_stop {value : α} (stops : (round state t more).toExcept = .ok (.stop value)) :
    (walk round finish state (t :: more)).toExcept = .ok value := by
  rw [walk_cons, Logged.toExcept_bind_of stops]
  rfl

end Values

/-! ## Words that denote types -/

/-- Tokens of the words are read as the type, whatever the types of its parts end at. -/
structure Denotes (words : List String) (type : TypeExpr) : Prop where
  nonempty : words ≠ []
  paired : Paired words
  unqualified : type.qualifiers = []
  read {ts : List Token} (spells : Spells ts words) {n : Nat} (enough : ts.length ≤ n) (parts : Bool)
    (missing : Fault) : ((typeReader n).read ⟨false, parts, false⟩ missing ts).toExcept = .ok ⟨type, []⟩

/-- Reads the terms of a type from the given state on. -/
def readTerms (n : Nat) (opts : TypeOptions) (state : TypeState) (ts : List Token) : Reading (Parsed TypeExpr) :=
  walk (readTerm (typeReader n) opts) (fun state => do
      let type ← state.finish
      return ⟨type, []⟩)
    state ts

/-- A reader reads the terms of the tokens that are few enough for it. -/
theorem typeReader_read_cons (enough : (t :: rest).length ≤ n) (opts : TypeOptions) (missing : Fault)
    (undotted : dottedName? (t :: rest) = none) :
    (typeReader n).read opts missing (t :: rest) = readTerms rest.length opts { first := t } (t :: rest) := by
  have shorter : rest.length < n := enough
  change (typeReader n).readFrom opts t rest = _
  rw [typeReader_readFrom shorter]
  change readTypeWith (typeReader rest.length) opts t rest = _
  rw [readTypeWith, undotted, readTerms]

theorem dottedName?_of_isOp (is : t.isOp text = true) (rest : List Token) : dottedName? (t :: rest) = none := by
  have category : t.category = .operator := by
    rw [isOp_iff] at is
    exact is.1
  have no_name : t.isTypeName = false := by
    simp [isTypeName, isNameLike, Token.keywordRole?, vocabularyRole?, category]
  cases rest with
  | nil => rfl
  | cons dot rest => simp [dottedName?, no_name]

theorem dottedName?_of_ne (is : t.Spells word) (other : word ≠ ".") (name : Token) (rest : List Token) :
    dottedName? (name :: t :: rest) = none := by
  have no_dot : t.isOp "." = false := is.isOp_of_ne other
  cases rest <;> simp [dottedName?, dottedTail?, no_dot]

section Names

variable {name : String}

theorem isWordSpelling_of_isIdentifier (identifier : isIdentifier name = true) :
    isWordSpelling name.toList = true := by
  simp only [isIdentifier, Bool.and_eq_true] at identifier
  exact identifier.1.1

theorem isWordSpelling_of_isTypeWord (word : isTypeWord name = true) : isWordSpelling name.toList = true := by
  simp only [isTypeWord, Bool.or_eq_true, Bool.and_eq_true] at word
  rcases word with identifier | builtin
  · exact isWordSpelling_of_isIdentifier identifier
  · exact builtin.1

theorem Token.Spells.category_of_isIdentifier (is : t.Spells name) (identifier : isIdentifier name = true) :
    t.category = .identifier := by
  have spelled := isWordSpelling_of_isIdentifier identifier
  simp only [isIdentifier, Bool.and_eq_true, beq_iff_eq] at identifier
  rw [is.category, lexemeOf_word spelled, wordLexeme, String.ofList_toList, identifier.1.2, identifier.2]
  rfl

theorem Token.Spells.category_of_builtinType (is : t.Spells name) (spelled : isWordSpelling name.toList = true)
    (builtin : Sharp.keywordRole? name = some (.keyword .builtinType)) : t.category = .keyword := by
  rw [is.category, lexemeOf_word spelled, wordLexeme, String.ofList_toList, builtin]
  rfl

theorem readTerm_of_isTypeWord (is : t.Spells name) (word : isTypeWord name = true) (reader : TypeReader)
    (opts : TypeOptions) (state : TypeState) (rest : List Token) :
    readTerm reader opts state t rest = readNameTerm reader opts state t rest := by
  simp only [isTypeWord, Bool.or_eq_true, Bool.and_eq_true, beq_iff_eq] at word
  rcases word with identifier | ⟨spelled, builtin⟩
  · have category := is.category_of_isIdentifier identifier
    simp [readTerm, isOp, isKeyword, isTypeName, isNameLike, category]
  · have category := is.category_of_builtinType spelled builtin
    have not_fn : name ≠ "fn" := by
      rintro rfl
      exact absurd builtin (by decide)
    simp [readTerm, isOp, isKeyword, isTypeName, isNameLike, category, is.text, not_fn,
      Token.keywordRole?, vocabularyRole?, builtin]

end Names

theorem readTerm_of_mem_spacedOperators (is : t.Spells word) (member : word ∈ spacedOperators)
    (no_opener : word ≠ "(") (reader : TypeReader)
    (opts : TypeOptions) (state : TypeState) (rest : List Token) :
    readTerm reader opts state t rest = readTypeOperator opts state t rest := by
  have category : t.category = .operator := by rw [is.category, lexemeOf_operator member]; rfl
  simp [readTerm, is.isOp_of_ne no_opener, category]

/-- Words in front of which a name or a group is complete. -/
def Follows (more : List String) : Prop := ∀ word ∈ more.head?, word ∈ spacedOperators

theorem splitAccessor?_of_spells {after : List Token} (spells : Spells after more)
    (follows : Follows more) : splitAccessor? after = none := by
  cases spells with
  | nil => rfl
  | cons is tail =>
    rename_i t word rest words
    have member : word ∈ spacedOperators := follows word rfl
    have no_accessor (accessor : String) (other : accessor ∉ spacedOperators) : t.isOp accessor = false :=
      is.isOp_of_ne fun same => other (same ▸ member)
    simp [splitAccessor?, Accessor.ofToken?, no_accessor "." (by decide), no_accessor "?." (by decide),
      no_accessor "!." (by decide)]

section Groups

variable {words : List String} {type : TypeExpr}

theorem Denotes.readTerm_group (denotes : Denotes words type) (follows : Follows more)
    (spells : Spells ts (enclosed words ++ more)) :
    ∃ t rest after, ts = t :: rest ∧ Spells after more ∧ after.length ≤ rest.length ∧ t.isOp "(" = true ∧
      ∀ {n : Nat}, rest.length ≤ n → ∀ (opts : TypeOptions) {state : TypeState},
        state.progress.canStart = true → state.pending = [] →
        (readTerm (typeReader n) opts state t rest).toExcept =
          .ok (.next { state with progress := state.progress.addTerm type } after) := by
  rw [enclosed_append] at spells
  obtain ⟨opening, rest, rfl, is_opening, tail⟩ := spells.cons_inv
  obtain ⟨inner, last, rfl, inner_spells, last_spells⟩ := tail.append_inv
  obtain ⟨closing, after, rfl, is_closing, after_spells⟩ := last_spells.cons_inv
  have opens : opening.isOp "(" = true := by rw [is_opening.isOp]; decide
  have closes : closing.isOp ")" = true := by rw [is_closing.isOp]; decide
  refine ⟨opening, _, after, rfl, after_spells, by simp; omega, opens, ?_⟩
  intro n enough opts state can_start no_names
  have split : splitClose .parenthesis (inner ++ closing :: after) = some ⟨inner, closing, after⟩ :=
    (denotes.paired.wellBracketed inner_spells).splitClose_append closes after
  have filled : inner.isEmpty = false := inner_spells.isEmpty_eq_false denotes.nonempty
  have read := denotes.read inner_spells (n := n) (by simp at enough; omega) opts.partsEndAtConnector
    (.missing opening .type)
  have no_accessor := splitAccessor?_of_spells after_spells follows
  -- No names with dots are waiting for the group, and the type in it has none of its own.
  have kept : type.withQualifiers state.pending = type := by
    rw [no_names, ← denotes.unqualified]
    cases type
    rfl
  simp only [readTerm, opens, if_true, readGroup, can_start, Bool.not_true, Bool.false_eq_true, if_false, split,
    filled]
  rw [Logged.toExcept_bind_of read]
  simp only [no_accessor, TypeState.addTerm, kept]
  simp [Logged.toExcept, no_names]

/-- The words end a type that is read with the given options. -/
def Ends (opts : TypeOptions) (more : List String) : Prop :=
  ∀ word ∈ more.head?, word ∈ [",", "/", "=>"] ∨ word = "~" ∧ opts.endsAtConnector = true

theorem Ends.follows (ends : Ends opts more) : Follows more := by
  intro word head
  rcases ends word head with member | ⟨rfl, _⟩
  · have known : ∀ word ∈ [",", "/", "=>"], word ∈ spacedOperators := by decide
    exact known word member
  · decide

/-- A comma and an arrow end a type, whatever the options. -/
theorem ends_of_separates (separates : ∀ word ∈ more.head?, word ∈ [",", "=>"]) : Ends opts more := by
  have known : ∀ word ∈ [",", "=>"], word ∈ [",", "/", "=>"] := by decide
  exact fun word head => .inl (known word (separates word head))

/-- A round at a word that ends the type ends it. -/
theorem readTerms_ends {after : List Token} (spells : Spells after more) (ends : Ends opts more)
    (n : Nat) (first : Token) (type : TypeExpr) :
    (readTerms n opts { first, progress := .single type } after).toExcept = .ok ⟨type, after⟩ := by
  cases spells with
  | nil => rw [readTerms, walk_nil]; rfl
  | cons is tail =>
    rename_i t word rest words
    refine toExcept_walk_stop ?_
    have ended : readTerm (typeReader n) opts { first, progress := .single type } t rest =
        TypeState.endAt { first, progress := .single type } (t :: rest) := by
      rcases ends word rfl with member | ⟨rfl, at_connector⟩
      · simp only [List.mem_cons, List.not_mem_nil, or_false] at member
        rw [readTerm_of_mem_spacedOperators is (ends.follows word rfl)
            (by rcases member with rfl | rfl | rfl <;> decide),
          readTypeOperator, is.text]
        rcases member with rfl | rfl | rfl <;> rfl
      · rw [readTerm_of_mem_spacedOperators is (by decide) (by decide), readTypeOperator, is.text]
        exact if_pos at_connector
    rw [ended]
    rfl

theorem Denotes.read_front (denotes : Denotes words type) (ends : Ends opts more)
    (spells : Spells ts (enclosed words ++ more)) :
    ∃ after, Spells after more ∧ after.length < ts.length ∧ ∀ {n : Nat}, ts.length ≤ n → ∀ missing : Fault,
        ((typeReader n).read opts missing ts).toExcept = .ok ⟨type, after⟩ := by
  obtain ⟨t, rest, after, rfl, after_spells, shorter, opens, round⟩ :=
    denotes.readTerm_group ends.follows spells
  refine ⟨after, after_spells, Nat.lt_succ_of_le shorter, ?_⟩
  intro n enough missing
  rw [typeReader_read_cons enough opts missing (dottedName?_of_isOp opens rest), readTerms,
    toExcept_walk_next (round Nat.le.refl opts rfl rfl) shorter]
  exact readTerms_ends after_spells ends _ t type

theorem Denotes.enclosed (denotes : Denotes words type) : Denotes (enclosed words) type where
  nonempty := by simp [Sharp.enclosed]
  paired := .group denotes.paired
  unqualified := denotes.unqualified
  read spells n enough parts missing := by
    have ends : Ends ⟨false, parts, false⟩ [] := by simp [Ends]
    obtain ⟨after, after_spells, _, read⟩ := denotes.read_front ends (by simpa using spells)
    cases after_spells
    exact read enough missing

end Groups

/-! ## Names, nullable types and arrays -/

theorem Denotes.normal {name : String} (word : isTypeWord name = true) : Denotes [name] (.normal name) where
  nonempty := by simp
  paired := .ofWord (isWordSpelling_of_isTypeWord word)
  unqualified := rfl
  read spells n enough parts missing := by
    obtain ⟨t, rest, rfl, is, tail⟩ := spells.cons_inv
    cases tail
    have round (reader : TypeReader) (opts : TypeOptions) : (readTerm reader opts { first := t } t []).toExcept =
          .ok (.next { first := t, progress := .single (.normal name) } []) := by
      rw [readTerm_of_isTypeWord is word, readNameTerm, readPlainName, ← is.text]
      exact toExcept_noteTypeName_bind t _
    rw [typeReader_read_cons enough _ missing rfl, readTerms, toExcept_walk_next (round _ _) Nat.le.refl, walk_nil]
    rfl

section Marks

variable {words : List String} {type : TypeExpr}

theorem Denotes.marked (denotes : Denotes words type) (member : mark ∈ ["?", "#"]) {result : TypeExpr}
    (unqualified : result.qualifiers = [])
    (marks : ∀ (opts : TypeOptions) (first t : Token), t.Spells mark →
      (readTypeOperator opts { first, progress := .single type } t []).toExcept =
        .ok (.next { first, progress := .single result } [])) :
    Denotes (Sharp.enclosed words ++ [mark]) result where
  nonempty := by simp
  paired := by
    have known : ∀ mark ∈ ["?", "#"], mark ∈ ["?", "#", "-", "/", ":", ",", "=>", "~"] := by decide
    exact denotes.enclosed.paired.append (.ofOperator (known mark member))
  unqualified := unqualified
  read spells n enough parts missing := by
    have known : ∀ mark ∈ ["?", "#"], mark ∈ spacedOperators ∧ mark ≠ "(" := by decide
    have follows : Follows [mark] := by simpa [Follows] using (known mark member).1
    obtain ⟨t, rest, after, rfl, after_spells, shorter, opens, group⟩ :=
      denotes.readTerm_group follows spells
    obtain ⟨last, nothing, rfl, is, tail⟩ := after_spells.cons_inv
    cases tail
    rw [typeReader_read_cons enough _ missing (dottedName?_of_isOp opens rest), readTerms,
      toExcept_walk_next (group Nat.le.refl _ rfl rfl) shorter]
    have round (reader : TypeReader) (opts : TypeOptions) :
        (readTerm reader opts { first := t, progress := .single type } last []).toExcept =
          .ok (.next { first := t, progress := .single result } []) := by
      rw [readTerm_of_mem_spacedOperators is (known mark member).1 (known mark member).2]
      exact marks opts t last is
    exact (toExcept_walk_next (round _ _) Nat.le.refl).trans (by rw [walk_nil]; rfl)

theorem Denotes.nullable (denotes : Denotes words type) (plain : type.isNullable = false) :
    Denotes (Sharp.enclosed words ++ ["?"]) (type.withNullable true) := by
  refine denotes.marked (by decide) ?_ ?_
  · rw [← denotes.unqualified]
    cases type
    rfl
  · intro opts first t is
    rw [readTypeOperator, is.text]
    simp [TypeProgress.mark, markNullable, plain]
    rfl

theorem Denotes.array (denotes : Denotes words type) :
    Denotes (Sharp.enclosed words ++ ["#"]) (.plain (.array type)) := by
  refine denotes.marked (by decide) rfl ?_
  intro opts first t is
  rw [readTypeOperator, is.text]
  rfl

end Marks

/-! ## Generics -/

section Generics

variable {words : List String} {type : TypeExpr}

/-- A group with a group in it is one parameter. -/
theorem Denotes.readParam (denotes : Denotes words type) (ends : Ends .genericsParam more)
    (spells : Spells ts (Sharp.enclosed (Sharp.enclosed words) ++ more)) :
    ∃ t rest after, ts = t :: rest ∧ Spells after more ∧ after.length ≤ rest.length ∧
      ∀ {n : Nat}, (t :: rest).length ≤ n →
        (Sharp.readParam (typeReader n) t rest).toExcept = .ok ⟨[type], after⟩ := by
  obtain ⟨after, after_spells, shorter, read⟩ := denotes.enclosed.read_front ends spells
  rw [enclosed_append] at spells
  obtain ⟨outer, rest, rfl, is_outer, tail⟩ := spells.cons_inv
  obtain ⟨group, last, rfl, group_spells, last_spells⟩ := tail.append_inv
  obtain ⟨outer_closing, rest, rfl, is_outer_closing, tail⟩ := last_spells.cons_inv
  have outer_closes : outer_closing.isOp ")" = true := by rw [is_outer_closing.isOp]; decide
  have split : splitClose .parenthesis (group ++ outer_closing :: rest) = some ⟨group, outer_closing, rest⟩ :=
    (denotes.enclosed.paired.wellBracketed group_spells).splitClose_append outer_closes rest
  -- The inner group hides the slashes of the type, so that the outer one is no list of parameters.
  have undivided : hasTop (·.isOp "/") group = false := by
    obtain ⟨opening, others, rfl, is_opening, tail⟩ := group_spells.cons_inv
    obtain ⟨inner, last, rfl, inner_spells, last_spells⟩ := tail.append_inv
    obtain ⟨closing, nothing, rfl, is_closing, tail⟩ := last_spells.cons_inv
    cases tail
    have opens : opening.isOp BracketForm.parenthesis.opener = true := by rw [is_opening.isOp]; decide
    have closes : closing.isOp BracketForm.parenthesis.closer = true := by rw [is_closing.isOp]; decide
    have no_mark : opening.isOp "/" = false := is_opening.isOp_of_ne (by decide)
    rw [(denotes.paired.wellBracketed inner_spells).hasTop_group opens closes, no_mark]
    rfl
  have single : splitParamGroup? outer (group ++ outer_closing :: rest) = none := by
    simp [splitParamGroup?, split, undivided]
  refine ⟨outer, _, after, rfl, after_spells, Nat.le_of_lt_succ shorter, ?_⟩
  intro n enough
  rw [Sharp.readParam, single]
  exact Logged.toExcept_bind_of (read enough (.missing outer .type)) _

/-- Parameters are read up to the last one. -/
theorem readParams_of_spells {params : List TypeExpr} (nonempty : params ≠ [])
    (each : ∀ param ∈ params, Denotes param.spell param)
    (spells : Spells ts (["/"].intercalate (spellParams params))) (enough : ts.length ≤ n)
    (finish : ParamState → Reading (Parsed (List TypeExpr))) (state : ParamState) :
    (walk (readParamRound (typeReader n) false) finish state ts).toExcept = .ok ⟨state.params ++ params, []⟩ := by
  rw [spellParams_eq_map] at spells
  induction params generalizing ts state with
  | nil => exact absurd rfl nonempty
  | cons param params ih =>
    obtain ⟨first, others⟩ := List.forall_mem_cons.1 each
    cases params with
    | nil =>
      obtain ⟨t, rest, after, rfl, after_spells, shorter, read⟩ :=
        first.readParam (show Ends _ [] by simp [Ends])
          (by rwa [intercalate_map_singleton, ← List.append_nil (enclosed _)] at spells)
      cases after_spells
      refine toExcept_walk_stop ?_
      rw [readParamRound, Logged.toExcept_bind_of (read enough)]
      rfl
    | cons next params =>
      rw [intercalate_map_cons_cons] at spells
      obtain ⟨t, rest, after, rfl, after_spells, shorter, read⟩ :=
        first.readParam (by simp [Ends]) spells
      obtain ⟨slash, after, rfl, is_slash, after_spells⟩ := after_spells.cons_inv
      have separates : slash.isOp "/" = true := by rw [is_slash.isOp]; decide
      have round : (readParamRound (typeReader n) false state t rest).toExcept =
          .ok (.next ⟨state.params ++ [param], slash⟩ after) := by
        rw [readParamRound, Logged.toExcept_bind_of (read enough)]
        simp [separates]
        rfl
      simp only [List.length_cons] at shorter enough
      rw [toExcept_walk_next round (by omega), ih (by simp) others after_spells (by omega)]
      simp

theorem Denotes.generics {name : String} (word : isTypeWord name = true) {params : List TypeExpr}
    (nonempty : params ≠ []) (each : ∀ param ∈ params, Denotes param.spell param) :
    Denotes (name :: "-" :: ["/"].intercalate (spellParams params)) (.plain (.generics (.normal name) params)) where
  nonempty := by simp
  paired := by
    have groups : ∀ words ∈ spellParams params, Paired words := by
      rw [spellParams_eq_map]
      intro words member
      obtain ⟨param, among, rfl⟩ := List.mem_map.1 member
      exact (each param among).enclosed.enclosed.paired
    have separated : Paired (["/"].intercalate (spellParams params)) :=
      .intercalate (.ofOperator (by decide)) groups
    have marked : Paired ["-"] := .ofOperator (by decide)
    exact (Paired.ofWord (isWordSpelling_of_isTypeWord word)).append (marked.append separated)
  unqualified := rfl
  read spells n enough parts missing := by
    obtain ⟨head, rest, rfl, is_head, tail⟩ := spells.cons_inv
    obtain ⟨dash, rest, rfl, is_dash, params_spells⟩ := tail.cons_inv
    have marks : dash.isOp "-" = true := by rw [is_dash.isOp]; decide
    have undotted := dottedName?_of_ne is_dash (by decide) head rest
    have filled : rest.isEmpty = false := by
      obtain ⟨param, others, rfl⟩ := List.exists_cons_of_ne_nil nonempty
      obtain ⟨more, words⟩ := exists_intercalate_map_cons "/"
        (fun param : TypeExpr => Sharp.enclosed (Sharp.enclosed param.spell)) param others
      rw [spellParams_eq_map, words, enclosed_append] at params_spells
      exact params_spells.isEmpty_eq_false (by simp)
    have read := readParams_of_spells nonempty each params_spells (n := (dash :: rest).length) (by simp)
      (fun state => .fail state.fault) { before := dash }
    rw [typeReader_read_cons enough _ missing undotted, readTerms]
    refine toExcept_walk_stop ?_
    rw [readTerm_of_isTypeWord is_head word, readNameTerm]
    simp only [marks, filled, Bool.not_false, Bool.and_self, if_true, TypeProgress.canStart, Bool.not_true,
      Bool.false_eq_true, if_false]
    have generics : (readGenerics (typeReader (dash :: rest).length) ⟨false, parts, false⟩ head dash rest).toExcept =
        .ok ⟨.plain (.generics (.normal name) params), []⟩ := by
      rw [readGenerics, toExcept_noteTypeName_bind, toExcept_note_bind, Bool.and_false, readParams,
        Logged.toExcept_bind_of read, is_head.text]
      rfl
    rw [Logged.toExcept_bind_of generics]
    rfl

end Generics

/-! ## Function types -/

/-- Where fewer than `n` tokens follow the first one, the reader reads what the reader for all types
reads. -/
def TypeReader.Covers (reader : TypeReader) (n : Nat) : Prop :=
  ∀ ⦃rest : List Token⦄, rest.length < n → ∀ (opts : TypeOptions) (t : Token),
    reader.readFrom opts t rest = TypeExpr.reader.readFrom opts t rest

theorem TypeReader.Covers.mono (covers : reader.Covers n) (fewer : m ≤ n) : reader.Covers m :=
  fun _ short => covers (Nat.lt_of_lt_of_le short fewer)

theorem typeReader_covers (n : Nat) : (typeReader n).Covers n :=
  fun _ short opts t => typeReader_readFrom short opts t

theorem TypeReader.Covers.read_eq (covers : reader.Covers ts.length) (opts : TypeOptions) (missing : Fault) :
    reader.read opts missing ts = (typeReader ts.length).read opts missing ts := by
  cases ts with
  | nil => rfl
  | cons t rest =>
    exact (covers (Nat.lt_succ_self _) opts t).trans (typeReader_readFrom (Nat.lt_succ_self _) opts t).symm

/-- In front of a comma, an arrow or nothing, the words are read as the argument. -/
def SpellsArgument (style : ArgumentStyle) (words : List String) (arg : Slot) : Prop :=
  ∀ ⦃more : List String⦄, (∀ word ∈ more.head?, word ∈ [",", "=>"]) →
    ∀ ⦃ts : List Token⦄, Spells ts (words ++ more) →
      ∃ t rest after, ts = t :: rest ∧ Spells after more ∧ after.length ≤ rest.length ∧
        ∀ ⦃reader : TypeReader⦄, reader.Covers (t :: rest).length →
          (readArgument reader style t rest).toExcept = .ok ⟨arg, after⟩

/-- The words after the arguments of a function tell what it returns. -/
inductive SpellsReturned : ArgumentStyle → List String → TypeExpr → Prop where
  | arrow {style : ArgumentStyle} {returned : TypeExpr} (denotes : Denotes returned.spell returned) :
      SpellsReturned style ("=>" :: enclosed returned.spell) returned
  | omitted : SpellsReturned .declared [] (.normal "void")

section Functions

variable {returned : TypeExpr} {last : List String} {style : ArgumentStyle}

theorem SpellsArgument.ne_nil {words : List String} (spelled : SpellsArgument style words arg) : words ≠ [] := by
  rintro rfl
  obtain ⟨t, rest, after, none_left, -⟩ := @spelled [] (by simp) [] .nil
  cases none_left

theorem Denotes.readReturned (denotes : Denotes returned.spell returned)
    (spells : Spells ts (Sharp.enclosed returned.spell)) (covers : reader.Covers ts.length)
    (args : List Slot) (arrow : Token) :
    (Sharp.readReturned reader args arrow ts).toExcept = .ok ⟨(args, returned), []⟩ := by
  have read : (reader.read .declaration (.missing arrow .returnedType) ts).toExcept = .ok ⟨returned, []⟩ := by
    rw [covers.read_eq]
    exact denotes.enclosed.read spells Nat.le.refl true _
  rw [Sharp.readReturned, toExcept_note_bind, Logged.toExcept_bind_of read]
  rfl

theorem Denotes.spellsArgument (denotes : Denotes arg.type.spell arg.type) (bare : arg.IsBare) :
    SpellsArgument (.bare opts) (Sharp.enclosed arg.type.spell) arg := by
  intro more separates ts spells
  obtain ⟨after, after_spells, shorter, read⟩ := denotes.read_front (ends_of_separates separates) spells
  rw [enclosed_append] at spells
  obtain ⟨t, rest, rfl, _, _⟩ := spells.cons_inv
  refine ⟨t, rest, after, rfl, after_spells, Nat.le_of_lt_succ shorter, ?_⟩
  intro reader covers
  have type_read : (reader.readFrom opts t rest).toExcept = .ok ⟨arg.type, after⟩ := by
    have same := covers.read_eq opts (.missing t .type)
    exact (congrArg Logged.toExcept same).trans (read Nat.le.refl _)
  have slot : Slot.mk "" arg.type none = arg := by
    cases arg
    obtain ⟨rfl, rfl⟩ := bare
    rfl
  rw [readArgument, Logged.toExcept_bind_of type_read, slot]
  rfl

/-- The last argument, and what tells the type that is returned. -/
theorem readArgumentRound_last {words : List String} (spelled : SpellsArgument style words arg)
    (result : SpellsReturned style last returned) (spells : Spells ts (words ++ last)) :
    ∃ t rest, ts = t :: rest ∧ (reader.Covers ts.length → ∀ before : List Slot,
      (readArgumentRound reader style before t rest).toExcept = .ok (.stop ⟨(before ++ [arg], returned), []⟩)) := by
  cases result with
  | omitted =>
    obtain ⟨t, rest, after, rfl, after_spells, -, read⟩ := spelled (by simp) spells
    cases after_spells
    refine ⟨t, rest, rfl, fun covers before => ?_⟩
    rw [readArgumentRound, Logged.toExcept_bind_of (read covers)]
    rfl
  | arrow denotes =>
    obtain ⟨t, rest, after, rfl, after_spells, shorter, read⟩ := spelled (by simp) spells
    obtain ⟨arrow, after, rfl, is_arrow, after_spells⟩ := after_spells.cons_inv
    refine ⟨t, rest, rfl, fun covers before => ?_⟩
    have arrives : arrow.isOp "=>" = true := by rw [is_arrow.isOp]; decide
    have no_separator : arrow.isOp "," = false := is_arrow.isOp_of_ne (by decide)
    have no_end : arrow.isOpIn ["@", "\x7b"] = false := by simp [isOpIn, is_arrow.text]
    have covers_after : reader.Covers after.length :=
      covers.mono (by simp only [List.length_cons] at shorter ⊢; omega)
    rw [readArgumentRound, Logged.toExcept_bind_of (read covers)]
    simp only [no_end, no_separator, arrives, Bool.and_false, Bool.false_eq_true, if_true, if_false]
    rw [Logged.toExcept_bind_of (denotes.readReturned after_spells covers_after (before ++ [arg]) arrow)]
    rfl

/-- Arguments are read up to the last one. -/
theorem readArguments_of_spells {spell : Slot → List String} (nonempty : args ≠ [])
    (each : ∀ arg ∈ args, SpellsArgument style (spell arg) arg) (result : SpellsReturned style last returned)
    (spells : Spells ts ([","].intercalate (args.map spell) ++ last))
    (covers : reader.Covers ts.length) (finish : List Slot → Reading (Parsed (List Slot × TypeExpr)))
    (before : List Slot) :
    (walk (readArgumentRound reader style) finish before ts).toExcept = .ok ⟨(before ++ args, returned), []⟩ := by
  induction args generalizing ts before with
  | nil => exact absurd rfl nonempty
  | cons arg args ih =>
    obtain ⟨first, others⟩ := List.forall_mem_cons.1 each
    cases args with
    | nil =>
      rw [intercalate_map_singleton] at spells
      obtain ⟨t, rest, rfl, read⟩ := readArgumentRound_last first result spells
      exact toExcept_walk_stop (read covers before)
    | cons next args =>
      rw [intercalate_map_cons_cons, List.append_assoc, List.cons_append] at spells
      obtain ⟨t, rest, after, rfl, after_spells, shorter, read⟩ := first (by simp) spells
      obtain ⟨comma, after, rfl, is_comma, after_spells⟩ := after_spells.cons_inv
      have separates : comma.isOp "," = true := by rw [is_comma.isOp]; decide
      have no_end : comma.isOpIn ["@", "\x7b"] = false := by simp [isOpIn, is_comma.text]
      have filled : after.isEmpty = false := by
        obtain ⟨more, words⟩ := exists_intercalate_map_cons "," spell next args
        refine after_spells.isEmpty_eq_false ?_
        rw [words]
        simp [(others next List.mem_cons_self).ne_nil]
      have round : (readArgumentRound reader style before t rest).toExcept =
          .ok (.next (before ++ [arg]) after) := by
        rw [readArgumentRound, Logged.toExcept_bind_of (read covers)]
        simp only [no_end, separates, filled, Bool.and_false, Bool.false_eq_true, if_true, if_false]
        exact toExcept_note_bind _ _ _
      simp only [List.length_cons] at shorter covers
      rw [toExcept_walk_next round (by omega), ih (by simp) others after_spells (covers.mono (by omega))]
      simp

section

variable (bare : ∀ arg ∈ args, arg.IsBare) (each : ∀ arg ∈ args, Denotes arg.type.spell arg.type)
  (result : Denotes returned.spell returned)
include bare each result

/-- The arguments of a function, or the discard, and the type it returns. -/
theorem readFunction_of_spells
    (spells : Spells ts ((if args.isEmpty then ["_"] else [","].intercalate (spellArgs args)) ++
      "=>" :: enclosed returned.spell)) (covers : reader.Covers ts.length) :
    (readFunction reader (.bare opts) ts).toExcept = .ok ⟨(args, returned), []⟩ := by
  cases args with
  | nil =>
    obtain ⟨discard, rest, rfl, is_discard, tail⟩ := spells.cons_inv
    obtain ⟨arrow, rest, rfl, is_arrow, returned_spells⟩ := tail.cons_inv
    have category : discard.category = .identifier := by rw [is_discard.category]; decide
    have discards : discard.isDiscard = true := by simp [isDiscard, category, is_discard.text]
    have arrives : arrow.isOp "=>" = true := by rw [is_arrow.isOp]; decide
    simp only [readFunction, discards, arrives, Bool.not_true, Bool.false_eq_true, if_false, toExcept_note_bind]
    exact result.readReturned returned_spells (covers.mono (by simp only [List.length_cons]; omega)) [] arrow
  | cons arg args =>
    rw [List.isEmpty_cons, if_neg Bool.false_ne_true, spellArgs_eq_map] at spells
    obtain ⟨more, words⟩ := exists_intercalate_map_cons "," (fun arg : Slot => enclosed arg.type.spell) arg args
    have front := spells
    rw [words, List.append_assoc, enclosed_append] at front
    obtain ⟨opening, rest, rfl, is_opening, tail⟩ := front.cons_inv
    have no_discard : opening.isDiscard = false := by simp [isDiscard, is_opening.text]
    simp only [readFunction, no_discard, Bool.not_false, if_true]
    exact readArguments_of_spells (by simp) (fun arg member => (each arg member).spellsArgument (bare arg member))
      (.arrow result) spells covers _ []

theorem Denotes.function : Denotes
      ("fn" :: ":" :: (if args.isEmpty then ["_"] else [","].intercalate (spellArgs args)) ++
        "=>" :: Sharp.enclosed returned.spell)
      (.plain (.function args returned)) where
  nonempty := by simp
  paired := by
    have groups : ∀ words ∈ spellArgs args, Paired words := by
      rw [spellArgs_eq_map]
      intro words member
      obtain ⟨arg, among, rfl⟩ := List.mem_map.1 member
      exact (each arg among).enclosed.paired
    have arguments : Paired (if args.isEmpty then ["_"] else [","].intercalate (spellArgs args)) := by
      split
      · exact .ofWord (by decide)
      · exact .intercalate (.ofOperator (by decide)) groups
    have word : Paired ["fn"] := .ofWord (by decide)
    have front : Paired ["fn", ":"] := word.append (.ofOperator (by decide))
    have arrow : Paired ["=>"] := .ofOperator (by decide)
    exact (front.append arguments).append (arrow.append result.enclosed.paired)
  unqualified := rfl
  read spells n enough parts missing := by
    obtain ⟨word, rest, rfl, is_word, tail⟩ := spells.cons_inv
    obtain ⟨colon, body, rfl, is_colon, body_spells⟩ := tail.cons_inv
    have undotted := dottedName?_of_ne is_colon (by decide) word body
    have colon_marks : colon.isOp ":" = true := by rw [is_colon.isOp]; decide
    have no_question : colon.isOp "?" = false := is_colon.isOp_of_ne (by decide)
    have category : word.category = .keyword := by rw [is_word.category]; decide
    have read : (readFunction (typeReader (colon :: body).length) (.bare ⟨false, parts, false⟩) body).toExcept =
        .ok ⟨(args, returned), []⟩ :=
      readFunction_of_spells bare each result body_spells ((typeReader_covers _).mono (by simp))
    rw [typeReader_read_cons enough _ missing undotted, readTerms]
    refine toExcept_walk_stop ?_
    have no_opener : word.isOp "(" = false := is_word.isOp_of_ne (by decide)
    have is_fn : word.isKeyword "fn" = true := by simp [isKeyword, category, is_word.text]
    simp only [readTerm, no_opener, category, is_fn, readFunctionTerm, skipOp, startsWithOp, no_question, colon_marks,
      Bool.false_eq_true, reduceCtorEq, if_false, if_true, Bool.not_true, TypeProgress.canStart, List.getLast?_nil,
      toExcept_note_bind]
    rw [Logged.toExcept_bind_of read]
    rfl

end

end Functions

/-! ## Tuples -/

/-- Adds an element of a tuple. -/
def TypeProgress.addElement : TupleElement → TypeProgress → TypeProgress
  | .unnamed type => TypeProgress.addTerm type
  | .named slot => TypeProgress.addNamed slot

section Tuples

variable {element : TupleElement} {elements : List TupleElement}

/-- A name with a colon and a group after it is a named element. -/
theorem Denotes.readNamedSlot (denotes : Denotes slot.type.spell slot.type)
    (labelled : (TupleElement.named slot).IsLabelled) (ends : Ends ⟨true, false, false⟩ more) {name : Token}
    (is_name : name.Spells slot.name) (marks : colon.isOp ":" = true)
    (spells : Spells ts (Sharp.enclosed slot.type.spell ++ more)) :
    ∃ after, Spells after more ∧ after.length < ts.length ∧ ∀ {n : Nat}, ts.length ≤ n →
      (Sharp.readNamedSlot (typeReader n) .tuple ⟨true, false, false⟩ name (colon :: ts)).toExcept =
        .ok ⟨slot, after⟩ := by
  obtain ⟨identifier, no_discard, by_value⟩ := labelled
  obtain ⟨after, after_spells, shorter, read⟩ := denotes.read_front ends spells
  refine ⟨after, after_spells, shorter, ?_⟩
  intro n enough
  have category := is_name.category_of_isIdentifier identifier
  have kept : name.isDiscard = false := by simp [isDiscard, is_name.text, no_discard]
  have passed : splitPassing name (colon :: ts) = (none, name :: colon :: ts) := by
    simp [splitPassing, isKeyword, category]
  have named : Slot.mk slot.name slot.type none = slot := by
    cases slot
    cases by_value
    rfl
  have slot_read : (readSlot (typeReader n) .tuple ⟨true, false, false⟩ name (colon :: ts)).toExcept =
      .ok ⟨some slot, after⟩ := by
    simp only [readSlot, kept, passed, isNameLike, category, marks]
    simp only [Bool.false_eq_true, if_false, List.isEmpty_cons, Option.isSome_none, false_and, Bool.not_true,
      toExcept_note_bind]
    rw [Logged.toExcept_bind_of (read enough _), is_name.text, named]
    rfl
  rw [Sharp.readNamedSlot, Logged.toExcept_bind_of slot_read]
  rfl

theorem Denotes.readTerm_element (denotes : Denotes element.type.spell element.type)
    (labelled : element.IsLabelled) (ends : Ends ⟨true, false, false⟩ more)
    (spells : Spells ts (element.spell ++ more)) :
    ∃ t rest after, ts = t :: rest ∧ Spells after more ∧ after.length ≤ rest.length ∧
      dottedName? (t :: rest) = none ∧
      ∀ {n : Nat}, rest.length ≤ n → ∀ (opts : TypeOptions) {state : TypeState},
        state.progress.canStart = true → state.pending = [] →
        (readTerm (typeReader n) opts state t rest).toExcept =
          .ok (.next { state with progress := state.progress.addElement element } after) := by
  cases element with
  | unnamed type =>
    obtain ⟨t, rest, after, rfl, after_spells, shorter, opens, round⟩ :=
      denotes.readTerm_group ends.follows spells
    exact ⟨t, rest, after, rfl, after_spells, shorter, dottedName?_of_isOp opens rest, round⟩
  | named slot =>
    rw [TupleElement.spell, List.cons_append, List.cons_append] at spells
    obtain ⟨name, rest, rfl, is_name, tail⟩ := spells.cons_inv
    obtain ⟨colon, ts, rfl, is_colon, type_spells⟩ := tail.cons_inv
    have marks : colon.isOp ":" = true := by rw [is_colon.isOp]; decide
    obtain ⟨after, after_spells, shorter, read⟩ :=
      denotes.readNamedSlot labelled ends is_name marks type_spells
    refine ⟨name, colon :: ts, after, rfl, after_spells, by simp only [List.length_cons]; omega,
      dottedName?_of_ne is_colon (by decide) name ts, ?_⟩
    intro n enough opts state can_start no_names
    have word : isTypeWord slot.name = true := by simp [isTypeWord, labelled.1]
    have no_dash : colon.isOp "-" = false := is_colon.isOp_of_ne (by decide)
    have filled : ts.isEmpty = false := type_spells.isEmpty_eq_false (by simp [Sharp.enclosed])
    have no_accessor : Accessor.ofToken? colon = none := by
      simp [Accessor.ofToken?, isOp_of_isOp marks]
    rw [readTerm_of_isTypeWord is_name word, readNameTerm]
    simp only [no_dash, Bool.false_and, Bool.false_eq_true, if_false, no_accessor, marks, filled, Bool.not_false,
      Bool.and_self, if_true, no_names, List.getLast?_nil, can_start, Bool.not_true]
    rw [Logged.toExcept_bind_of (read (by simp only [List.length_cons] at enough; omega))]
    rfl

theorem readTerm_connector (is : t.Spells "~") (reader : TypeReader) (parts : Bool) {state : TypeState}
    {progress : TypeProgress}
    (connects : state.progress.connect t = .done progress []) :
    (readTerm reader ⟨false, parts, false⟩ state t rest).toExcept = .ok (.next { state with progress } rest) := by
  rw [readTerm_of_mem_spacedOperators is (by decide) (by decide), readTypeOperator, is.text]
  simp only [Bool.false_eq_true, if_false, connects]
  rfl

/-- After the `~` of a tuple, all other elements are read. -/
theorem readTerms_elements {parts : Bool} (nonempty : elements ≠ [])
    (labelled : ∀ element ∈ elements, element.IsLabelled)
    (each : ∀ element ∈ elements, Denotes element.type.spell element.type)
    (spells : Spells ts (["~"].intercalate (elements.map TupleElement.spell))) (enough : ts.length ≤ n)
    (first connector : Token) (front : List TupleElement) (last : TupleElement) :
    (readTerms n ⟨false, parts, false⟩ { first, progress := .tuple front last (some connector) } ts).toExcept =
      .ok ⟨.plain (.tuple (front ++ last :: elements)), []⟩ := by
  induction elements generalizing ts front last connector with
  | nil => exact absurd rfl nonempty
  | cons element elements ih =>
    obtain ⟨first_labelled, others_labelled⟩ := List.forall_mem_cons.1 labelled
    obtain ⟨first_denotes, others⟩ := List.forall_mem_cons.1 each
    have added : (TypeProgress.tuple front last (some connector)).addElement element =
        .tuple (front ++ [last]) element none := by
      cases element <;> rfl
    cases elements with
    | nil =>
      obtain ⟨t, rest, after, rfl, after_spells, shorter, undotted, round⟩ :=
        first_denotes.readTerm_element first_labelled (show Ends _ [] by simp [Ends])
          (by rwa [intercalate_map_singleton, ← List.append_nil (TupleElement.spell _)] at spells)
      cases after_spells
      rw [readTerms, toExcept_walk_next (round (by simp only [List.length_cons] at enough; omega) _ rfl rfl) shorter,
        walk_nil, added]
      change Except.ok (Parsed.mk (TypeExpr.plain (.tuple (front ++ [last] ++ [element]))) []) = _
      rw [List.append_assoc, List.singleton_append]
    | cons next elements =>
      rw [intercalate_map_cons_cons] at spells
      obtain ⟨t, rest, after, rfl, after_spells, shorter, undotted, round⟩ :=
        first_denotes.readTerm_element first_labelled (by simp [Ends]) spells
      obtain ⟨connector', after, rfl, is_connector, after_spells⟩ := after_spells.cons_inv
      simp only [List.length_cons] at enough shorter
      rw [readTerms, toExcept_walk_next (round (by omega) _ rfl rfl) (by simp only [List.length_cons]; omega), added]
      rw [toExcept_walk_next (readTerm_connector is_connector _ parts rfl) Nat.le.refl, ← readTerms,
        ih (by simp) others_labelled others after_spells (by omega), List.append_assoc, List.singleton_append]

theorem Denotes.tuple (several : 2 ≤ elements.length ∨ ∃ slot, elements = [.named slot])
    (labelled : ∀ element ∈ elements, element.IsLabelled)
    (each : ∀ element ∈ elements, Denotes element.type.spell element.type) :
    Denotes (["~"].intercalate (spellElements elements)) (.plain (.tuple elements)) := by
  rw [spellElements_eq_map]
  have groups : ∀ words ∈ elements.map TupleElement.spell, Paired words := by
    intro words member
    obtain ⟨element, among, rfl⟩ := List.mem_map.1 member
    have type_paired := (each element among).enclosed.paired
    have label := labelled element among
    cases element with
    | unnamed type => exact type_paired
    | named slot =>
      have name_paired : Paired [slot.name] := .ofWord (isWordSpelling_of_isIdentifier label.1)
      have colon_paired : Paired [":"] := .ofOperator (by decide)
      exact name_paired.append (colon_paired.append type_paired)
  cases elements with
  | nil => simp at several
  | cons element elements =>
    obtain ⟨first_labelled, others_labelled⟩ := List.forall_mem_cons.1 labelled
    obtain ⟨first_denotes, others⟩ := List.forall_mem_cons.1 each
    refine ⟨?_, .intercalate (.ofOperator (by decide)) groups, rfl, ?_⟩
    · obtain ⟨more, words⟩ := exists_intercalate_map_cons "~" TupleElement.spell element elements
      rw [words]
      cases element <;> simp [TupleElement.spell, Sharp.enclosed]
    · intro ts spells n enough parts missing
      cases elements with
      | nil =>
        obtain ⟨slot, same⟩ : ∃ slot, element = .named slot := by simpa using several
        obtain ⟨t, rest, after, rfl, after_spells, shorter, undotted, round⟩ :=
          first_denotes.readTerm_element first_labelled (show Ends _ [] by simp [Ends])
            (by rwa [intercalate_map_singleton, ← List.append_nil (TupleElement.spell _)] at spells)
        cases after_spells
        rw [typeReader_read_cons enough _ missing undotted, readTerms,
          toExcept_walk_next (round Nat.le.refl _ rfl rfl) shorter, walk_nil, same]
        rfl
      | cons next elements =>
        rw [intercalate_map_cons_cons] at spells
        obtain ⟨t, rest, after, rfl, after_spells, shorter, undotted, round⟩ :=
          first_denotes.readTerm_element first_labelled (by simp [Ends]) spells
        obtain ⟨connector, after, rfl, is_connector, after_spells⟩ := after_spells.cons_inv
        have connects : (TypeProgress.start.addElement element).connect connector =
            .done (.tuple [] element (some connector)) [] := by
          cases element <;> rfl
        rw [typeReader_read_cons enough _ missing undotted, readTerms,
          toExcept_walk_next (round Nat.le.refl _ rfl rfl) shorter,
          toExcept_walk_next (readTerm_connector is_connector _ parts connects) Nat.le.refl, ← readTerms,
          readTerms_elements (by simp) others_labelled others after_spells
            (by simp only [List.length_cons] at shorter; omega),
          List.nil_append]

end Tuples

/-! ## All types -/

/-- Every type that has a spelling is denoted by it. -/
theorem TypeExpr.Canonical.denotes {type : TypeExpr} (canonical : type.Canonical) : Denotes type.spell type := by
  induction canonical with
  | normal word =>
    simpa [TypeExpr.normal, TypeExpr.plain, TypeExpr.spell, Shape.spell] using Denotes.normal word
  | nullable plain ih =>
    simpa [TypeExpr.plain, TypeExpr.spell, TypeExpr.withNullable] using ih.nullable rfl
  | array inside ih => simpa [TypeExpr.plain, TypeExpr.spell, Shape.spell] using ih.array
  | function bare inside result args_ih result_ih =>
    simpa [TypeExpr.plain, TypeExpr.spell, Shape.spell] using Denotes.function bare args_ih result_ih
  | generics word nonempty inside ih =>
    simpa [TypeExpr.plain, TypeExpr.normal, TypeExpr.spell, Shape.spell] using Denotes.generics word nonempty ih
  | tuple several labelled inside ih =>
    simpa [TypeExpr.plain, TypeExpr.spell, Shape.spell] using Denotes.tuple several labelled ih

theorem parse_of_significant {tokens more : List Token} (tokenized : tokenize text = .ok tokens)
    (present : significant tokens = first :: more) :
    TypeExpr.parse text = (TypeExpr.readWhole first (first :: more)).toExcept := by
  simp only [TypeExpr.parse, tokenized, bind, Except.bind, present]

/-- The spelling of a type, with spaces between its words, is read as the type. -/
theorem parse_spell {type : TypeExpr} (canonical : type.Canonical) :
    TypeExpr.parse (" ".intercalate type.spell) = .ok type := by
  have denotes := canonical.denotes
  obtain ⟨tokens, tokenized, spells⟩ := tokenize_intercalate denotes.paired.spellable
  obtain ⟨word, words, spelled⟩ := List.exists_cons_of_ne_nil denotes.nonempty
  obtain ⟨first, more, present, _, _⟩ := (spelled ▸ spells).cons_inv
  have read := denotes.read spells (n := (significant tokens).length) Nat.le.refl true (.missing first .type)
  rw [present] at read
  have same : (typeReader (first :: more).length).readFrom .declaration first more =
      TypeExpr.reader.readFrom .declaration first more :=
    typeReader_readFrom (by simp) _ _
  have whole : (TypeExpr.readWhole first (first :: more)).toExcept = .ok type := by
    rw [TypeExpr.readWhole, Logged.toExcept_bind_of (a := ⟨type, []⟩)]
    · rfl
    · exact (congrArg Logged.toExcept same.symm).trans read
  rw [parse_of_significant tokenized present]
  exact whole

/-- A function from nullable arrays to generics with a named element. -/
theorem parse_spell_function : TypeExpr.parse "fn : ( ( ( int ) # ) ? ) => ( Map - ( ( x : ( bool ) ) ) )" =
      .ok (.plain (.function [.mk "" (.mk (.array (.normal "int")) [] true) none]
        (.plain (.generics (.normal "Map") [.plain (.tuple [.named (.mk "x" (.normal "bool") none)])])))) := by
  have argument : TypeExpr.Canonical (.mk (.array (.normal "int")) [] true) :=
    .nullable (.array (.normal (by decide)))
  have element : TypeExpr.Canonical (.plain (.tuple [.named (.mk "x" (.normal "bool") none)])) := by
    refine .tuple (.inr ⟨_, rfl⟩) ?_ ?_
    · rw [List.forall_mem_singleton]
      exact ⟨by decide, by decide, rfl⟩
    · rw [List.forall_mem_singleton]
      exact .normal (by decide)
  have result : TypeExpr.Canonical
      (.plain (.generics (.normal "Map") [.plain (.tuple [.named (.mk "x" (.normal "bool") none)])])) := by
    refine .generics (by decide) (by simp) ?_
    rwa [List.forall_mem_singleton]
  have bare : Slot.IsBare (.mk "" (.mk (.array (.normal "int")) [] true) none) := ⟨rfl, rfl⟩
  have read := parse_spell
    (.function (List.forall_mem_singleton.2 bare) (List.forall_mem_singleton.2 argument) result)
  simp only [TypeExpr.plain, TypeExpr.normal, TypeExpr.spell, Shape.spell, spellArgs, spellParams, spellElements,
    enclosed] at read
  exact read

end Sharp
