import Sharp.Proofs.LambdaParameters

/-!
# Signatures

The parameters of a function are written with their types in parentheses.  Whatever these types are,
the commas and arrows in them are none of the signature, and each parameter is written where it
stands.

* `convert_signature`: what a function with such parameters is converted to.
-/

namespace Sharp

open Token

variable {word mark : String}

/-! ## Sources -/

/-- The slot is a parameter with a name and a type that has a spelling. -/
structure Slot.Declarable (slot : Slot) : Prop where
  identifier : isIdentifier slot.name = true
  noDiscard : slot.name ≠ "_"
  canonical : slot.type.Canonical

/-- A parameter as `ref immut name: ( type )`. -/
def Slot.source (slot : Slot) : String :=
  " ".intercalate (passingWords slot.passing ++ [slot.name]) ++ ": " ++ " ".intercalate (enclosed slot.type.spell)

/-- The arrow with the returned type as ` => ( type )`, or nothing. -/
def returnedSource : Option TypeExpr → String
  | none => ""
  | some type => " => " ++ " ".intercalate (enclosed type.spell)

/-- A function with these parameters and an empty body. -/
def signatureSource (name : Name) (params : List Slot) (returned : Option TypeExpr) : String :=
  "fn " ++ name.text ++ " " ++ commaSeparated (params.map Slot.source) ++ returnedSource returned ++ " \x7b \x7d"

/-! ## Words -/

def Slot.words (slot : Slot) : List String :=
  passingWords slot.passing ++ slot.name :: ":" :: enclosed slot.type.spell

def returnedWords : Option TypeExpr → List String
  | none => []
  | some type => "=>" :: enclosed type.spell

def signatureWords (params : List Slot) (returned : Option TypeExpr) : List String :=
  [","].intercalate (params.map Slot.words) ++ returnedWords returned

theorem passingWords_subset (passing : Option Passing) :
    passingWords passing ⊆ ["ref", "immut", "in", "out", "params"] := by
  rcases passing with _ | _ | _ | _ | _ | _ <;> simp [passingWords]

theorem spelled_of_mem_passingWords {passing : Option Passing} (member : word ∈ passingWords passing) :
    isWordSpelling word.toList = true ∧ (lexemeOf word).category = .keyword := by
  have known : ∀ word ∈ ["ref", "immut", "in", "out", "params"],
      isWordSpelling word.toList = true ∧ (lexemeOf word).category = .keyword := by decide
  exact known word (passingWords_subset passing member)

section Words

variable {slot : Slot} {params : List Slot} {returned : Option TypeExpr}

/-- Words each of which is no bracket are paired. -/
theorem Paired.ofWords {words : List String} (spelled : ∀ word ∈ words, isWordSpelling word.toList = true) :
    Paired words := by
  induction words with
  | nil => exact .nil
  | cons word words ih =>
    obtain ⟨first, others⟩ := List.forall_mem_cons.1 spelled
    exact (Paired.ofWord first).append (ih others)

theorem Slot.Declarable.front_spelled (declarable : slot.Declarable) :
    ∀ word ∈ passingWords slot.passing ++ [slot.name], isWordSpelling word.toList = true := by
  intro word member
  rcases List.mem_append.1 member with member | member
  · exact (spelled_of_mem_passingWords member).1
  · rw [List.mem_singleton.1 member]
    exact isWordSpelling_of_isIdentifier declarable.identifier

theorem Slot.words_eq (slot : Slot) :
    slot.words = (passingWords slot.passing ++ [slot.name]) ++ ([":"] ++ enclosed slot.type.spell) := by
  simp [Slot.words]

theorem Slot.Declarable.paired (declarable : slot.Declarable) : Paired slot.words := by
  rw [slot.words_eq]
  have colon : Paired [":"] := .ofOperator (by decide)
  exact (Paired.ofWords declarable.front_spelled).append (colon.append declarable.canonical.denotes.enclosed.paired)

theorem paired_signatureWords (declarable : ∀ param ∈ params, param.Declarable)
    (canonical : ∀ type ∈ returned, type.Canonical) : Paired (signatureWords params returned) := by
  have comma : Paired [","] := .ofOperator (by decide)
  have arrow : Paired ["=>"] := .ofOperator (by decide)
  refine .append (.intercalate comma fun words member => ?_) ?_
  · obtain ⟨param, among, rfl⟩ := List.mem_map.1 member
    exact (declarable param among).paired
  · cases returned with
    | none => exact .nil
    | some type => exact arrow.append (canonical type rfl).denotes.enclosed.paired

end Words

/-! ## Reading -/

section Reading

variable {slot : Slot} {params : List Slot} {returned : Option TypeExpr} {ts : List Token}

/-- A parameter is read as the slot it is written for. -/
theorem Slot.Declarable.spellsArgument (declarable : slot.Declarable) :
    SpellsArgument .declared slot.words slot := by
  intro more separates ts spells
  rw [Slot.words, List.append_assoc, List.cons_append, List.cons_append] at spells
  obtain ⟨marks, named, rfl, marks_spells, named_spells⟩ := spells.append_inv
  obtain ⟨name, tail, rfl, is_name, tail_spells⟩ := named_spells.cons_inv
  obtain ⟨colon, typed, rfl, is_colon, typed_spells⟩ := tail_spells.cons_inv
  obtain ⟨after, after_spells, shorter, read⟩ :=
    declarable.canonical.denotes.read_front (ends_of_separates separates) typed_spells
  have isName := is_name.category_of_isIdentifier declarable.identifier
  have nameLike : name.isNameLike = true := by simp [isNameLike, isName]
  have colon_marks : colon.isOp ":" = true := by rw [is_colon.isOp]; decide
  obtain ⟨keywords, words⟩ : (∀ t ∈ marks, t.category = .keyword) ∧
      marks.map Token.text = passingWords slot.passing := by
    refine ⟨fun t member => ?_, marks_spells.map_text⟩
    obtain ⟨word, among, is⟩ := marks_spells.exists_word member
    rw [is.category, (spelled_of_mem_passingWords among).2]
  -- The words for how it is passed come first, so the slot may start with one of them or with its name.
  obtain ⟨first, rest, parts, split, no_discard, longer⟩ := exists_splitPassing keywords words isName
    (fun _ => by rw [is_name.text]; exact declarable.noDiscard) (colon :: typed)
  have several : rest.isEmpty = false := by simpa using longer (by simp)
  have whole : typed.length + 2 ≤ (first :: rest).length := by
    rw [← parts]
    simp only [List.length_append, List.length_cons]
    omega
  refine ⟨first, rest, after, parts, after_spells, by simp only [List.length_cons] at whole; omega, ?_⟩
  intro reader covers
  have type_read : (reader.read ⟨false, false, false⟩ (.missing colon .type) typed).toExcept =
      .ok ⟨slot.type, after⟩ := by
    rw [(covers.mono (by omega)).read_eq]
    exact read Nat.le.refl _
  have slot_read : (readSlot reader .function ⟨false, false, false⟩ first rest).toExcept =
      .ok ⟨some slot, after⟩ := by
    simp only [readSlot, no_discard, several, split, nameLike, colon_marks, Bool.false_eq_true, if_false,
      ne_eq, not_true_eq_false, and_false, Bool.not_true, toExcept_note_bind]
    rw [Logged.toExcept_bind_of type_read, is_name.text]
    cases slot
    rfl
  rw [readArgument, readNamedSlot, Logged.toExcept_bind_of slot_read]
  rfl

theorem spellsReturned (canonical : ∀ type ∈ returned, type.Canonical) :
    SpellsReturned .declared (returnedWords returned) (returned.getD (.normal "void")) := by
  cases returned with
  | none => exact .omitted
  | some type => exact .arrow (canonical type rfl).denotes

section

variable (nonempty : params ≠ []) (declarable : ∀ param ∈ params, param.Declarable)
include nonempty declarable

/-- The first word of a signature is no operator and no discard. -/
theorem exists_signature_cons (spells : Spells ts (signatureWords params returned)) :
    ∃ first more, ts = first :: more ∧ first.isDiscard = false ∧ first.isOp "-" = false := by
  obtain ⟨param, others, rfl⟩ := List.exists_cons_of_ne_nil nonempty
  have own := declarable param List.mem_cons_self
  obtain ⟨more, words⟩ := exists_intercalate_map_cons "," Slot.words param others
  obtain ⟨word, rest, parts⟩ : ∃ word rest, passingWords param.passing ++ [param.name] = word :: rest :=
    List.exists_cons_of_ne_nil (by simp)
  rw [signatureWords, words, param.words_eq, parts, List.append_assoc, List.append_assoc, List.cons_append] at spells
  obtain ⟨first, tail, rfl, is, -⟩ := spells.cons_inv
  have among : word ∈ passingWords param.passing ++ [param.name] := by simp [parts]
  have no_discard : word ≠ "_" := by
    rintro rfl
    rcases List.mem_append.1 among with member | member
    · exact absurd (passingWords_subset _ member) (by decide)
    · exact own.noDiscard (List.mem_singleton.1 member).symm
  have no_dash : word ≠ "-" := by
    rintro rfl
    exact absurd (own.front_spelled _ among) (by decide)
  exact ⟨first, tail, rfl, by simp [isDiscard, is.text, no_discard], is.isOp_of_ne no_dash⟩

theorem readSignature_of_spells
    (canonical : ∀ type ∈ returned, type.Canonical) (spells : Spells ts (signatureWords params returned)) :
    (readSignature ts).toExcept = .ok ⟨(params, returned.getD (.normal "void")), []⟩ := by
  obtain ⟨first, more, rfl, no_discard, -⟩ := exists_signature_cons nonempty declarable spells
  have covers : TypeExpr.reader.Covers (first :: more).length := fun _ _ _ _ => rfl
  simp only [readSignature, readFunction, no_discard, Bool.not_false, if_true]
  exact readArguments_of_spells nonempty (fun param member => (declarable param member).spellsArgument)
    (spellsReturned canonical) spells covers _ []

end

end Reading

/-! ## Headers -/

section Headers

variable {params : List Slot} {returned : Option TypeExpr} {words : List String} {header ts : List Token}

/-- Operators that the words are not made of are none of their tokens. -/
theorem Paired.isOp_eq_false (paired : Paired words) (spells : Spells ts words) (operator : String)
    (known : operator ∈ operators) (other : operator ∉ spacedOperators) : ∀ t ∈ ts, t.isOp operator = false := by
  intro t member
  obtain ⟨word, among, is⟩ := spells.exists_word member
  exact is.isOp_of_ne ((paired.spellable word among).ne operator known other)

/-- The header of a function ends at its brace. -/
theorem Paired.splitTop_header (paired : Paired words) (spells : Spells (significant header) words) {opening : Token}
    (opens : opening.isOp "\x7b" = true) (rest : List Token) :
    splitTop (·.isOpIn ["\x7b", ";"]) (header ++ opening :: rest) = some ⟨header, opening, rest⟩ := by
  have isOpIn_iff (t : Token) : t.isOpIn ["\x7b", ";"] = (t.isOp "\x7b" || t.isOp ";") := by
    simp only [isOpIn, isOp, List.contains_cons, List.contains_nil, Bool.or_false, Bool.and_or_distrib_left]
  -- Neither token that ends a header is one its words are made of, at whatever depth.
  have missed : splitTopAt (·.isOpIn ["\x7b", ";"]) 0 header = none := by
    refine splitTopAt_eq_none_of_significant (fun _ trivia => isOpIn_of_isTrivia trivia _)
      (splitTopAt_eq_none (fun t member => ?_) 0)
    simp only [isOpIn_iff, paired.isOp_eq_false spells "\x7b" (by decide) (by decide) t member,
      paired.isOp_eq_false spells ";" (by decide) (by decide) t member, Bool.or_self]
  have closed : depthAfter 0 header = some 0 := by
    rw [← depthAfter_significant]
    exact (paired.wellBracketed spells).depthAfter_eq 0
  exact splitTop_append missed closed (by simp [isOpIn_iff, opens]) rest

theorem Reading.gives_of_toExcept {α : Type} {x : Reading α} {a : α} (same : x.toExcept = .ok a) : x.Gives a := by
  cases x with
  | fail fault => cases same
  | done b notes =>
    cases same
    exact ⟨notes, rfl⟩

theorem readFnHeader_of_spells {name : Name} (nonempty : params ≠ [])
    (declarable : ∀ param ∈ params, param.Declarable) (canonical : ∀ type ∈ returned, type.Canonical)
    (spells : Spells (significant header) (name.text :: signatureWords params returned)) (scope : Scope) (t : Token) :
    (readFnHeader scope t header).Gives ⟨name.text, [], params, returned.getD (.normal "void"), []⟩ := by
  obtain ⟨nameToken, ts, parts, is_name, tail⟩ := spells.cons_inv
  obtain ⟨first, more, rfl, -, no_dash⟩ := exists_signature_cons nonempty declarable tail
  have identifier : isIdentifier name.text = true := by
    simp [isIdentifier, name.isWord, name.unreserved, name.contextFree]
  have nameLike : nameToken.isNameLike = true := by
    simp [isNameLike, is_name.category_of_isIdentifier identifier]
  -- No `-` in front of the signature starts generics, and no `@` in it starts an access.
  have unmarked : splitTop (·.isOp "@") (first :: more) = none :=
    splitTopAt_eq_none ((paired_signatureWords declarable canonical).isOp_eq_false tail "@" (by decide) (by decide)) 0
  have signature : (readSignature (first :: more)).Gives ⟨(params, returned.getD (.normal "void")), []⟩ :=
    Reading.gives_of_toExcept (readSignature_of_spells nonempty declarable canonical tail)
  have whole : (readWholeSignature (first :: more)).Gives (params, returned.getD (.normal "void")) := by
    simp only [readWholeSignature, List.isEmpty_cons, Bool.false_eq_true, if_false]
    exact .bind signature (.pure _)
  rw [readFnHeader, parts, ← is_name.text]
  simp only [nameLike, Bool.not_true, Bool.false_eq_true, if_false, readGenericsHeader, no_dash, Bool.not_false,
    if_true, pure_bind, splitAtMark, unmarked, readMemberAccess]
  exact .note_bind (.bind whole (.pure _))

/-- The text of a header with these parameters. -/
def signatureText (name : Name) (params : List Slot) (returned : Option TypeExpr) : String :=
  (returned.map (TypeExpr.render .returned)).getD "void" ++ " " ++ name.text ++ "(" ++
    commaSeparated (params.map Slot.render) ++ ")"

theorem FnHeader.text_signature (name : Name) (params : List Slot) (returned : Option TypeExpr) :
    FnHeader.text ⟨name.text, [], params, returned.getD (.normal "void"), []⟩ ⟨none, false, false, false⟩ =
      signatureText name params returned := by
  have nothing : TypeExpr.render .returned (.normal "void") = "void" := by decide
  have result : (returned.getD (.normal "void")).render .returned =
      (returned.map (TypeExpr.render .returned)).getD "void" := by
    cases returned with
    | none => exact nothing
    | some type => rfl
  rw [← String.toList_inj]
  simp [FnHeader.text, signatureText, accessText, FnModifiers.text, genericsText, result]

end Headers

/-! ## Functions -/

section Functions

open Layers

variable {params : List Slot} {returned : Option TypeExpr} {name : Name} {header : List Token}
  {t opening space closing : Token}

theorem block_space (scope : Scope) (is_space : space.category = .space) {rank : Nat} (above : blockRank 0 < rank) :
    ((standard.converters rank).block scope [space]).Produces () [] := by
  have same : (standard.converters rank).block scope [space] =
      convertStatements (standard.converters (blockRank 0)) { scope } [space] :=
    converters_blockFrom above scope space
  have isGap : IsGap [space] := by simp [IsGap, isBlank, isLineBreak, is_space]
  have skipped := @convertStatements_gap (standard.converters (blockRank 0)) [space] [] isGap (by simp) { scope }
  rw [same, ← List.append_nil [space], skipped, convertStatements, walk_nil]
  exact .pure ()

section

variable (nonempty : params ≠ []) (declarable : ∀ param ∈ params, param.Declarable)
  (canonical : ∀ type ∈ returned, type.Canonical)
  (spells : Spells (significant header) (name.text :: signatureWords params returned))
  (opens : opening.isOp "\x7b" = true) (is_space : space.category = .space) (closes : closing.isOp "\x7d" = true)
include nonempty declarable canonical spells opens is_space closes

theorem convertFn_signature {rank : Nat} (above : blockRank 0 < rank) :
    (convertFn (standard.converters rank) .root {} t (header ++ [opening, space, closing])).Produces []
      [.raw (signatureText name params returned), .line " \x7b", .line "\x7d"] := by
  have name_paired : Paired [name.text] := .ofWord name.isWord
  have cut := (name_paired.append (paired_signatureWords declarable canonical)).splitTop_header spells opens
    [space, closing]
  have plain := plain_of_category (show space.category ≠ .operator by simp [is_space])
  have split : splitClose .brace [space, closing] = some ⟨[space], closing, []⟩ :=
    (WellBracketed.cons plain.1 plain.2 .nil).splitClose_append closes []
  have goes_on : opening.isOp ";" = false := by simp [isOp_of_isOp opens]
  have held : ({} : Modifiers).forFn Scope.root.container = .ok ⟨none, false, false, false⟩ := rfl
  rw [convertFn, cut]
  simp only [held, Logged.ofExcept, pure_bind, goes_on, Bool.false_eq_true, if_false, convertBraced, split]
  refine .bind (.ofReading (readFnHeader_of_spells nonempty declarable canonical spells _ _)) ?_
  rw [FnHeader.text_signature]
  exact .bind (.emit _) (.bind (.emit _) (.bind (block_space _ is_space above) (.bind (.emit _) (.pure _))))

theorem block_of_signature (isFn : t.Is .keyword "fn") :
    (standard.all.block .root (t :: (header ++ [opening, space, closing]))).Produces ()
      [.raw (signatureText name params returned), .line " \x7b", .line "\x7d"] := by
  have above : blockRank 0 < statementRank (header ++ [opening, space, closing]).length := by
    simp only [blockRank, statementRank, List.length_append, List.length_cons]
    omega
  have converted := @convertFn_signature params returned name header t opening space closing nonempty declarable
    canonical spells opens is_space closes _ above
  refine block_of_statement isFn.1 ?_ (List.dropWhile_nil)
  rw [convertStatement_fn isFn]
  exact .bind converted (.pure _)

end

theorem render_signature (settings : LayoutSettings) (text : String) (nonempty : text ≠ "") :
    render settings (layout [.raw text, .line " \x7b", .line "\x7d"]) =
      text ++ " \x7b" ++ settings.lineEnding.text ++ "\x7d" ++ settings.lineEnding.text := by
  have front : Lays settings none [.raw text, .line " \x7b"] (text ++ (" \x7b" ++ settings.lineEnding.text)) none :=
    (lays_raw nonempty).append (lays_line _)
  have whole := render_layout_line (front.append (lays_line "\x7d"))
  simpa [String.append_assoc] using whole

end Functions

/-! ## Lexemes -/

/-- Wherever they stand, the lexemes are read as the words, with blanks between them. -/
def Carries (lexemes : List Lexeme) (words : List String) : Prop :=
  ∀ id start, Spells (significant (place id start lexemes)) words

theorem Carries.append {lexemes lexemes' : List Lexeme} {words words' : List String} (front : Carries lexemes words)
    (back : Carries lexemes' words') : Carries (lexemes ++ lexemes') (words ++ words') := by
  intro id start
  obtain ⟨id', start', placed⟩ := exists_place_append id start lexemes lexemes'
  rw [placed, significant, List.filter_append]
  exact List.rel_append (front id start) (back id' start')

theorem carries_spaced (words : List String) : Carries (spaced words) words :=
  spells_significant_place words

theorem carries_space : Carries [spaceLexeme] [] := fun _ _ => .nil

theorem carries_word (word : String) : Carries [lexemeOf word, spaceLexeme] [word] :=
  (carries_spaced [word]).append carries_space

def Slot.lexemes (slot : Slot) : List Lexeme :=
  spaced (passingWords slot.passing ++ [slot.name]) ++
    ([lexemeOf ":", spaceLexeme] ++ spaced (enclosed slot.type.spell))

def paramsLexemes (params : List Slot) : List Lexeme :=
  [lexemeOf ",", spaceLexeme].intercalate (params.map Slot.lexemes)

def returnedLexemes : Option TypeExpr → List Lexeme
  | none => []
  | some type => [spaceLexeme] ++ ([lexemeOf "=>", spaceLexeme] ++ spaced (enclosed type.spell))

/-- The lexemes between `fn` and the brace. -/
def headerLexemes (name : Name) (params : List Slot) (returned : Option TypeExpr) : List Lexeme :=
  [spaceLexeme] ++ ([lexemeOf name.text, spaceLexeme] ++
    (paramsLexemes params ++ (returnedLexemes returned ++ [spaceLexeme])))

theorem Slot.carries_lexemes (slot : Slot) : Carries slot.lexemes slot.words := by
  rw [slot.words_eq]
  exact (carries_spaced _).append ((carries_word ":").append (carries_spaced _))

theorem carries_paramsLexemes (params : List Slot) :
    Carries (paramsLexemes params) ([","].intercalate (params.map Slot.words)) := by
  induction params with
  | nil => exact carries_spaced []
  | cons param params ih =>
    cases params with
    | nil => simpa [paramsLexemes] using param.carries_lexemes
    | cons next params =>
      simp only [paramsLexemes, List.map_cons, List.intercalate_cons_cons] at ih ⊢
      exact (param.carries_lexemes.append (carries_word ",")).append ih

theorem carries_headerLexemes (name : Name) (params : List Slot) (returned : Option TypeExpr) :
    Carries (headerLexemes name params returned) (name.text :: signatureWords params returned) := by
  have result : Carries (returnedLexemes returned) (returnedWords returned) := by
    cases returned with
    | none => exact carries_spaced []
    | some type => exact carries_space.append ((carries_word "=>").append (carries_spaced _))
  have last : Carries (returnedLexemes returned ++ [spaceLexeme]) (returnedWords returned ++ []) :=
    result.append carries_space
  rw [List.append_nil] at last
  exact carries_space.append ((carries_word name.text).append ((carries_paramsLexemes params).append last))

/-! ### Spelling -/

theorem Slot.toList_source (slot : Slot) : slot.source.toList = spelling slot.lexemes := by
  simp only [Slot.source, Slot.lexemes, String.toList_append, spelling_append, spelling_spaced, List.append_assoc]
  rfl

theorem toList_commaSeparated_source (params : List Slot) :
    (commaSeparated (params.map Slot.source)).toList = spelling (paramsLexemes params) := by
  induction params with
  | nil => rfl
  | cons param params ih =>
    cases params with
    | nil => simpa [paramsLexemes, commaSeparated] using param.toList_source
    | cons next params =>
      simp only [paramsLexemes, List.map_cons, List.intercalate_cons_cons, commaSeparated] at ih ⊢
      simp [ih, param.toList_source]

/-- All lexemes of a function with an empty body. -/
def signatureLexemes (name : Name) (params : List Slot) (returned : Option TypeExpr) : List Lexeme :=
  lexemeOf "fn" :: (headerLexemes name params returned ++
    [operatorLexeme "\x7b", spaceLexeme, operatorLexeme "\x7d"])

theorem toList_signatureSource (name : Name) (params : List Slot) (returned : Option TypeExpr) :
    (signatureSource name params returned).toList = spelling (signatureLexemes name params returned) := by
  have result : (returnedSource returned).toList = spelling (returnedLexemes returned) := by
    cases returned with
    | none => rfl
    | some type =>
      simp only [returnedSource, returnedLexemes, String.toList_append, spelling_append, spelling_spaced]
      rfl
  simp [signatureSource, signatureLexemes, headerLexemes, toList_commaSeparated_source, result]

/-! ### Reading -/

section Reads

variable {words : List String} {lexemes : List Lexeme} {params : List Slot} {returned : Option TypeExpr}

theorem noBlank_spaced (nonempty : words ≠ []) (spellable : ∀ word ∈ words, Spellable word) (lexemes : List Lexeme) :
    EndsBefore isBlankChar (spelling (spaced words ++ lexemes)) := by
  obtain ⟨word, others, rfl⟩ := List.exists_cons_of_ne_nil nonempty
  obtain ⟨more, spelled⟩ := spelling_spaced_cons word others
  rw [spelling_append, spelled, List.append_assoc]
  exact (spellable word List.mem_cons_self).endsBefore _

theorem reads_word_spaced (spellable : Spellable word)
    (noBlank : EndsBefore isBlankChar (spelling lexemes)) (reads : Reads lexemes) :
    Reads ([lexemeOf word, spaceLexeme] ++ lexemes) :=
  ⟨spellable.readBefore (.inr ⟨spelling lexemes, rfl⟩), reads_space noBlank reads⟩

/-- Nothing can run into a parenthesis. -/
theorem reads_enclosed (paired : Paired words) (reads : Reads lexemes) :
    Reads (spaced (enclosed words) ++ lexemes) := by
  refine reads_spaced_append (Paired.group paired).spellable (fun word last => ?_) reads
  have closing : word = ")" := by
    rw [List.getLast?_concat] at last
    exact (Option.some.inj last).symm
  rw [closing, lexemeOf_operator (by decide)]
  exact operatorLexeme_readBefore (by decide) _

theorem reads_marked (member : mark ∈ spacedOperators) (paired : Paired words) (reads : Reads lexemes) :
    Reads ([lexemeOf mark, spaceLexeme] ++ (spaced (enclosed words) ++ lexemes)) := by
  refine reads_word_spaced (.inl member) (noBlank_spaced ?_ (Paired.group paired).spellable _)
    (reads_enclosed paired reads)
  simp

theorem Slot.Declarable.reads {slot : Slot} (declarable : slot.Declarable) (reads : Reads lexemes) :
    Reads (slot.lexemes ++ lexemes) := by
  rw [Slot.lexemes, List.append_assoc, List.append_assoc]
  refine reads_spaced_append (fun word member => .inr (declarable.front_spelled word member)) (fun word last => ?_)
    (reads_marked (by decide) declarable.canonical.denotes.paired reads)
  have spelled := declarable.front_spelled word (List.mem_of_getLast? last)
  rw [lexemeOf_word spelled]
  exact wordLexeme_readBefore spelled (by simp [isWordChar])

theorem Slot.Declarable.noBlank {slot : Slot} (declarable : slot.Declarable) (lexemes : List Lexeme) :
    EndsBefore isBlankChar (spelling (slot.lexemes ++ lexemes)) := by
  rw [Slot.lexemes, List.append_assoc]
  exact noBlank_spaced (by simp) (fun word member => .inr (declarable.front_spelled word member)) _

theorem reads_paramsLexemes (nonempty : params ≠ []) (declarable : ∀ param ∈ params, param.Declarable)
    (reads : Reads lexemes) :
    EndsBefore isBlankChar (spelling (paramsLexemes params ++ lexemes)) ∧ Reads (paramsLexemes params ++ lexemes) := by
  -- That no blank comes first is carried along: the space after a comma has to end before the next parameter.
  induction params with
  | nil => exact absurd rfl nonempty
  | cons param params ih =>
    obtain ⟨first, others⟩ := List.forall_mem_cons.1 declarable
    cases params with
    | nil =>
      simp only [paramsLexemes, List.map_cons, List.map_nil, List.intercalate_singleton]
      exact ⟨first.noBlank _, first.reads reads⟩
    | cons next params =>
      obtain ⟨noBlank, following⟩ := ih (by simp) others
      simp only [paramsLexemes, List.map_cons, List.intercalate_cons_cons, List.append_assoc] at noBlank following ⊢
      exact ⟨first.noBlank _, first.reads (reads_word_spaced (.inl (by decide)) noBlank following)⟩

theorem reads_signatureLexemes (name : Name) (nonempty : params ≠ [])
    (declarable : ∀ param ∈ params, param.Declarable) (canonical : ∀ type ∈ returned, type.Canonical) :
    Reads (signatureLexemes name params returned) := by
  have body : Reads ([spaceLexeme] ++ [operatorLexeme "\x7b", spaceLexeme, operatorLexeme "\x7d"]) := by
    refine reads_space (by simp [isBlankChar]) (reads_operator (by simp) (reads_space (by simp [isBlankChar]) ?_))
    exact reads_operator (by simp) trivial
  have result : Reads (returnedLexemes returned ++
      ([spaceLexeme] ++ [operatorLexeme "\x7b", spaceLexeme, operatorLexeme "\x7d"])) := by
    cases returned with
    | none => exact body
    | some type =>
      rw [returnedLexemes, List.append_assoc, List.append_assoc]
      refine reads_space ?_ (reads_marked (by decide) (canonical type rfl).denotes.paired body)
      simp [isBlankChar]
  obtain ⟨noBlank, following⟩ := reads_paramsLexemes nonempty declarable result
  have named := reads_word_spaced (.inr name.isWord) noBlank following
  have whole := reads_word_spaced (show Spellable "fn" from .inr (by decide)) ?_ named
  · simpa only [signatureLexemes, headerLexemes, List.append_assoc, List.cons_append, List.nil_append] using whole
  · rw [List.cons_append, spelling_cons, source_lexemeOf]
    exact Spellable.endsBefore (.inr name.isWord) _

end Reads

/-! ## Converting -/

theorem signatureText_ne_empty (name : Name) (params : List Slot) (returned : Option TypeExpr) :
    signatureText name params returned ≠ "" := by
  intro empty
  have length := congrArg (fun text => text.toList.length) empty
  simp [signatureText] at length

/-- Each parameter is written where it stands, with its own type and the word for how it is passed. -/
theorem convert_signature (settings : LayoutSettings) (name : Name) {params : List Slot} (nonempty : params ≠ [])
    (declarable : ∀ param ∈ params, param.Declarable) (returned : Option TypeExpr)
    (canonical : ∀ type ∈ returned, type.Canonical) :
    convert settings (signatureSource name params returned) =
      .ok (signatureText name params returned ++ " \x7b" ++ settings.lineEnding.text ++ "\x7d" ++
        settings.lineEnding.text) := by
  have read := tokenize_spelling (toList_signatureSource name params returned)
    (reads_signatureLexemes name nonempty declarable canonical)
  let start := 0 + byteLength (lexemeOf "fn").source
  obtain ⟨id', start', placed⟩ := exists_place_append 1 start (headerLexemes name params returned)
    [operatorLexeme "\x7b", spaceLexeme, operatorLexeme "\x7d"]
  have isFn : ((lexemeOf "fn").tokenAt 0 0).Is .keyword "fn" := ⟨by decide, by decide⟩
  have spells := carries_headerLexemes name params returned 1 start
  -- `fn` and the body are the same for every header, wherever they are placed.
  rw [signatureLexemes, place, placed] at read
  refine (convert_eq_ok_iff read).2 ⟨_, block_of_signature nonempty declarable canonical spells rfl rfl rfl isFn, ?_⟩
  exact render_signature settings _ (signatureText_ne_empty name params returned)

/-- The commas and the arrow of a function type are none of the signature. -/
theorem convert_signature_function :
    convert {} ("fn N ref immut a: ( fn : ( int ) , ( ( t ) ~ n : ( u ) ) => ( _ ) ), params b: ( ( int ) # )" ++
      " => ( Map - ( ( a ) ) / ( ( ( b ) ? ) ) ) \x7b \x7d") =
      .ok "Map<a, b?> N(ref readonly Action<int, (t, u n)> a, params int[] b) \x7b\r\n\x7d\r\n" := by
  let pair : TypeExpr := .plain (.tuple [.unnamed (.normal "t"), .named (.mk "n" (.normal "u") none)])
  let action : TypeExpr := .plain (.function [.mk "" (.normal "int") none, .mk "" pair none] (.normal "_"))
  let first : Slot := .mk "a" action (some .byReadonlyRef)
  let second : Slot := .mk "b" (.plain (.array (.normal "int"))) (some .asParams)
  let result : TypeExpr := .plain (.generics (.normal "Map") [.normal "a", .mk (.normal "b") [] true])
  have both {α : Type} {p : α → Prop} {a b : α} (left : p a) (right : p b) : ∀ x ∈ [a, b], p x :=
    List.forall_mem_cons.2 ⟨left, List.forall_mem_singleton.2 right⟩
  have pair_canonical : pair.Canonical := .tuple (.inl (by decide)) (both trivial ⟨by decide, by decide, rfl⟩)
    (both (.normal (by decide)) (.normal (by decide)))
  have action_canonical : action.Canonical := .function (both ⟨rfl, rfl⟩ ⟨rfl, rfl⟩)
    (both (.normal (by decide)) pair_canonical) (.normal (by decide))
  have declarable : ∀ param ∈ [first, second], param.Declarable :=
    both ⟨by decide, by decide, action_canonical⟩ ⟨by decide, by decide, .array (.normal (by decide))⟩
  have canonical : result.Canonical := .generics (by decide) (by simp)
    (both (.normal (by decide)) (.nullable (.normal (by decide))))
  have converted := convert_signature {} ⟨"N", by decide, by decide, by decide⟩ (by simp) declarable (some result)
    (by simpa using canonical)
  have source : signatureSource ⟨"N", by decide, by decide, by decide⟩ [first, second] (some result) =
      "fn N ref immut a: ( fn : ( int ) , ( ( t ) ~ n : ( u ) ) => ( _ ) ), params b: ( ( int ) # )" ++
        " => ( Map - ( ( a ) ) / ( ( ( b ) ? ) ) ) \x7b \x7d" := by decide +kernel +zetaReduce
  have text : signatureText ⟨"N", by decide, by decide, by decide⟩ [first, second] (some result) =
      "Map<a, b?> N(ref readonly Action<int, (t, u n)> a, params int[] b)" := by decide +kernel +zetaReduce
  rw [source, text] at converted
  exact converted

end Sharp
