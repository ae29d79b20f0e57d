import Sharp.Proofs.Annotation
import Sharp.Proofs.DeclaredTypes

/-!
# The types of properties

A text that is a type on its own is the same type in the declaration of a property, unless an arrow
stands outside its parentheses.  The header of a property ends at the first arrow, and what stands in
front of the arrow of a function type is no type.

* `convert_property_of_parse`: the properties with a type that a text spells.
-/

namespace Sharp

open Token TypeExpr

variable {kind : AccessorKind} {after rest tokens : List Token} {accessors : List PropAccessor}
  {semicolon close space₁ space₂ space₃ getToken setToken semicolon₁ semicolon₂ : Token}
  {operator first second text : String}

/-! ## Headers -/

section Properties

variable {keyword : String} {name : Name} {t space nameToken colon opening : Token} {ts : List Token}
  {type : TypeExpr}

theorem splitTopAt_congr {p q : Token → Bool} (same : ∀ t ∈ ts, p t = q t) (depth : Nat) :
    splitTopAt p depth ts = splitTopAt q depth ts := by
  induction ts generalizing depth with
  | nil => rfl
  | cons t ts ih =>
    obtain ⟨first, others⟩ := List.forall_mem_cons.1 same
    simp only [splitTopAt, first, ih others]

/-- In a type, the search for the end of the header finds arrows only. -/
theorem splitTopAt_header (types : TypeTokens 0 (significant ts)) :
    splitTopAt (fun t => t.isOp "@" || t.startsPropBody) 0 ts = splitTopAt (·.isOp "=>") 0 ts := by
  refine splitTopAt_congr (fun t member => ?_) 0
  have known := isTypeText_of_significant types t member
  by_cases operator : t.category = .operator
  · have listed : t.text ∈ typeOperators := by
      simpa [isTypeText, isTypeToken, isTrivia, isWord, isOpIn, operator] using known
    have only : ∀ text ∈ typeOperators,
        (text == "@" || ["\x7b", "=>", "=", ";"].contains text) = (text == "=>") := by decide
    simpa [isOp, startsPropBody, isOpIn, operator] using only _ listed
  · have no : (t.category == .operator) = false := by simpa using operator
    simp [isOp, startsPropBody, isOpIn, no]

section

variable (head : Declared keyword name t space nameToken colon)
include head

theorem readPropName_declared (rest : List Token) :
    (readPropName t (space :: nameToken :: colon :: rest)).Gives ⟨(nameToken, colon), rest⟩ := by
  have isWord := isWord_of_isNameLike head.isNameLike
  have colon_is := head.colon
  rw [isOp_iff] at colon_is
  have toName : skipTrivia (space :: nameToken :: colon :: rest) = nameToken :: colon :: rest := by
    simp [skipTrivia, head.space, isTrivia_of_isWord isWord]
  have toColon : skipTrivia (colon :: rest) = colon :: rest := by
    simp [skipTrivia, isTrivia, colon_is.1]
  simp only [readPropName, toName, toColon, head.isNameLike, head.colon]
  exact .note_bind (.note_bind (.pure _))

theorem readProp_declared
    (isBrace : opening.isOp "\x7b" = true) (whole : (readWhole colon (significant ts)).Gives type)
    (noArrow : hasTop (·.isOp "=>") ts = false) (body : List Token) :
    (readProp .root {} t (space :: nameToken :: colon :: ts ++ opening :: body)).Gives
      ⟨⟨none, type, nameToken⟩, [], opening, body⟩ := by
  have types := typeTokens_of_gives whole
  have closed : depthAfter 0 ts = some 0 := by rw [← depthAfter_significant, types.closed]
  rw [isOp_iff] at isBrace
  have found : (opening.isOp "@" || opening.startsPropBody) = true := by
    simp [isOp, startsPropBody, isOpIn, isBrace]
  have noMark : opening.isOp "@" = false := by simp [isOp, isBrace]
  have access : (readPropAccess nameToken ⟨ts, opening, body⟩).Gives ([], opening, body) := by
    simp only [readPropAccess, noMark]
    exact .pure _
  unfold readProp
  refine .note_bind (.bind (.pure _) (.bind (readPropName_declared head (ts ++ opening :: body)) ?_))
  have missed : splitTopAt (fun t => t.isOp "@" || t.startsPropBody) 0 ts = none := by
    rw [splitTopAt_header types]
    simpa [hasTop, splitTop] using noArrow
  rw [splitTop_append missed closed found]
  exact .bind whole (.bind access (.pure _))

/-- In front of the first arrow outside all parentheses, there is no type. -/
theorem readProp_arrow (whole : (readWhole colon (significant ts)).Gives type)
    (reserved : FnReserved (significant ts)) (arrow : hasTop (·.isOp "=>") ts = true)
    (rest : List Token) :
    (readProp .root {} t (space :: nameToken :: colon :: ts ++ rest)).Fails := by
  have types := typeTokens_of_gives whole
  obtain ⟨s, split⟩ := Option.isSome_iff_exists.1 arrow
  have isArrow := found_of_splitTopAt split
  have parts := eq_of_splitTop split
  have noTrivia : s.found.isTrivia = false := by
    rw [isOp_iff] at isArrow
    simp [isTrivia, isArrow.1]
  have meaning : significant ts = significant s.before ++ s.found :: significant s.after := by
    rw [parts]
    simp [significant, noTrivia]
  have noType : (readWhole colon (significant s.before)).Fails := by
    cases read : readWhole colon (significant s.before) with
    | fail fault => exact ⟨fault, rfl⟩
    | done type notes =>
      rw [meaning] at types reserved
      exact absurd (typeTokens_of_gives ⟨notes, read⟩) (types.not_before_arrow reserved isArrow)
  have ends : splitTop (fun t => t.isOp "@" || t.startsPropBody) (ts ++ rest) =
      some ⟨s.before, s.found, s.after ++ rest⟩ := by
    refine splitTopAt_append_of_found ?_ rest
    rw [splitTopAt_header types]
    exact split
  unfold readProp
  refine Reading.Gives.bind_fails ⟨_, rfl⟩ (Reading.Gives.bind_fails (.pure _)
    ((readPropName_declared head (ts ++ rest)).bind_fails ?_))
  rw [ends]
  exact noType.bind

end

theorem AccessorKind.isKeyword_of_ofToken (known : AccessorKind.ofToken? t = some kind) :
    t.isKeyword kind.text = true := by
  unfold AccessorKind.ofToken? at known
  split at known
  · next isGet => cases known; exact isGet
  · split at known
    · next isSet => cases known; exact isSet
    · split at known
      · next isInit => cases known; exact isInit
      · cases known

theorem readPropAccessor_auto (known : AccessorKind.ofToken? t = some kind)
    (allowed : kind.checkAfter t (accessors.map PropAccessor.kind) = .ok ())
    (isSemicolon : semicolon.isOp ";" = true) :
    (readPropAccessor after accessors t (semicolon :: rest)).Gives ⟨⟨kind, false, [], .auto⟩, rest⟩ := by
  have isKeyword := AccessorKind.isKeyword_of_ofToken known
  have noImmut : t.isKeyword "immut" = false := by
    simp only [Token.isKeyword, Bool.and_eq_true, beq_iff_eq] at isKeyword
    cases kind <;> simp [Token.isKeyword, isKeyword.2, AccessorKind.text]
  have immut : (readAccessorImmut t (semicolon :: rest)).Gives (false, t, semicolon :: rest) := by
    simp only [readAccessorImmut, noImmut]
    exact .pure _
  have semicolon_is := isSemicolon
  rw [isOp_iff] at semicolon_is
  have access : (readAccessorAccess (semicolon :: rest)).Gives ⟨[], semicolon :: rest⟩ := by
    have skipped : skipTrivia (semicolon :: rest) = semicolon :: rest := by
      simp [skipTrivia, isTrivia, semicolon_is.1]
    have noMark : semicolon.isOp "@" = false := by simp [isOp, semicolon_is]
    simp only [readAccessorAccess, skipped, noMark]
    exact .pure _
  have body : (readAccessorBody t after (semicolon :: rest)).Gives ⟨.auto, rest⟩ := by
    simp only [readAccessorBody, isSemicolon, if_true]
    exact .pure _
  unfold readPropAccessor
  refine .bind immut ?_
  simp only [known, allowed]
  exact .note_bind (.bind access (.bind body (.pure _)))

/-- The lexemes of a property without bodies, after its type. -/
def autoAccessors : List Lexeme :=
  [operatorLexeme "\x7b", spaceLexeme, word "get", operatorLexeme ";", spaceLexeme, word "set",
    operatorLexeme ";", spaceLexeme, operatorLexeme "\x7d"]

theorem readPropAccessorRound_space (trivia : t.isTrivia = true) :
    (readPropAccessorRound after accessors t rest).Gives (.next accessors rest) := by
  simp only [readPropAccessorRound, trivia, if_true]
  exact .pure _

theorem readPropAccessorRound_auto (known : AccessorKind.ofToken? t = some kind)
    (allowed : kind.checkAfter t (accessors.map PropAccessor.kind) = .ok ())
    (isSemicolon : semicolon.isOp ";" = true) :
    (readPropAccessorRound after accessors t (semicolon :: rest)).Gives
      (.next (accessors ++ [⟨kind, false, [], .auto⟩]) rest) := by
  have isWord := isWord_of_isKeyword (AccessorKind.isKeyword_of_ofToken known)
  simp only [readPropAccessorRound, isTrivia_of_isWord isWord]
  exact .bind (readPropAccessor_auto known allowed isSemicolon) (.pure _)

/-- The tokens of accessors without bodies, up to the closing brace. -/
structure AutoAccessors (space₁ getToken semicolon₁ space₂ setToken semicolon₂ space₃ close : Token) : Prop where
  getToken : getToken.Is .contextKeyword "get"
  setToken : setToken.Is .contextKeyword "set"
  semicolon₁ : semicolon₁.Is .operator ";"
  semicolon₂ : semicolon₂.Is .operator ";"
  space₁ : space₁.category = .space
  space₂ : space₂.category = .space
  space₃ : space₃.category = .space
  close : close.Is .operator "\x7d"

theorem exists_place_autoAccessors (id start : Nat) :
    ∃ brace space₁ getToken semicolon₁ space₂ setToken semicolon₂ space₃ close, place id start autoAccessors =
        [brace, space₁, getToken, semicolon₁, space₂, setToken, semicolon₂, space₃, close] ∧
      brace.isOp "\x7b" = true ∧
      AutoAccessors space₁ getToken semicolon₁ space₂ setToken semicolon₂ space₃ close := by
  have getWord : (word "get").category = .contextKeyword := by decide
  have setWord : (word "set").category = .contextKeyword := by decide
  exact ⟨_, _, _, _, _, _, _, _, _, rfl, rfl, ⟨getWord, text_word _⟩, ⟨setWord, text_word _⟩, ⟨rfl, rfl⟩,
    ⟨rfl, rfl⟩, rfl, rfl, rfl, ⟨rfl, rfl⟩⟩

theorem convertPropBlock_auto (inner : Converters) (header : PropHeader) (brace : Token)
    (auto : AutoAccessors space₁ getToken semicolon₁ space₂ setToken semicolon₂ space₃ close) :
    (convertPropBlock inner .root header [] brace
      [space₁, getToken, semicolon₁, space₂, setToken, semicolon₂, space₃, close]).Produces []
      [.raw (header.text []), .raw " \x7b get; set; \x7d", .lineBreak] := by
  obtain ⟨get_is, set_is, semicolon₁_is, semicolon₂_is, space₁_is, space₂_is, space₃_is, close_is⟩ := auto
  have split : splitClose .brace [space₁, getToken, semicolon₁, space₂, setToken, semicolon₂, space₃, close] =
      some ⟨[space₁, getToken, semicolon₁, space₂, setToken, semicolon₂, space₃], close, []⟩ := by
    simp [splitClose, splitCloseAt, BracketForm.opener, BracketForm.closer, isOp, space₁_is,
      space₂_is, space₃_is, get_is.1, set_is.1, semicolon₁_is.1, semicolon₁_is.2, semicolon₂_is.1,
      semicolon₂_is.2, close_is.1, close_is.2, Split.cons]
  have isGet : AccessorKind.ofToken? getToken = some .get := by
    simp [AccessorKind.ofToken?, isKeyword, get_is.1, get_is.2]
  have isSet : AccessorKind.ofToken? setToken = some .set := by
    simp [AccessorKind.ofToken?, isKeyword, set_is.1, set_is.2]
  have blank {t : Token} (category : t.category = .space) : t.isTrivia = true := by
    simp [isTrivia, category]
  have accessors : (readPropAccessors [close]
      [space₁, getToken, semicolon₁, space₂, setToken, semicolon₂, space₃]).Gives
      [⟨.get, false, [], .auto⟩, ⟨.set, false, [], .auto⟩] :=
    .walk (readPropAccessorRound_space (blank space₁_is)) (by simp)
      (.walk (readPropAccessorRound_auto isGet rfl semicolon₁_is.isOp) (by simp)
      (.walk (readPropAccessorRound_space (blank space₂_is)) (by simp)
      (.walk (readPropAccessorRound_auto isSet rfl semicolon₂_is.isOp) (by simp)
      (.walk (readPropAccessorRound_space (blank space₃_is)) (by simp)
      (by rw [walk_nil]; exact .pure _)))))
  unfold convertPropBlock
  simp only [split]
  refine .bind (.ofReading accessors) (.bind (.ofReading (.pure _)) ?_)
  exact .bind (.emit _) (.bind (.emit _) (.bind (.emit _) (.pure _)))

theorem convertStatement_prop {inner : Converters} {scope : Scope} {pending : Modifiers}
    (t_is : t.Is .keyword "prop") :
    convertStatement inner scope pending t rest = plainStatement (convertProp inner scope pending t rest) := by
  obtain ⟨category, text⟩ := t_is
  simp [convertStatement, convertKeywordStatement, isOp, category, text]

theorem convertProp_declared (inner : Converters) (id start : Nat)
    (head : Declared keyword name t space nameToken colon)
    (whole : (readWhole colon (significant ts)).Gives type)
    (noArrow : hasTop (·.isOp "=>") ts = false) :
    (convertProp inner .root {} t (space :: nameToken :: colon :: ts ++ place id start autoAccessors)).Produces []
      [.raw (type.render .plain ++ " " ++ name.text), .raw " \x7b get; set; \x7d", .lineBreak] := by
  obtain ⟨brace, _, _, _, _, _, _, _, _, placed, isBrace, auto⟩ := exists_place_autoAccessors id start
  have header := readProp_declared head isBrace whole noArrow
  have block := convertPropBlock_auto inner ⟨none, type, nameToken⟩ brace auto
  rw [isOp_iff] at isBrace
  have noLambda : brace.isOp "=>" = false := by simp [isOp, isBrace]
  have opens : brace.isOp "\x7b" = true := by simp [isOp, isBrace]
  rw [placed, ← head.name.2]
  unfold convertProp
  refine .bind (.ofReading (header _)) ?_
  simp only [noLambda, opens]
  exact block

theorem hasTop_moved {shift : Shift} (meaning : significant ts = (significant tokens).map (Token.moved shift)) :
    hasTop (·.isOp operator) tokens = hasTop (·.isOp operator) ts := by
  rw [← hasTop_isOp_significant, ← hasTop_isOp_significant operator ts, meaning]
  rw [hasTop, hasTop, splitTop, splitTop, splitTopAt_moved (fun _ => rfl), Option.isSome_map]

theorem reads_autoAccessors : Reads autoAccessors := by
  refine reads_operator (by simp) (reads_space ?_ (reads_word (by decide) ?_ (reads_operator (by simp)
    (reads_space ?_ (reads_word (by decide) ?_ (reads_operator (by simp) (reads_space ?_
    (reads_operator (by simp) trivial))))))))
  all_goals simp [isBlankChar, isWordChar]

end Properties

theorem render_layout_raw_break {settings : LayoutSettings} (first_ne : first ≠ "") (second_ne : second ≠ "") :
    render settings (layout [.raw first, .raw second, .lineBreak]) =
      first ++ second ++ settings.lineEnding.text := by
  simp [layout, layoutAfter, render, Piece.raw, Piece.isBlank, Piece.items, Piece.spacing, first_ne,
    second_ne, List.dropWhile_cons, Item.isBreak, Item.render, concat, needsSpace]

theorem fnReserved_of_tokenize (read : tokenize text = .ok tokens) : FnReserved tokens := by
  intro t member isName
  have given := givenRole_of_tokenize read t member
  have unknown : contextKeywordRole? "fn" = none := by decide
  refine Bool.eq_false_iff.2 fun isFn => ?_
  simp only [isKeyword, Bool.and_eq_true, beq_iff_eq] at isFn
  unfold isNameLike at isName
  cases category : t.category <;> simp_all [GivenRole]

/-- A property can have any type that a text spells, unless an arrow stands outside its parentheses. -/
theorem convert_property_of_parse {text : String} {type : TypeExpr} {tokens : List Token}
    (parsed : TypeExpr.parse text = .ok type) (read : tokenize text = .ok tokens) (name : Name)
    (newline : Newline) (settings : LayoutSettings) :
    if hasTop (·.isOp "=>") tokens then
      ∃ fault, convert settings
        ("prop " ++ name.text ++ ": " ++ text ++ newline.text ++ "\x7b get; set; \x7d") = .error fault
    else
      convert settings ("prop " ++ name.text ++ ": " ++ text ++ newline.text ++ "\x7b get; set; \x7d") =
        .ok (type.render .plain ++ " " ++ name.text ++ " \x7b get; set; \x7d" ++ settings.lineEnding.text) := by
  obtain ⟨tokens', before, notes, read', whole⟩ := readWhole_of_parse parsed
  cases read.symm.trans read'
  obtain ⟨t, space, nameToken, colon, ts, id, start, shift, head, tokenized, meaning, whole⟩ :=
    exists_declared read whole newline "prop" (by decide) (by decide) name reads_autoAccessors
      (by simp [autoAccessors])
  rw [hasTop_moved meaning]
  split
  · next arrow =>
    have reserved : FnReserved (significant ts) := by
      rw [meaning]
      intro t member
      obtain ⟨t, original, rfl⟩ := List.mem_map.1 member
      exact fnReserved_of_tokenize read t (List.mem_filter.1 original).1
    obtain ⟨fault, failed⟩ := Logged.Fails.bind (.bind (.ofReading (readProp_arrow head whole reserved arrow _)))
    exact ⟨fault, convert_of_statement_fails tokenized head.keyword.1
      ((convertStatement_prop head.keyword).trans failed) settings⟩
  · next noArrow =>
    have converted (inner : Converters) : (convertStatement inner .root {} t
        (space :: nameToken :: colon :: ts ++ place id start autoAccessors)).Produces ⟨{}, []⟩
        [.raw (type.render .plain ++ " " ++ name.text), .raw " \x7b get; set; \x7d", .lineBreak] := by
      rw [convertStatement_prop head.keyword, ← TypeExpr.render_moved shift]
      exact .bind (convertProp_declared inner id start head whole (by simpa using noArrow)) (.pure _)
    have result := convert_of_statement tokenized head.keyword.1 converted rfl settings
    rw [render_layout_raw_break (by simp) (by simp)] at result
    exact result

/-- The arrow of this type is in parentheses; the one in the comment is none. -/
theorem convert_property_of_parse_group :
    ∃ type tokens, TypeExpr.parse "// c\r(fn: (a ~ b)?, c => List-(d/e))# /* => */" = .ok type ∧
      tokenize "// c\r(fn: (a ~ b)?, c => List-(d/e))# /* => */" = .ok tokens ∧
      convert {} "prop X: // c\r(fn: (a ~ b)?, c => List-(d/e))# /* => */\n\x7b get; set; \x7d" =
        .ok "Func<(a, b)?, c, List<d, e>>[] X \x7b get; set; \x7d\r\n" := by
  obtain ⟨type, parsed, text⟩ : ∃ type,
      TypeExpr.parse "// c\r(fn: (a ~ b)?, c => List-(d/e))# /* => */" = .ok type ∧
      type.render .plain = "Func<(a, b)?, c, List<d, e>>[]" := exists_of_toOption (by decide +kernel)
  obtain ⟨tokens, read, grouped⟩ : ∃ tokens,
      tokenize "// c\r(fn: (a ~ b)?, c => List-(d/e))# /* => */" = .ok tokens ∧
      hasTop (·.isOp "=>") tokens = false := exists_of_toOption (by decide +kernel)
  have converted := convert_property_of_parse parsed read ⟨"X", by decide, by decide, by decide⟩ .lf {}
  rw [grouped, text] at converted
  exact ⟨type, tokens, parsed, read, converted⟩

/-- The header of this property ends in front of the arrow. -/
theorem property_arrow_refused :
    (∃ type, TypeExpr.parse "fn: int => int" = .ok type ∧ type.render .plain = "Func<int, int>") ∧
      convert {} "prop X: fn: int => int\n\x7b get; set; \x7d" = .error ⟨.missing .returnedType, some ⟨12, 3⟩⟩ :=
  ⟨exists_of_toOption (by decide +kernel), eq_error_of_swap (by decide +kernel)⟩

end Sharp
