import Sharp.Proofs.StructuredTokens
import Sharp.Proofs.Written

/-!
# The parts of structured statements

The expressions and the lines of structured statements, and the blocks in braces: where a block ends,
and what is written for it.
-/

namespace Sharp

open Token

variable {text : String} {name : Name} {newline : Newline}
  {t opening semicolon space space' f closing x fence : Token} {ts rest after header : List Token}
  {pieces : List Piece} {isConst : Bool} {notes : List Note} {before middle : Option Spacing}
  {id start outer : Nat} {inner : Converters} {scope : Scope} {settings : LayoutSettings}
  {more body : List Lexeme}

/-! ## Lexemes as tokens -/

@[simp] theorem text_tokenAt (lexeme : Lexeme) (id start : Nat) : (lexeme.tokenAt id start).text = lexeme.text :=
  rfl

@[simp] theorem category_tokenAt (lexeme : Lexeme) (id start : Nat) :
    (lexeme.tokenAt id start).category = lexeme.category :=
  rfl

@[simp] theorem text_word (text : String) : (word text).text = text := by
  unfold word wordLexeme
  split
  · simp [Lexeme.verbatim]
  · split <;> simp [Lexeme.verbatim]

@[simp] theorem Name.text_lexeme (name : Name) : name.lexeme.text = name.text := text_word _

@[simp] theorem Name.category_lexeme (name : Name) : name.lexeme.category = .identifier := by
  simp [Name.lexeme, word, wordLexeme, name.unreserved, name.contextFree, Lexeme.verbatim]

theorem Name.text_ne_empty (name : Name) : name.text ≠ "" := by
  intro empty
  have := name.isWord
  rw [empty] at this
  exact absurd this (by decide)

theorem category_word (reserved : (keywordRole? text).isSome = true) : (word text).category = .keyword := by
  obtain ⟨role, reserved⟩ := Option.isSome_iff_exists.1 reserved
  simp [word, wordLexeme, reserved, Lexeme.verbatim]

@[simp] theorem text_operatorLexeme (text : String) : (operatorLexeme text).text = text := rfl

@[simp] theorem category_operatorLexeme (text : String) : (operatorLexeme text).category = .operator :=
  rfl

@[simp] theorem category_spaceLexeme : spaceLexeme.category = .space := rfl

@[simp] theorem Newline.category_lexeme (newline : Newline) : newline.lexeme.category = .lineBreak :=
  rfl

/-! ## Braces -/

/-- The search for a closing brace passes over the lexemes. -/
def Nested (lexemes : List Lexeme) : Prop :=
  ∀ id start depth ts, splitCloseAt .brace depth (place id start lexemes ++ ts) =
    (splitCloseAt .brace depth ts).map (Split.prepend (place id start lexemes))

theorem Nested.nil : Nested [] := by
  intro id start depth ts
  cases h : splitCloseAt .brace depth ts <;> simp [place, h, Split.prepend]

theorem Nested.append {lexemes : List Lexeme} (front : Nested lexemes) (back : Nested more) :
    Nested (lexemes ++ more) := by
  intro id start depth ts
  obtain ⟨id', start', placed⟩ := exists_place_append id start lexemes more
  rw [placed, List.append_assoc, front, back, Option.map_map]
  congr 1
  funext s
  simp [Split.prepend]

theorem Nested.cons {lexeme : Lexeme} {lexemes : List Lexeme}
    (other : lexeme.category ≠ .operator ∨ (lexeme.text ≠ "\x7b" ∧ lexeme.text ≠ "\x7d"))
    (nested : Nested lexemes) : Nested (lexeme :: lexemes) := by
  intro id start depth ts
  have opener : (lexeme.tokenAt id start).isOp "\x7b" = false := by
    rcases other with other | other <;> simp [isOp, other]
  have closer : (lexeme.tokenAt id start).isOp "\x7d" = false := by
    rcases other with other | other <;> simp [isOp, other]
  simp only [place, List.cons_append, splitCloseAt, BracketForm.opener, BracketForm.closer, opener,
    closer, nested _ _ depth ts]
  rw [if_neg (by simp), if_neg (by simp), Option.map_map]
  rfl

theorem Nested.guarded {lexemes : List Lexeme} (other : text ≠ "\x7b" ∧ text ≠ "\x7d") (nested : Nested lexemes) :
    Nested (word text :: spaceLexeme :: name.lexeme :: spaceLexeme :: lexemes) := by
  refine .cons (.inr (by simpa using other)) (.cons (.inl (by simp)) ?_)
  exact .cons (.inl (by simp)) (.cons (.inl (by simp)) nested)

theorem place_braced (newline : Newline) (body more : List Lexeme) (id start : Nat) :
    ∃ id₁ start₁ id₂ start₂ id₃ start₃, place id start (braced newline body more) =
      (operatorLexeme "\x7b").tokenAt id start :: (place id₁ start₁ (newline.lexeme :: body) ++
        (operatorLexeme "\x7d").tokenAt id₂ start₂ :: place id₃ start₃ (newline.lexeme :: more)) := by
  obtain ⟨id₂, start₂, placed⟩ := exists_place_append (id + 1)
    (start + byteLength (operatorLexeme "\x7b").source) (newline.lexeme :: body)
    (operatorLexeme "\x7d" :: newline.lexeme :: more)
  exact ⟨_, _, id₂, start₂, _, _, congrArg ((operatorLexeme "\x7b").tokenAt id start :: ·) placed⟩

theorem Nested.braced {newline : Newline} {body more : List Lexeme} (body_nested : Nested body)
    (more_nested : Nested more) : Nested (braced newline body more) := by
  intro id start depth ts
  have inside : Nested (newline.lexeme :: body) := .cons (.inl (by simp)) body_nested
  have after : Nested (newline.lexeme :: more) := .cons (.inl (by simp)) more_nested
  obtain ⟨id₁, start₁, id₂, start₂, id₃, start₃, placed⟩ := place_braced newline body more id start
  have opens : ((operatorLexeme "\x7b").tokenAt id start).isOp "\x7b" = true := rfl
  have closes : ((operatorLexeme "\x7d").tokenAt id₂ start₂).isOp "\x7d" = true := rfl
  have other : ((operatorLexeme "\x7d").tokenAt id₂ start₂).isOp "\x7b" = false := rfl
  rw [placed, List.cons_append, List.append_assoc]
  simp only [splitCloseAt, BracketForm.opener, BracketForm.closer, opens, if_true, inside _ _,
    List.cons_append, closes, other, Bool.false_eq_true, if_false, after _ _]
  simp only [Option.map_map]
  congr 1
  funext s
  simp [Split.prepend, Split.cons]

/-- The block in braces in front of some lexemes. -/
theorem splitClose_braced (nested : Nested body) (id start : Nat) (closing : Token)
    (closes : closing.isOp "\x7d" = true) (after : List Token) :
    splitClose .brace (place id start (newline.lexeme :: body) ++ closing :: after) =
      some ⟨place id start (newline.lexeme :: body), closing, after⟩ := by
  have inside : Nested (newline.lexeme :: body) := .cons (.inl (by simp)) nested
  have text : closing.category = .operator ∧ closing.text = "\x7d" := by
    simpa [isOp] using closes
  rw [splitClose, inside]
  simp [splitCloseAt, BracketForm.opener, BracketForm.closer, isOp, text, Split.prepend]

section Trees

mutual

theorem Stmt.nested : (stmt : Stmt) → Nested (stmt.lexemes newline)
  | .call f => by
    refine .cons (.inl (by simp)) (.cons (.inr (by simp)) (.cons (.inr (by simp)) ?_))
    exact .cons (.inr (by simp)) (.cons (.inl (by simp)) .nil)
  | .leave => .cons (.inr (by simp)) (.cons (.inr (by simp)) (.cons (.inl (by simp)) .nil))
  | .give x => by
    refine .cons (.inr (by simp)) (.cons (.inl (by simp)) (.cons (.inl (by simp)) ?_))
    exact .cons (.inr (by simp)) (.cons (.inl (by simp)) .nil)
  | .branch condition body others =>
    Nested.guarded (by simp) (.braced (stmtsLexemes_nested body) others.nested)
  | .loop condition body =>
    Nested.guarded (by simp) (.braced (stmtsLexemes_nested body) .nil)
  | .each element collection body => by
    refine .cons (.inr (by simp)) (.cons (.inl (by simp)) (.cons (.inl (by simp)) ?_))
    refine .cons (.inl (by simp)) (Nested.guarded (by simp) ?_)
    exact .braced (stmtsLexemes_nested body) .nil
  | .attempt body cleanup => by
    refine .cons (.inr (by simp)) (.cons (.inl (by simp)) (.braced (stmtsLexemes_nested body) ?_))
    refine .cons (.inr (by simp)) (.cons (.inl (by simp)) ?_)
    exact .braced (stmtsLexemes_nested cleanup) .nil

theorem Branches.nested : (branches : Branches) → Nested (branches.lexemes newline)
  | .nothing => .nil
  | .last body =>
    .cons (.inr (by simp)) (.cons (.inl (by simp)) (.braced (stmtsLexemes_nested body) .nil))
  | .link true condition body others =>
    Nested.guarded (by simp) (.braced (stmtsLexemes_nested body) others.nested)
  | .link false condition body others => by
    refine .cons (.inr (by simp)) (.cons (.inl (by simp)) (Nested.guarded (by simp) ?_))
    exact .braced (stmtsLexemes_nested body) others.nested

theorem stmtsLexemes_nested : (stmts : List Stmt) → Nested (stmtsLexemes newline stmts)
  | [] => .nil
  | stmt :: stmts => stmt.nested.append (stmtsLexemes_nested stmts)

end

end Trees

/-! ## Expressions -/

section Expressions

/-- The token has the given category and text. -/
def Token.Is (t : Token) (category : Category) (text : String) : Prop :=
  t.category = category ∧ t.text = text

instance (t : Token) (category : Category) (text : String) : Decidable (t.Is category text) :=
  inferInstanceAs (Decidable (_ ∧ _))

theorem Token.Is.isOp (is : t.Is .operator text) : t.isOp text = true := by
  simp [Token.isOp, is.1, is.2]

theorem Name.tokenAt_is (name : Name) (id start : Nat) : (name.lexeme.tokenAt id start).Is .identifier name.text :=
  ⟨name.category_lexeme, name.text_lexeme⟩

theorem convertExpression_call (f_is : f.Is .identifier text)
    (opening_is : opening.Is .operator "(") (closing_is : closing.Is .operator ")")
    (semicolon_is : semicolon.Is .operator ";") :
    convertExpression inner { mode := .statement, scope } (f :: opening :: closing :: semicolon :: rest) =
      .done ⟨⟨[.word text, .code "(" .opening, .code ")" .closing], false⟩, semicolon :: rest⟩ [] := by
  obtain ⟨f_category, f_text⟩ := f_is
  obtain ⟨opening_category, opening_text⟩ := opening_is
  obtain ⟨closing_category, closing_text⟩ := closing_is
  obtain ⟨semicolon_category, semicolon_text⟩ := semicolon_is
  simp [convertExpression, walk_cons, convertToken, f_category, f_text, opening_category,
    semicolon_category, closing_category, convertOperator, opening_text, semicolon_text, closing_text, convertGroup,
    splitClose, splitCloseAt, isOp, BracketForm.opener, BracketForm.closer, isDoubled,
    skipTrivia, Converters.expression, Logged.after, Log.append, Log.none, Frame.stopAt,
    Frame.finish, Frame.closeTuple, Frame.start, Frame.word, Frame.operator, Frame.vary, Frame.push,
    Frame.addInner, Frame.append, operatorSpacing]

/-- A `return` with a name after it, or with nothing. -/
theorem convertExpression_return {word : Token} (names : List Token) (word_is : word.Is .keyword "return")
    (given : names = [] ∧ pieces = [] ∨ ∃ space x text, names = [space, x] ∧ space.category = .space ∧
      x.Is .identifier text ∧ pieces = [.word text]) (semicolon_is : semicolon.Is .operator ";") :
    convertExpression inner { mode := .statement, scope } (word :: (names ++ semicolon :: rest)) =
      .done ⟨⟨.keyword "return" :: pieces, false⟩, semicolon :: rest⟩ [⟨word, .keyword .expr⟩] := by
  obtain ⟨word_category, word_text⟩ := word_is
  obtain ⟨semicolon_category, semicolon_text⟩ := semicolon_is
  have role : word.vocabularyRole? = some (.keyword .expr) := by
    simp only [vocabularyRole?, word_category, word_text]
    decide
  rcases given with ⟨rfl, rfl⟩ | ⟨space, x, text, rfl, space_is, ⟨x_category, x_text⟩, rfl⟩ <;>
  simp [convertExpression, walk_cons, convertToken, convertKeyword, isLiteral, isCopiedLiteral,
    startsStatement, statementWords, methodWords, Token.keywordRole?, convertPlainKeyword, note,
    Logged.tell, convertOperator, Logged.after, Log.append, Log.none, Frame.stopAt, Frame.finish,
    Frame.closeTuple, Frame.start, Frame.keyword, Frame.vary, Frame.push, Frame.markSegment,
    Frame.markParams, Frame.word, *]

/-- A name with spaces around it, as the headers of control flow have it. -/
theorem convertExpression_name {place : Place} {name : Token} (space_is : space.category = .space)
    (name_is : name.Is .identifier text)
    (space'_is : space'.category = .space) :
    convertExpression inner place [space, name, space'] = .done ⟨⟨[.word text], false⟩, []⟩ [] := by
  obtain ⟨name_category, name_text⟩ := name_is
  simp [convertExpression, walk_cons, convertToken, space_is, name_category, name_text, space'_is, Logged.after,
    Log.append, Log.none, Frame.finish, Frame.closeTuple, Frame.start, Frame.vary, Frame.push,
    Frame.word]

end Expressions

/-! ## Lines -/

section Lines

theorem convertRightSide_writes (converted : inner.expression { mode := .statement, scope } ts =
      .done ⟨⟨pieces, isConst⟩, semicolon :: rest⟩ notes)
    (semicolon_is : semicolon.Is .operator ";") (nonempty : pieces ≠ [])
    (laid : Lays settings before pieces text middle) :
    (convertRightSide inner scope t ts).Writes settings ⟨isConst, rest⟩ before
      (text ++ (";" ++ settings.lineEnding.text)) none := by
  have ending : Lays settings middle [.raw ";", .lineBreak] (";" ++ settings.lineEnding.text) none :=
    (lays_raw (by simp)).append lays_lineBreak
  refine ⟨⟨pieces ++ [Piece.raw ";", .lineBreak], notes⟩, ?_, laid.append ending⟩
  unfold convertRightSide
  rw [converted]
  change (if (!semicolon.isOp ";") = true then _ else _ : Draft _).after ⟨[], notes⟩ = _
  simp [semicolon_is.isOp, nonempty, emit, Logged.tell, Logged.after, Log.append, Log.none]

theorem lays_word (name : Name) (tight : before.any (needsSpace · .word) = false) :
    Lays settings before [.word name.text] name.text (some .word) := by
  refine lays_piece ?_ ?_
  · simp [Piece.word, Piece.isBlank, name.text_ne_empty]
  · simp [Piece.word, Piece.spacing, tight, Piece.items, concat, Item.render]

theorem lays_spaced_word (name : Name) (spaced : before.any (needsSpace · .word) = true) :
    Lays settings before [.word name.text] (" " ++ name.text) (some .word) := by
  refine lays_piece ?_ ?_
  · simp [Piece.word, Piece.isBlank, name.text_ne_empty]
  · simp [Piece.word, Piece.spacing, spaced, Piece.items, concat, Item.render]

theorem lays_call (name : Name) : Lays settings none
      ([Piece.word name.text] ++ ([Piece.code "(" .opening] ++ [Piece.code ")" .closing]))
      (name.text ++ ("(" ++ ")")) (some .closing) := by
  refine (lays_word name rfl).append (Lays.append (lays_piece rfl ?_) (lays_piece rfl ?_))
  · simp [Piece.spacing, needsSpace, Piece.items, concat, Item.render]
  · simp [Piece.spacing, needsSpace, Piece.items, concat, Item.render]

theorem lays_keyword (nonempty : text ≠ "") : Lays settings none [.keyword text] text (some .keyword) := by
  refine lays_piece ?_ ?_
  · simp [Piece.keyword, Piece.isBlank, nonempty]
  · simp [Piece.keyword, Piece.items, concat, Item.render]

theorem lays_spaced_keyword (nonempty : text ≠ "") :
    Lays settings (some .keyword) [.keyword text] (" " ++ text) (some .keyword) := by
  refine lays_piece ?_ ?_
  · simp [Piece.keyword, Piece.isBlank, nonempty]
  · simp [Piece.keyword, Piece.spacing, needsSpace, Piece.items, concat, Item.render]

theorem convertExpressionStatement_writes (converted : inner.expression { mode := .statement, scope } (t :: ts) =
      .done ⟨⟨pieces, isConst⟩, semicolon :: rest⟩ notes)
    (semicolon_is : semicolon.Is .operator ";") (nonempty : pieces ≠ [])
    (laid : Lays settings none pieces text middle) :
    (convertExpressionStatement inner scope t ts).Writes settings rest none
      (lineAt settings scope.level (text ++ ";")) none := by
  refine Draft.Writes.cast (.bind (.emit (lays_indents _))
    (.bind (convertRightSide_writes converted semicolon_is nonempty laid) (.pure _))) ?_
  simp [lineAt, indentation, String.append_assoc]

theorem convertYield_break (semicolon_is : semicolon.Is .operator ";") :
    (convertYield inner scope t (semicolon :: rest)).Writes settings rest none
      (lineAt settings scope.level "yield break;") none := by
  have first : skipTrivia (semicolon :: rest) = semicolon :: rest := by
    simp [skipTrivia, isTrivia, semicolon_is.1]
  simp only [convertYield, first, semicolon_is.isOp, if_true]
  refine Draft.Writes.cast (.bind (.ofReading rfl) (.bind (.emit (lays_indents _))
    (.bind (.emit (lays_line _)) (.pure _)))) ?_
  simp [lineAt, indentation, String.append_assoc]

theorem convertYield_give (space_is : space.category = .space) (x_is : x.category = .identifier)
    (converted : inner.expression { mode := .statement, scope } (t :: space :: x :: ts) =
      .done ⟨⟨pieces, isConst⟩, semicolon :: rest⟩ notes)
    (semicolon_is : semicolon.Is .operator ";") (nonempty : pieces ≠ [])
    (laid : Lays settings (some .keyword) pieces text middle) :
    (convertYield inner scope t (space :: x :: ts)).Writes settings rest none
      (lineAt settings scope.level ("yield" ++ text ++ ";")) none := by
  have next : skipTrivia (space :: x :: ts) = x :: ts := by
    simp [skipTrivia, isTrivia, space_is, x_is]
  have other : x.isOp ";" = false := by simp [isOp, x_is]
  simp only [convertYield, next, other, Bool.false_eq_true, if_false]
  refine Draft.Writes.cast (.bind (.ofReading rfl) (.bind (.emit (lays_indents _))
    (.bind (.emit (lays_keyword (by simp)))
      (.bind (convertRightSide_writes converted semicolon_is nonempty laid) (.pure _))))) ?_
  simp [lineAt, indentation, String.append_assoc]

end Lines

/-! ## Headers and blocks -/

section Blocks

/-- The converters write `text` for the statements in braces. -/
def WritesBlock (settings : LayoutSettings) (inner : Converters) (scope : Scope) (newline : Newline)
    (body : List Lexeme) (text : String) : Prop :=
  ∀ id start, (inner.block scope (place id start (newline.lexeme :: body))).Writes settings () none text none

/-- The converters convert a name in a header. -/
def ConvertsNames (inner : Converters) : Prop :=
  ∀ place space name space' text, space.category = .space → name.Is .identifier text →
    space'.category = .space → inner.expression place [space, name, space'] = .done ⟨⟨[.word text], false⟩, []⟩ []

section

variable (names : ConvertsNames inner) (space_is : space.category = .space) (space'_is : space'.category = .space)
include names space_is space'_is

theorem convertInHeader_writes :
    (convertInHeader inner scope fence [space, name.lexeme.tokenAt id start, space']).Writes settings
      [.word name.text] none "" none := by
  have read := names { mode := .group, scope, fence := some fence } space
    (name.lexeme.tokenAt id start) space' name.text space_is (name.tokenAt_is id start) space'_is
  exact Draft.Writes.cast (.bind (.ofReading read) (.pure _)) (by simp)

theorem convertCondition_writes :
    (convertCondition inner scope t fence [space, name.lexeme.tokenAt id start, space']).Writes
      settings () none ("(" ++ name.text ++ ")") none := by
  have meaning : isAllTrivia [space, name.lexeme.tokenAt id start, space'] = false := by
    simp [isAllTrivia, significant, isTrivia, space_is, space'_is]
  have single : isGrouped [space, name.lexeme.tokenAt id start, space'] = false := by
    simp [isGrouped, skipTrivia, isTrivia, space_is, isOp]
  have condition : Lays settings none ([Piece.raw "("] ++ ([Piece.word name.text] ++ [Piece.raw ")"]))
      ("(" ++ (name.text ++ ")")) none :=
    (lays_raw (by simp)).append ((lays_word name rfl).append (lays_raw (by simp)))
  simp only [convertCondition, meaning, single, Bool.false_eq_true, if_false]
  refine Draft.Writes.cast (.bind (convertInHeader_writes names space_is space'_is) (.emit condition)) ?_
  simp [String.append_assoc]

end

theorem lays_closeBrace (level : Nat) :
    Lays settings none (closeBrace level) (lineAt settings level "\x7d") none := by
  have laid : Lays settings none (Piece.indents level ++ [Piece.line "\x7d"])
      (indentation settings level ++ ("\x7d" ++ settings.lineEnding.text)) none :=
    (lays_indents level).append (lays_line "\x7d")
  simpa [closeBrace, lineAt, indentation, String.append_assoc] using laid

theorem convertBraced_writes (nested : Nested body) (written : WritesBlock settings inner scope newline body text)
    (closes : closing.isOp "\x7d" = true) :
    (convertBraced inner outer scope opening
      (place id start (newline.lexeme :: body) ++ closing :: after)).Writes settings after none
      (" \x7b" ++ settings.lineEnding.text ++ text ++ lineAt settings outer "\x7d") none := by
  simp only [convertBraced, splitClose_braced nested id start closing closes after]
  refine Draft.Writes.cast (.bind (.emit (lays_line _)) (.bind (written id start)
    (.bind (.emit (lays_closeBrace outer)) (.pure _)))) ?_
  simp [String.append_assoc]

theorem splitTop_header {p : Token → Bool}
    (plain : ∀ t ∈ header, t.isOpener = false ∧ t.isCloser = false ∧ p t = false)
    (found : p opening = true) :
    splitTop p (header ++ opening :: ts) = some ⟨header, opening, ts⟩ := by
  induction header with
  | nil => simp [splitTop, splitTopAt, found]
  | cons t header ih =>
    have rest := ih fun t member => plain t (List.mem_cons_of_mem _ member)
    obtain ⟨opener, closer, other⟩ := plain t List.mem_cons_self
    rw [splitTop] at rest
    simp [splitTop, splitTopAt, other, opener, closer, rest, Split.cons]

end Blocks

end Sharp
