import Sharp.Proofs.StructuredConversion

/-!
# The control flow of structured statements

What is written for a statement with blocks, given what is written for the blocks.
-/

namespace Sharp

open Token

variable {t : Token} {words text text' : String} {p : Token → Bool} {after ts : List Token}
  {cleanup others front : List Lexeme}

section ControlFlow

variable {settings : LayoutSettings} {inner : Converters} {scope : Scope} {newline : Newline}
  {body more : List Lexeme}

theorem exists_place_header (newline : Newline) (header body more : List Lexeme) (id start : Nat) :
    ∃ id₁ start₁ id₂ start₂ id₃ start₃ id₄ start₄, place id start (header ++ braced newline body more) =
        place id start header ++ (operatorLexeme "\x7b").tokenAt id₁ start₁ ::
          (place id₂ start₂ (newline.lexeme :: body) ++ (operatorLexeme "\x7d").tokenAt id₃ start₃ ::
              place id₄ start₄ (newline.lexeme :: more)) := by
  obtain ⟨id₁, start₁, split⟩ := exists_place_append id start header (braced newline body more)
  obtain ⟨id₂, start₂, id₃, start₃, id₄, start₄, placed⟩ :=
    place_braced newline body more id₁ start₁
  exact ⟨id₁, start₁, id₂, start₂, id₃, start₃, id₄, start₄, by rw [split, placed]⟩

/-- Lexemes that are no operators are passed over in a header. -/
theorem place_plain {header : List Lexeme} (id start : Nat)
    (plain : ∀ lexeme ∈ header, lexeme.category ≠ .operator ∧ ∀ id start, p (lexeme.tokenAt id start) = false) :
    ∀ t ∈ place id start header, t.isOpener = false ∧ t.isCloser = false ∧ p t = false := by
  induction header generalizing id start with
  | nil => simp [place]
  | cons lexeme header ih =>
    intro t member
    rcases List.mem_cons.1 member with rfl | member
    · obtain ⟨other, unfit⟩ := plain lexeme List.mem_cons_self
      simp [isOpener, isCloser, isOp, other, unfit]
    · exact ih _ _ (fun lexeme member => plain lexeme (List.mem_cons_of_mem _ member)) t member

theorem convertBody_writes {id₁ start₁ id₂ start₂ id₃ start₃ : Nat} (nested : Nested body)
    (written : WritesBlock settings inner scope.enterBody newline body text) :
    (convertBody inner scope ((operatorLexeme "\x7b").tokenAt id₁ start₁)
      (place id₂ start₂ (newline.lexeme :: body) ++
        (operatorLexeme "\x7d").tokenAt id₃ start₃ :: after)).Writes settings after none
      (" \x7b" ++ settings.lineEnding.text ++ text ++ lineAt settings scope.level "\x7d") none := by
  have opens : ((operatorLexeme "\x7b").tokenAt id₁ start₁).isOp "\x7b" = true := rfl
  rw [convertBody, if_pos opens]
  exact convertBraced_writes nested written rfl

/-- What stands between the keyword of a header and its brace, where that is a name. -/
def Name.header (name : Name) : List Lexeme := [spaceLexeme, name.lexeme, spaceLexeme]

theorem Name.header_plain (name : Name) (id start : Nat)
    (unfit : ∀ t : Token, t.category = .space ∨ t.category = .identifier → p t = false) :
    ∀ t ∈ place id start name.header, t.isOpener = false ∧ t.isCloser = false ∧ p t = false := by
  refine place_plain id start fun lexeme member => ?_
  simp only [Name.header, List.mem_cons, List.not_mem_nil, or_false] at member
  rcases member with rfl | rfl | rfl
  · exact ⟨by simp, fun _ _ => unfit _ (.inl rfl)⟩
  · exact ⟨by simp, fun _ _ => unfit _ (.inr (by simp))⟩
  · exact ⟨by simp, fun _ _ => unfit _ (.inl rfl)⟩

theorem splitHeader_place {allowsSingle : Bool} {header : List Lexeme} {id start id₁ start₁ : Nat}
    (plain : ∀ lexeme ∈ header, lexeme.category ≠ .operator) :
    splitHeader allowsSingle t (place id start header ++ (operatorLexeme "\x7b").tokenAt id₁ start₁ :: ts) =
      pure ⟨place id start header, (operatorLexeme "\x7b").tokenAt id₁ start₁, ts⟩ := by
  rw [splitHeader, splitTop_header (place_plain id start fun lexeme member => ?_) rfl]
  exact ⟨plain lexeme member, fun _ _ => by simp [isOp, plain lexeme member]⟩

theorem convertGuarded_writes (names : ConvertsNames inner) (nested : Nested body)
    (written : WritesBlock settings inner scope.enterBody newline body text)
    (words_ne : words ≠ "") (name : Name) (t : Token) (id start : Nat) :
    ∃ id' start', (convertGuarded inner words scope t
        (place id start (name.header ++ braced newline body more))).Writes
      settings (place id' start' (newline.lexeme :: more)) none
      (blockReference settings scope.level (words ++ " (" ++ name.text ++ ")") text) none := by
  obtain ⟨id₁, start₁, id₂, start₂, id₃, start₃, id₄, start₄, placed⟩ :=
    exists_place_header newline name.header body more id start
  refine ⟨id₄, start₄, ?_⟩
  rw [convertGuarded, placed, splitHeader_place (by simp [Name.header]), pure_bind]
  refine Draft.Writes.cast (.bind (.emit ((lays_indents _).append (lays_raw ?_)))
    (.bind (convertCondition_writes names rfl rfl) (convertBody_writes nested written))) ?_
  · simp [words_ne]
  · rw [← String.toList_inj]
    simp [blockReference, lineAt, indentation]

theorem readLoopVariable_name {space space' : Token} {name : Name} {id start : Nat}
    (space_is : space.category = .space) (space'_is : space'.category = .space) :
    readLoopVariable t [space, name.lexeme.tokenAt id start, space'] =
      .done ("var " ++ name.text) [⟨name.lexeme.tokenAt id start, .name .var⟩] := by
  simp [readLoopVariable, significant, dropLet, isTrivia, space_is, space'_is,
    isKeyword, isNameLike, note, Logged.tell, Logged.after, Log.append, Log.none]

theorem isKeyword_word (reserved : (keywordRole? text).isSome = true) (other : String) (id start : Nat) :
    ((word text).tokenAt id start).isKeyword other = (text == other) := by
  simp [isKeyword, category_word reserved]

theorem convertForeach_writes (names : ConvertsNames inner) (nested : Nested body)
    (written : WritesBlock settings inner scope.enterBody newline body text)
    (element collection : Name) (t : Token) (id start : Nat) :
    ∃ id' start', (convertForeach inner scope t (place id start
        ((element.header ++ word "in" :: collection.header) ++ braced newline body more))).Writes
      settings (place id' start' (newline.lexeme :: more)) none
      (blockReference settings scope.level
        ("foreach (var " ++ element.text ++ " in " ++ collection.text ++ ")") text) none := by
  obtain ⟨id₁, start₁, id₂, start₂, id₃, start₃, id₄, start₄, placed⟩ :=
    exists_place_header newline (element.header ++ word "in" :: collection.header) body more id start
  obtain ⟨id₅, start₅, header⟩ :=
    exists_place_append id start element.header (word "in" :: collection.header)
  have reserved : (word "in").category = .keyword := category_word (by decide)
  have meaning : isAllTrivia (place (id₅ + 1) (start₅ + byteLength (word "in").source)
      collection.header) = false := by
    simp [isAllTrivia, significant, Name.header, place, isTrivia]
  have declared : ∀ t ∈ place id start element.header,
      t.isOpener = false ∧ t.isCloser = false ∧ t.isKeyword "in" = false :=
    element.header_plain id start fun t other => by
      rcases other with other | other <;> simp [isKeyword, other]
  refine ⟨id₄, start₄, ?_⟩
  rw [convertForeach, placed, splitHeader_place (by simp [Name.header, reserved]), pure_bind]
  dsimp only
  rw [header, place, splitTop_header declared (by rw [isKeyword_word (by decide)]; rfl)]
  simp only [meaning, Bool.false_eq_true, if_false]
  refine Draft.Writes.cast (.bind (.ofReading (readLoopVariable_name rfl rfl))
    (.bind (.emit ((lays_indents _).append (lays_raw (by simp))))
      (.bind (convertInHeader_writes names rfl rfl) (.bind (.emit (lays_word collection rfl))
        (.bind (.emit (lays_raw (by simp))) (convertBody_writes nested written)))))) ?_
  rw [← String.toList_inj]
  simp [blockReference, lineAt, indentation]

section

variable (nested : Nested body) (written : WritesBlock settings inner scope.enterBody newline body text)
include nested written

theorem convertKeywordBlock_writes (words : String)
    (words_ne : words ≠ "") (more : List Lexeme) (id₀ start₀ id start : Nat) :
    ∃ id' start', (convertKeywordBlock inner scope ((word words).tokenAt id₀ start₀)
        (place id start ([spaceLexeme] ++ braced newline body more))).Writes
      settings (place id' start' (newline.lexeme :: more)) none
      (blockReference settings scope.level words text) none := by
  obtain ⟨id₁, start₁, id₂, start₂, id₃, start₃, id₄, start₄, placed⟩ :=
    exists_place_header newline [spaceLexeme] body more id start
  refine ⟨id₄, start₄, ?_⟩
  have opens : ((operatorLexeme "\x7b").tokenAt id₁ start₁).isOp "\x7b" = true := rfl
  have first (ts : List Token) : skipTrivia (place id start [spaceLexeme] ++
      (operatorLexeme "\x7b").tokenAt id₁ start₁ :: ts) = (operatorLexeme "\x7b").tokenAt id₁ start₁ :: ts := rfl
  rw [convertKeywordBlock, placed, first]
  simp only [opens, Bool.not_true, Bool.false_eq_true, if_false, text_tokenAt, text_word]
  refine Draft.Writes.cast (.bind (.emit ((lays_indents _).append (lays_raw words_ne)))
    (convertBraced_writes nested written rfl)) ?_
  rw [← String.toList_inj]
  simp [blockReference, lineAt, indentation]

theorem convertHandlers_finally (more : List Lexeme) (id start : Nat) :
    ∃ id' start', (convertHandlers inner scope (place id start
        (newline.lexeme :: word "finally" :: ([spaceLexeme] ++ braced newline body more)))).Writes
      settings ⟨true, place id' start' (newline.lexeme :: more)⟩ none
      (blockReference settings scope.level "finally" text) none := by
  obtain ⟨id', start', block⟩ := convertKeywordBlock_writes nested written "finally" (by simp) more
    (id + 1) (start + byteLength newline.lexeme.source)
    (id + 1 + 1) (start + byteLength newline.lexeme.source + byteLength (word "finally").source)
  refine ⟨id', start', ?_⟩
  have blank : (newline.lexeme.tokenAt id start).isTrivia = true := rfl
  have reserved : (word "finally").category = .keyword := category_word (by decide)
  have other : ((word "finally").tokenAt (id + 1) (start + byteLength newline.lexeme.source)).isTrivia = false := by
    simp [isTrivia, reserved]
  have catches : ((word "finally").tokenAt (id + 1)
      (start + byteLength newline.lexeme.source)).isKeyword "catch" = false := by
    simp [isKeyword]
  have ends : ((word "finally").tokenAt (id + 1)
      (start + byteLength newline.lexeme.source)).isKeyword "finally" = true := by
    simp [isKeyword, reserved]
  simp only [convertHandlers, place]
  rw [walk_cons]
  simp only [convertHandlerRound, blank, if_true, pure_bind]
  rw [if_pos (by simp), walk_cons]
  simp only [convertHandlerRound, other, catches, ends, Bool.false_eq_true, if_false, if_true,
    bind_assoc, pure_bind]
  exact Draft.Writes.cast (.bind block (.pure _)) (by simp)

end

theorem convertTry_writes (nested : Nested body) (nested' : Nested cleanup)
    (written : WritesBlock settings inner scope.enterBody newline body text)
    (written' : WritesBlock settings inner scope.enterBody newline cleanup text')
    (more : List Lexeme) (id₀ start₀ id start : Nat) :
    ∃ id' start', (convertTry inner scope ((word "try").tokenAt id₀ start₀)
        (place id start ([spaceLexeme] ++ braced newline body
          (word "finally" :: ([spaceLexeme] ++ braced newline cleanup more))))).Writes
      settings (place id' start' (newline.lexeme :: more)) none
      (blockReference settings scope.level "try" text ++
        blockReference settings scope.level "finally" text') none := by
  obtain ⟨id₁, start₁, first⟩ := convertKeywordBlock_writes nested written "try" (by simp)
    (word "finally" :: ([spaceLexeme] ++ braced newline cleanup more)) id₀ start₀ id start
  obtain ⟨id₂, start₂, second⟩ := convertHandlers_finally nested' written' more id₁ start₁
  exact ⟨id₂, start₂, Draft.Writes.cast (.bind first (.bind second (.pure _))) (by simp)⟩

/-! ### Chains of branches -/

/-- What follows a chain of branches does not go on with it. -/
def EndsBranches (newline : Newline) (more : List Lexeme) : Prop :=
  ∀ id start, branchFollower (place id start (newline.lexeme :: more)) = pure .other

/-- Converts what follows the body of a branch. -/
def convertFollower (inner : Converters) (scope : Scope) (t : Token) (ts rest : List Token) :
    BranchFollower → Draft (List Token)
  | .other => return rest
  | .elseIf next more =>
    if (next :: more).length < (t :: ts).length then
      walk (convertIfRound inner scope) (fun _ => return []) "else if" (next :: more)
    else .fail (.outside t)
  | .otherwise next more => do
    emit (Piece.indents scope.level ++ [Piece.raw "else"])
    convertBody inner scope next more

theorem walk_convertIfRound : walk (convertIfRound inner scope) (fun _ => return []) words (t :: ts) = (do
      let rest ← convertGuarded inner words scope t ts
      let follower ← branchFollower rest
      convertFollower inner scope t ts rest follower) := by
  rw [walk_cons, convertIfRound, bind_assoc]
  congr 1
  funext rest
  rw [bind_assoc]
  congr 1
  funext follower
  cases follower with
  | other => rfl
  | elseIf next more => rw [pure_bind]; rfl
  | otherwise next more => simp only [bind_assoc, pure_bind, bind_pure, convertFollower]

/-- What follows a branch is converted: `others` are the lexemes from there on, of which `more` are
left. -/
def WritesFollower (settings : LayoutSettings) (inner : Converters) (scope : Scope)
    (newline : Newline) (others more : List Lexeme) (text : String) : Prop :=
  ∀ id start t ts, others.length < ts.length → ∃ follower id' start',
    branchFollower (place id start (newline.lexeme :: others)) = pure follower ∧
      (convertFollower inner scope t ts (place id start (newline.lexeme :: others)) follower).Writes
        settings (place id' start' (newline.lexeme :: more)) none text none

/-- One branch of a chain, and what follows it. -/
theorem convertIf_writes (names : ConvertsNames inner) (nested : Nested body)
    (written : WritesBlock settings inner scope.enterBody newline body text)
    (follows : WritesFollower settings inner scope newline others more text')
    (words_ne : words ≠ "") (condition : Name) (t : Token) (id start : Nat) :
    ∃ id' start', Draft.Writes settings (walk (convertIfRound inner scope) (fun _ => return []) words
        (t :: place id start (condition.header ++ braced newline body others)))
      (place id' start' (newline.lexeme :: more)) none
      (blockReference settings scope.level (words ++ " (" ++ condition.text ++ ")") text ++ text')
      none := by
  obtain ⟨id₁, start₁, guarded⟩ :=
    convertGuarded_writes names nested written words_ne condition t id start
  obtain ⟨follower, id', start', found, continued⟩ := follows id₁ start₁ t
    (place id start (condition.header ++ braced newline body others)) (by
      simp only [length_place, braced, List.length_append, List.length_cons]
      omega)
  refine ⟨id', start', ?_⟩
  rw [walk_convertIfRound]
  refine .bind guarded ?_
  rw [found, pure_bind]
  exact continued

theorem writesFollower_nothing (ends : EndsBranches newline more) :
    WritesFollower settings inner scope newline more more "" :=
  fun id start _ _ _ => ⟨.other, id, start, ends id start, .pure _⟩

theorem writesFollower_last (nested : Nested body)
    (written : WritesBlock settings inner scope.enterBody newline body text) :
    WritesFollower settings inner scope newline (word "else" :: ([spaceLexeme] ++ braced newline body more)) more
      (blockReference settings scope.level "else" text) := by
  intro id start t ts _
  have reserved : (word "else").category = .keyword := category_word (by decide)
  obtain ⟨id₁, start₁, id₂, start₂, id₃, start₃, id₄, start₄, placed⟩ :=
    exists_place_header newline [spaceLexeme] body more
      (id + 1 + 1) (start + byteLength newline.lexeme.source + byteLength (word "else").source)
  have found : branchFollower (place id start (newline.lexeme :: word "else" ::
      ([spaceLexeme] ++ braced newline body more))) =
      pure (.otherwise ((operatorLexeme "\x7b").tokenAt id₁ start₁) (place id₂ start₂ (newline.lexeme :: body) ++
          (operatorLexeme "\x7d").tokenAt id₃ start₃ :: place id₄ start₄ (newline.lexeme :: more))) := by
    rw [place, place, placed]
    simp [branchFollower, skipTrivia, List.dropWhile_cons, place, isTrivia, reserved, isKeyword, isOpIn]
  refine ⟨_, id₄, start₄, found, Draft.Writes.cast (.bind (.emit ((lays_indents _).append (lays_raw (by simp))))
      (convertBody_writes nested written)) ?_⟩
  rw [← String.toList_inj]
  simp [blockReference, lineAt, indentation]

/-- A further condition, behind the lexemes `front`. -/
theorem writesFollower_link {condition : Name} (names : ConvertsNames inner) (nested : Nested body)
    (written : WritesBlock settings inner scope.enterBody newline body text)
    (follows : WritesFollower settings inner scope newline others more text')
    (front_ne : front ≠ [])
    (found : ∀ tail id start, ∃ next id' start',
      branchFollower (place id start (newline.lexeme :: (front ++ tail))) =
        pure (.elseIf next (place id' start' tail))) :
    WritesFollower settings inner scope newline (front ++ (condition.header ++ braced newline body others)) more
      (blockReference settings scope.level ("else if (" ++ condition.text ++ ")") text ++ text') := by
  intro id start t ts shorter
  obtain ⟨next, id₁, start₁, found⟩ := found (condition.header ++ braced newline body others) id start
  obtain ⟨id', start', chained⟩ := convertIf_writes names nested written follows
    (by simp : "else if" ≠ "") condition next id₁ start₁
  refine ⟨_, id', start', found, ?_⟩
  have front_pos := List.length_pos_iff.2 front_ne
  rw [convertFollower, if_pos (by simp at shorter ⊢; omega)]
  exact Draft.Writes.cast chained rfl

theorem branchFollower_elif (newline : Newline) (tail : List Lexeme) (id start : Nat) :
    ∃ next id' start', branchFollower (place id start (newline.lexeme :: ([word "elif"] ++ tail))) =
      pure (.elseIf next (place id' start' tail)) := by
  have reserved : (word "elif").category = .keyword := category_word (by decide)
  refine ⟨(word "elif").tokenAt (id + 1) (start + byteLength newline.lexeme.source), id + 1 + 1,
    start + byteLength newline.lexeme.source + byteLength (word "elif").source, ?_⟩
  simp [branchFollower, skipTrivia, List.dropWhile_cons, place, isTrivia, reserved, isKeyword]

theorem branchFollower_elseIf (newline : Newline) (tail : List Lexeme) (id start : Nat) :
    ∃ next id' start', branchFollower (place id start
        (newline.lexeme :: ([word "else", spaceLexeme, word "if"] ++ tail))) =
      pure (.elseIf next (place id' start' tail)) := by
  have first : (word "else").category = .keyword := category_word (by decide)
  have second : (word "if").category = .keyword := category_word (by decide)
  let start₁ := start + byteLength newline.lexeme.source + byteLength (word "else").source +
    byteLength spaceLexeme.source
  refine ⟨(word "if").tokenAt (id + 1 + 1 + 1) start₁, id + 1 + 1 + 1 + 1,
    start₁ + byteLength (word "if").source, ?_⟩
  simp [branchFollower, skipTrivia, List.dropWhile_cons, place, isTrivia, first, second, isKeyword, start₁]

end ControlFlow

end Sharp
