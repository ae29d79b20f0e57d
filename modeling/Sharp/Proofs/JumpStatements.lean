import Sharp.Proofs.LeadingPieces
import Sharp.Proofs.WrittenStatements

/-!
# Statements that are jumps

* `Token.leaves`: is the statement that starts with the token a jump?
* `convertStatement_startsWithJump`: what is written for a statement starts with a jump exactly if it is one.
-/

namespace Sharp

open Layers Token
open Logged (Ensures)

variable {scope : Scope} {t : Token} {pending : Modifiers} {level : Nat} {text name : String}
  {kind : VariableKind} {draft : Draft (List Token)} {P : List Piece → Prop}

/-! ## Reserved words -/

/-- A name is no reserved word. -/
def Token.Unreserved (t : Token) : Prop := t.isNameLike = true → Sharp.keywordRole? t.text = none

theorem unreserved_of_scan {cs rest : List Char} {lexeme : Lexeme} (scanned : scan cs = .ok (some (lexeme, rest)))
    (id start : Nat) : (lexeme.tokenAt id start).Unreserved := by
  intro isName
  change Sharp.keywordRole? lexeme.text = none
  simp only [isNameLike, Lexeme.tokenAt] at isName
  cases scanned_of_scan scanned with
  | word _ =>
    -- A word is a name only where it is not in the vocabulary.
    grind [wordLexeme, Lexeme.verbatim]
  | _ => cases isName

theorem unreserved_of_tokenize {tokens : List Token} (read : tokenize text = .ok tokens) :
    ∀ t ∈ tokens, t.Unreserved :=
  (tokenize_eq_ok_iff.1 read).forall_mem fun _ _ scanned id start => unreserved_of_scan scanned id start

/-- Is the statement that starts with the token a jump?  In a function that yields, a `return` with a value
gives an element, and the function goes on. -/
def Token.leaves (scope : Scope) (t : Token) (rest : List Token) : Bool :=
  t.isJumpWord && !(scope.yields && t.text == "return" && !(nextSignificant? rest).any (·.isOp ";"))

theorem Token.leaves_of_unlisted (rest : List Token) (other : t.text ∉ jumpWords) :
    t.leaves scope rest = false := by
  simp [Token.leaves, isJumpWord, other]

theorem Token.leaves_eq (rest : List Token) (giving : t.text = "return" → scope.yields = false) :
    t.leaves scope rest = t.isJumpWord := by
  by_cases text : t.text = "return"
  · simp [Token.leaves, giving text]
  · simp [Token.leaves, text]

/-- The word of a jump is no modifier. -/
theorem Token.not_mem_jumpWords_of_modifierRole {role : ModifierRole} (keyword : t.category = .keyword)
    (modifier : t.modifierRole? = some role) : t.text ∉ jumpWords := by
  intro listed
  have roles : ∀ word ∈ jumpWords, Sharp.keywordRole? word = some (.keyword .expr) := by decide
  rw [modifierRole?, vocabularyRole?, keyword, roles _ listed] at modifier
  cases modifier

theorem Token.Unreserved.leadsPlainly (unreserved : t.Unreserved)
    (other : t.category = .keyword → t.text ∉ "switch" :: jumpWords) : t.LeadsPlainly := by
  rintro (keyword | context)
  · exact other keyword
  · intro listed
    have reserved : ∀ word ∈ "switch" :: jumpWords, Sharp.keywordRole? word ≠ none := by decide
    exact reserved _ listed (unreserved (by simp [isNameLike, context]))

/-! ## First lines -/

/-- The first line starts with no jump. -/
def StartsPlainly (level : Nat) (pieces : List Piece) : Prop :=
  ∃ (piece : Piece) (more : List Piece), pieces = Piece.indents level ++ piece :: more ∧ piece.isJump = false

namespace StartsPlainly

variable {pieces : List Piece}

theorem append (starts : StartsPlainly level pieces) (added : List Piece) :
    StartsPlainly level (pieces ++ added) := by
  obtain ⟨piece, more, rfl, plain⟩ := starts
  exact ⟨piece, more ++ added, by simp, plain⟩

theorem startsWithJump (starts : StartsPlainly level pieces) (positive : 0 < level) :
    startsWithJump pieces = false := by
  obtain ⟨piece, more, rfl, plain⟩ := starts
  rw [startsWithJump_indents positive, plain]

end StartsPlainly

theorem ControlPieces.startsPlainly {gap : Prop} {pieces : List Piece}
    (written : ControlPieces gap level pieces) : StartsPlainly level pieces := by
  cases written with
  | clauses written =>
    obtain ⟨word, more, rfl⟩ := written.starts
    exact ⟨.raw word, more, rfl, rfl⟩
  | block enclosed => exact ⟨_, _, rfl, by decide⟩

namespace Draft.Emits

variable {α β : Type}

/-- What comes first decides how a draft starts. -/
theorem starts_bind {x : Draft α} {f : α → Draft β} (first : x.Emits fun _ => StartsPlainly level) :
    Draft.Emits (x >>= f) fun _ => StartsPlainly level :=
  .bind first fun _ _ starts _ output _ => starts.append output.pieces

theorem starts_emit {piece : Piece} {f : Unit → Draft β} (plain : piece.isJump = false) :
    Draft.Emits (Sharp.emit (Piece.indents level ++ [piece]) >>= f) fun _ => StartsPlainly level :=
  .starts_bind (.emit ⟨piece, [], rfl, plain⟩)

end Draft.Emits

/-! ## Declarations -/

section Lines

variable {inner : Converters} {ts rest : List Token}

theorem convertFn_starts : (convertFn inner scope pending t rest).Emits fun _ => StartsPlainly scope.level := by
  unfold convertFn
  refine .check_bind fun mods _ => ?_
  cases splitTop (·.isOpIn ["\x7b", ";"]) rest with
  | none => exact .fail _
  | some s =>
    refine .skip fun header => .ite (fun _ => .ite (fun _ => .fail _) fun _ => .starts_emit ?_)
      fun _ => .ite (fun _ => .fail _) fun _ => .starts_emit rfl
    have other : header.text mods ++ ";" ∉ jumpLines := by
      rw [FnHeader.text, String.append_assoc]
      exact append_not_mem _ (by decide)
    simpa [Piece.isJump] using other

theorem readVariableHeader_name : (readVariableHeader kind scope t ts).Ensures fun header =>
      header.name ∈ ts ∧ header.name.isNameLike = true := by
  unfold readVariableHeader
  cases names : significant ts with
  | nil => exact .fail _
  | cons name header =>
    have member : name ∈ ts := List.mem_of_mem_filter (names ▸ List.mem_cons_self)
    refine .ite (fun _ => .fail _) fun isName => .next fun _ => .next fun _ => .next fun _ => .pure ?_
    exact ⟨member, by simpa using isName⟩

/-- Where the line of a declaration would be a jump, the declared name would be the word of one. -/
theorem eq_of_mem_jumpLines (listed : text ++ " " ++ name ++ ";" ∈ jumpLines) : name = "break" := by
  simp only [jumpLines, List.mem_cons, List.not_mem_nil, or_false] at listed
  have split {line : String} (same : text ++ " " ++ name ++ ";" = line) :
      text.toList ++ ' ' :: (name.toList ++ [';']) = line.toList := by
    rw [← same]
    simp
  rcases listed with same | same
  · have space : ' ' ∈ "break;".toList := split same ▸ by simp
    exact absurd space (by decide)
  · have parts : text.toList ++ ' ' :: (name.toList ++ [';']) = "yield".toList ++ ' ' :: "break;".toList := split same
    obtain ⟨-, -, rest⟩ := (List.append_cons_inj_of_notMem (by decide) (by decide)).1 parts.symm
    have same : "break".toList = name.toList := List.append_cancel_right (rest : "break".toList ++ [';'] = _)
    exact String.toList_injective same.symm

theorem convertVariable_starts (unreserved : ∀ t ∈ rest, t.Unreserved) :
    (convertVariable inner kind scope pending t rest).Emits fun _ => StartsPlainly scope.level := by
  unfold convertVariable
  refine .check_bind fun _ _ => ?_
  cases split : splitTop (fun t => t.isAssignment || t.isOp ";") rest with
  | none => exact .skip fun _ => .fail _
  | some s =>
    refine .reading_bind readVariableHeader_name fun header ⟨member, isName⟩ => ?_
    refine .ite (fun _ => .fail _) fun _ => .check_bind fun type _ => ?_
    refine .ite (fun _ => .ite (fun _ => .fail _) fun _ => .starts_emit ?_) fun _ => .skip fun _ => .starts_emit rfl
    have member : header.name ∈ rest := by
      rw [eq_of_splitTop split]
      exact List.mem_append_left _ member
    have other : accessText header.access ++ kind.text ++ type ++ " " ++ header.name.text ++ ";" ∉ jumpLines := by
      intro listed
      have unknown := unreserved _ member isName
      rw [eq_of_mem_jumpLines listed] at unknown
      exact absurd unknown (by decide)
    simpa [Piece.isJump] using other

/-! ## Expressions -/

theorem convertExpressionStatement_startsWithJump (leads : inner.LeadsStatements) (positive : 0 < scope.level)
    (significant : t.isTrivia = false) (goesOn : t.isOp ";" = false)
    (plain : t.isJumpWord = false → t.LeadsPlainly) :
    (convertExpressionStatement inner scope t rest).Emits fun _ pieces =>
      startsWithJump pieces = t.isJumpWord := by
  unfold convertExpressionStatement convertRightSide
  refine .emit_bind (.bind (Q := fun _ pieces => LedBy t.isJumpWord pieces) ?_ fun value pieces led => .pure ?_)
  · refine .reading_bind (leads _ t rest rfl significant goesOn plain) fun e led => ?_
    obtain ⟨e, after⟩ := e
    cases after with
    | nil => exact .fail _
    | cons semicolon after =>
      refine .ite (fun _ => .fail _) fun _ => .ite (fun _ => .fail _) fun _ => .emit_bind (.pure ?_)
      exact (led.append _).append _
  · cases pieces with
    | nil => cases led
    | cons piece pieces =>
      rw [List.append_nil, startsWithJump_indents positive]
      exact Option.some.inj led

/-- In a function that yields, only a `return` without a value is a jump. -/
theorem convertYield_startsWithJump (positive : 0 < scope.level) :
    (convertYield inner scope t rest).Emits fun _ pieces =>
      startsWithJump pieces = (nextSignificant? rest).any (·.isOp ";") := by
  have element {f : Unit → Draft (List Token)} : Draft.Emits (emit [.keyword "yield"] >>= f) fun _ pieces =>
      startsWithJump (Piece.indents scope.level ++ pieces) = false :=
    .emit_bind fun _ output _ => startsWithJump_indents positive _ output.pieces
  unfold convertYield nextSignificant?
  refine .skip fun _ => .emit_bind ?_
  split
  · next next more starts =>
    refine .ite (fun ends => .emit_bind (.pure ?_)) fun goesOn => ?_
    · rw [starts, List.append_nil, startsWithJump_indents positive]
      simp [ends, Piece.isJump, jumpLines]
    · simpa [starts, goesOn] using element
  · next other =>
    cases starts : skipTrivia rest with
    | nil => exact element
    | cons next more => exact absurd starts (other next more)

/-! ## Whole statements -/

theorem plainStatement_emits_pieces (emits : draft.Emits fun _ => P) : (plainStatement draft).Emits fun _ => P :=
  .bind emits fun _ pieces holds => .pure (by rwa [List.append_nil])

theorem unmodified_emits_pieces (emits : draft.Emits fun _ => P) : (unmodified pending draft).Emits fun _ => P :=
  .check_bind fun _ _ => plainStatement_emits_pieces emits

theorem holdModifier_startsWithJump :
    (holdModifier pending t rest).Emits fun _ pieces => startsWithJump pieces = false :=
  .skip fun _ => .check_bind fun _ _ => .pure rfl

/-- What is written for a statement in a function starts with a jump exactly if the statement is one. -/
theorem convertStatement_startsWithJump (writes : inner.WritesStatements) (leads : inner.LeadsStatements)
    (isFn : scope.isFn = true) (positive : 0 < scope.level) (significant : t.isTrivia = false)
    (unreserved : ∀ t' ∈ t :: rest, t'.Unreserved) :
    (convertStatement inner scope pending t rest).Emits fun _ pieces =>
      startsWithJump pieces = t.leaves scope rest := by
  by_cases refused : t.category = .keyword ∧ t.text ∈ ["class", "struct", "prop", "using", "namespace"]
  · exact fun statement output done => (refused_of_isFn isFn refused.1 refused.2 statement output done).elim
  obtain ⟨first, others⟩ := List.forall_mem_cons.1 unreserved
  -- A statement with a form of its own starts with its own word.
  have own {draft : Draft (List Token)} (unlisted : t.text ∉ jumpWords)
      (starts : draft.Emits fun _ => StartsPlainly scope.level) :
      draft.Emits fun _ pieces => startsWithJump pieces = t.leaves scope rest := by
    rw [leaves_of_unlisted rest unlisted]
    exact starts.mono fun _ _ starts => starts.startsWithJump positive
  have form := @convertStatement_form inner scope pending t rest
  generalize convertStatement inner scope pending t rest = draft at form ⊢
  cases form with
  | refused => exact .fail _
  | empty ends => exact .pure (by simp [startsWithJump, Token.leaves, isJumpWord, (isOp_iff.1 ends).1])
  | modifier keyword word =>
    have unlisted : t.text ∉ jumpWords :=
      word.elim (fun word => by rw [word]; decide) (not_mem_jumpWords_of_modifierRole keyword)
    rw [leaves_of_unlisted rest unlisted]
    exact holdModifier_startsWithJump
  | typeDecl keyword word => exact (refused ⟨keyword, by grind⟩).elim
  | property keyword word | imported keyword word | inNamespace keyword word =>
    exact (refused ⟨keyword, by simp [word]⟩).elim
  | function keyword word => exact plainStatement_emits_pieces (own (by rw [word]; decide) convertFn_starts)
  | declared keyword word =>
    have apart : ∀ word ∈ ["let", "const", "immut"], word ∉ jumpWords := by decide
    exact plainStatement_emits_pieces (own (apart t.text word) (convertVariable_starts others))
  | yielded keyword word yields =>
    have leaves : t.leaves scope rest = (nextSignificant? rest).any (·.isOp ";") := by
      simp [Token.leaves, isJumpWord, jumpWords, keyword, word, yields]
    rw [leaves]
    exact unmodified_emits_pieces (convertYield_startsWithJump positive)
  | controlFlow keyword word =>
    have apart : ∀ word ∈ controlFlowWords, word ∉ jumpWords := by decide
    exact unmodified_emits_pieces (own (apart t.text word)
      ((convertControlFlow_emits writes keyword word).mono fun _ _ written => written.startsPlainly))
  | expression goesOn plain =>
    have leaves : t.leaves scope rest = t.isJumpWord := by
      by_cases keyword : t.category = .keyword
      · refine Token.leaves_eq rest fun word => ?_
        obtain listed | ⟨-, -, giving⟩ := plain keyword
        · exact absurd (word ▸ listed) (by decide)
        · exact giving word
      · simp [Token.leaves, isJumpWord, keyword]
    rw [leaves]
    refine unmodified_emits_pieces (convertExpressionStatement_startsWithJump leads positive significant goesOn
      fun noJump => first.leadsPlainly fun keyword => ?_)
    obtain listed | ⟨unlisted, -⟩ := plain keyword
    · have apart : ∀ word ∈ ["new", "checked", "unchecked"], word ∉ "switch" :: jumpWords := by decide
      exact apart t.text listed
    · have noSwitch : t.text ≠ "switch" := fun word => unlisted (by rw [word]; decide)
      simpa [noSwitch, isJumpWord, keyword] using noJump

end Lines

end Sharp
