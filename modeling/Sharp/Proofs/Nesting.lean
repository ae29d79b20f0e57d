import Sharp.Layout.Item

/-!
# Nested brackets

Reading a text from left to right, one keeps the brackets that are open, the latest in front.  A
closing bracket has to match the latest one.

* `brackets`, `Moves`: the brackets of pieces, where copied literals and comments do not count.
-/

namespace Sharp

/-- The forms of brackets in C#. -/
inductive Bracket where
  | round
  | square
  | curly
  deriving DecidableEq

variable {opened' opened : List Bracket} {text text' front : String} {cs : List Char}

/-- What a character means to the brackets. -/
inductive BracketMark where
  | opens (b : Bracket)
  | closes (b : Bracket)
  | none

def bracketMark : Char → BracketMark
  | '(' => .opens .round
  | ')' => .closes .round
  | '[' => .opens .square
  | ']' => .closes .square
  | '\x7b' => .opens .curly
  | '\x7d' => .closes .curly
  | _ => .none

/-- Closes the latest of the open brackets. -/
def closeBracket (b : Bracket) : List Bracket → Option (List Bracket)
  | [] => none
  | b' :: opened => if b = b' then some opened else none

/-- The brackets open after a character, when those of `opened` are open before it. -/
def nestChar (opened : List Bracket) (c : Char) : Option (List Bracket) :=
  match bracketMark c with
  | .opens b => some (b :: opened)
  | .closes b => closeBracket b opened
  | .none => some opened

/-- The brackets open after a text, when those of `opened` are open before it. -/
def nest (opened : List Bracket) : List Char → Option (List Bracket)
  | [] => some opened
  | c :: cs => (nestChar opened c).bind (nest · cs)

/-- The brackets of a text are properly nested and balanced. -/
def Balanced (text : String) : Prop := nest [] text.toList = some []

instance (text : String) : Decidable (Balanced text) :=
  inferInstanceAs (Decidable (nest [] text.toList = some []))

def Bracket.opener : Bracket → String
  | round => "("
  | square => "["
  | curly => "\x7b"

def Bracket.closer : Bracket → String
  | round => ")"
  | square => "]"
  | curly => "\x7d"

theorem nest_opener (b : Bracket) : nest [] b.opener.toList = some [b] := by
  cases b <;> decide

theorem nest_closer (b : Bracket) : nest [b] b.closer.toList = some [] := by
  cases b <;> decide

section Nest

variable {more : List Bracket} {c : Char} {cs' : List Char}

theorem nest_append : nest opened (cs ++ cs') = (nest opened cs).bind (nest · cs') := by
  induction cs generalizing opened with
  | nil => rfl
  | cons c cs ih =>
    rw [List.cons_append, nest, nest]
    cases nestChar opened c with
    | none => rfl
    | some opened' => exact ih

theorem closeBracket_eq_some {b : Bracket} (closed : closeBracket b opened = some opened') :
    opened = b :: opened' := by
  cases opened with
  | nil => cases closed
  | cons b' opened =>
    rw [closeBracket] at closed
    split at closed
    · next same => cases closed; rw [same]
    · cases closed

@[simp] theorem closeBracket_cons (b : Bracket) (opened : List Bracket) :
    closeBracket b (b :: opened) = some opened :=
  if_pos rfl

theorem nestChar_extend (moved : nestChar opened c = some opened') :
    nestChar (opened ++ more) c = some (opened' ++ more) := by
  rw [nestChar] at moved ⊢
  cases mark : bracketMark c with
  | opens b | none => rw [mark] at moved; cases moved; rfl
  | closes b =>
    rw [mark] at moved
    rw [closeBracket_eq_some moved, List.cons_append]
    exact closeBracket_cons ..

/-- Brackets further out stay open. -/
theorem nest_extend (moved : nest opened cs = some opened') :
    nest (opened ++ more) cs = some (opened' ++ more) := by
  induction cs generalizing opened with
  | nil => cases moved; rfl
  | cons c cs ih =>
    rw [nest] at moved ⊢
    obtain ⟨middle, first, others⟩ := Option.bind_eq_some_iff.1 moved
    rw [nestChar_extend first]
    exact ih others

end Nest

/-! ## Texts -/

namespace Balanced

/-- A balanced text can stand between any brackets. -/
theorem nest (balanced : Balanced text) (opened : List Bracket) : Sharp.nest opened text.toList = some opened :=
  nest_extend balanced

theorem nest_after (balanced : Balanced text) (moved : Sharp.nest [] front.toList = some opened')
    (opened : List Bracket) :
    Sharp.nest opened (front ++ text).toList = some (opened' ++ opened) := by
  have moved : Sharp.nest opened front.toList = some (opened' ++ opened) := nest_extend moved
  rw [String.toList_append, nest_append, moved, Option.bind_some, balanced.nest]

theorem append (balanced : Balanced text) (balanced' : Balanced text') : Balanced (text ++ text') := by
  rw [Balanced, String.toList_append, nest_append, balanced.nest]
  exact balanced'

end Balanced

/-- The brackets of the text are balanced, and it holds no line break. -/
def Tidy (text : String) : Prop := Balanced text ∧ '\n' ∉ text.toList

instance (text : String) : Decidable (Tidy text) := inferInstanceAs (Decidable (_ ∧ _))

theorem Tidy.append (tidy : Tidy text) (tidy' : Tidy text') : Tidy (text ++ text') :=
  ⟨tidy.1.append tidy'.1, by simp [tidy.2, tidy'.2]⟩

theorem Tidy.ite {c : Prop} [Decidable c] (tidy : Tidy text) (tidy' : Tidy text') :
    Tidy (if c then text else text') := by
  split
  · exact tidy
  · exact tidy'

/-- Is the character neither a bracket nor a line break? -/
def isPlainChar (c : Char) : Bool := (bracketMark c matches .none) && c != '\n'

theorem nest_plain (plain : ∀ c ∈ cs, isPlainChar c = true) (opened : List Bracket) :
    nest opened cs = some opened := by
  induction cs with
  | nil => rfl
  | cons c cs ih =>
    obtain ⟨first, others⟩ := List.forall_mem_cons.1 plain
    have none : nestChar opened c = some opened := by
      rw [isPlainChar] at first
      rw [nestChar]
      cases mark : bracketMark c with
      | none => rfl
      | opens b | closes b => simp [mark] at first
    rw [nest, none]
    exact ih others

theorem tidy_of_plain (plain : ∀ c ∈ text.toList, isPlainChar c = true) : Tidy text := by
  refine ⟨nest_plain plain [], fun member => ?_⟩
  exact absurd (plain _ member) (by decide)

/-! ## Pieces -/

/-- The text of a piece that counts: what was copied does not. -/
def Piece.counted : Piece → String
  | .code text _ | .line text => text
  | _ => ""

def brackets (pieces : List Piece) : List Char := pieces.flatMap (·.counted.toList)

/-- The pieces lead from some open brackets to others. -/
def Moves (opened : List Bracket) (pieces : List Piece) (opened' : List Bracket) : Prop :=
  nest opened (brackets pieces) = some opened'

section Moves

variable {opened'' : List Bracket} {pieces pieces' : List Piece}

@[simp] theorem brackets_append (pieces pieces' : List Piece) :
    brackets (pieces ++ pieces') = brackets pieces ++ brackets pieces' :=
  List.flatMap_append

theorem Moves.nil : Moves opened [] opened := rfl

theorem Moves.append (first : Moves opened pieces opened') (second : Moves opened' pieces' opened'') :
    Moves opened (pieces ++ pieces') opened'' := by
  rw [Moves, brackets_append, nest_append, first]
  exact second

/-- What the pieces behind do, when all pieces and those in front are known. -/
theorem Moves.of_append (first : Moves opened pieces opened')
    (both : Moves opened (pieces ++ pieces') opened'') : Moves opened' pieces' opened'' := by
  rw [Moves, brackets_append, nest_append, first] at both
  exact both

theorem Moves.extend (moved : Moves opened pieces opened') (more : List Bracket) :
    Moves (opened ++ more) pieces (opened' ++ more) :=
  nest_extend moved

theorem moves_indents (level : Nat) : Moves opened (Piece.indents level) opened := by
  cases level <;> rfl

end Moves

end Sharp
