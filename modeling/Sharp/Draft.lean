import Sharp.Layout.Piece
import Sharp.Modifier
import Sharp.Walk

/-!
# Drafts

Converting statements produces pieces of output besides the notes on tokens.  Statements nest, so
each converter is given the converters for what is inside its own tokens.
-/

namespace Sharp

/-! ## Output -/

/-- What a converter produces: pieces of output and notes on tokens. -/
structure Output where
  pieces : List Piece
  notes : List Note
  deriving Repr

instance : Log Output where
  none := ⟨[], []⟩
  append u v := ⟨u.pieces ++ v.pieces, u.notes ++ v.notes⟩
  none_append _ := rfl
  append_none _ := by simp
  append_assoc _ _ _ := by simp

abbrev Draft (α : Type) : Type :=
  Logged Output α

def Draft.ofReading {α : Type} : Reading α → Draft α
  | .fail fault => .fail fault
  | .done a notes => .done a ⟨[], notes⟩

instance : MonadLift Reading Draft := ⟨Draft.ofReading⟩

def emit (pieces : List Piece) : Draft Unit :=
  .tell ⟨pieces, []⟩

/-- The pieces that a draft produces, as a value. -/
def Draft.capture : Draft Unit → Reading (List Piece)
  | .fail fault => .fail fault
  | .done _ output => .done output.pieces output.notes

/-! ## Expressions and statements -/

/-- Where an expression stands.  A `;` ends it except in brackets, and `,` separates its parts except where it is
an argument without parentheses: such an argument ends there. -/
inductive Mode where
  | statement
  | group
  | args
  deriving DecidableEq, Repr

structure Place where
  mode : Mode
  scope : Scope
  /-- The token after the tokens that the expression can take. -/
  fence : Option Token := none
  afterOperand : Bool := false
  /-- Do the parentheses around it serve as those of a tuple? -/
  lendsParens : Bool := false

structure Expression where
  pieces : List Piece
  isConst : Bool
  deriving Repr

structure Statement where
  pending : Modifiers := {}
  /-- The container that the rest of the block belongs to from now on. -/
  entered : Option Container := none
  deriving Repr

/-- Converters for expressions, statements and blocks, each from its first token on. -/
structure Converters where
  expressionFrom : Place → Token → List Token → Reading (Parsed Expression)
  statementFrom : Scope → Modifiers → Token → List Token → Draft (Parsed Statement)
  blockFrom : Scope → Token → List Token → Draft Unit

namespace Converters

/-- Converts the expression in front of some tokens, which is empty if there are none. -/
def expression (inner : Converters) (place : Place) : List Token → Reading (Parsed Expression)
  | [] => return ⟨⟨[], true⟩, []⟩
  | t :: rest => inner.expressionFrom place t rest

def block (inner : Converters) (scope : Scope) : List Token → Draft Unit
  | [] => return ()
  | t :: rest => inner.blockFrom scope t rest

end Converters

end Sharp
