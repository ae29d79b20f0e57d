/-!
# Pieces of output

Converters do not write text.  They produce pieces that say what is written and how it is spaced;
the spaces between pieces are decided at the end, when both neighbours are known.
-/

namespace Sharp

/-- How a piece is spaced against its neighbours.  Pieces that are `raw` are formatted already and get no
spaces. -/
inductive Spacing where
  | raw
  | word
  /-- Like a word, but with a space before a following `(`. -/
  | keyword
  | binary
  | trailing
  | opening
  | closing
  | dot
  | leadingOperator
  | closingBrace
  deriving DecidableEq, Repr

/-- Is there a space between two neighbours? -/
def needsSpace : Spacing → Spacing → Bool
  | .raw, _ | _, .raw => false
  | _, .trailing | _, .closing | _, .dot => false
  | .opening, _ | .dot, _ | .leadingOperator, _ => false
  | .binary, _ | .trailing, _ => true
  | _, .binary | _, .closingBrace => true
  | .keyword, .opening => true
  | _, .opening => false
  | _, .leadingOperator | _, .word | _, .keyword => true

inductive Piece where
  | code (text : String) (spacing : Spacing)
  | literal (text : String)
  | comment (text : String)
  | lineBreak
  | line (text : String)
  /-- The white space in front of a line at the given level, which is not 0. -/
  | indent (level : Nat)
  deriving DecidableEq, Repr

namespace Piece

def spacing : Piece → Spacing
  | code _ spacing => spacing
  | literal _ => .word
  | comment _ | lineBreak | line _ | indent _ => .raw

def raw (text : String) : Piece :=
  code text .raw

def word (text : String) : Piece :=
  code text .word

def keyword (text : String) : Piece :=
  code text .keyword

/-- The white space in front of a line: none at level 0. -/
def indents : Nat → List Piece
  | 0 => []
  | level + 1 => [indent (level + 1)]

end Piece

/-- Can what is spaced like this be an operand on the left of an operator? -/
def Spacing.endsOperand : Spacing → Bool
  | .word | .closing | .closingBrace => true
  | _ => false

/-- How an operator is spaced.  Some operators have one operand or two: which one it is shows in
whether an operand precedes them. -/
def operatorSpacing (text : String) (afterOperand : Bool) : Spacing :=
  match text with
  | "." | "?." | "!." | "::" | ".." => .dot
  | "," | ";" => .trailing
  | "(" | "[" => .opening
  | ")" | "]" => .closing
  | "\x7b" => .binary
  | "\x7d" => .closingBrace
  | "!" | "$" | "@" => .leadingOperator
  | "++" | "--" => if afterOperand then .closing else .leadingOperator
  | "+" | "-" | "*" | "&" => if afterOperand then .binary else .leadingOperator
  | _ => .binary

end Sharp
