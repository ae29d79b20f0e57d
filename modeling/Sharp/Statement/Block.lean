import Sharp.Statement.Basic

/-!
# Blocks

A block is a list of statements with blank lines and comments between them, which are kept.
-/

namespace Sharp

/-- The blank lines in a run of blanks after a line break: each further break is one. -/
def blankLines (ts : List Token) : List Piece :=
  List.replicate ((ts.takeWhile Token.isBlank).countP Token.isLineBreak) .lineBreak

def commentPieces (level : Nat) (text : String) : List Piece :=
  Piece.indents level ++ [Piece.comment text, .lineBreak]

def Statement.scopeAfter (statement : Statement) (scope : Scope) : Scope :=
  { scope with container := statement.entered.getD scope.container }

/-- The statements of a block that have been converted: the scope of the next one, and the modifiers
in front of it. -/
structure BlockState where
  scope : Scope
  pending : Modifiers := {}

/-- Converts a statement with the `;` after it, a comment, or the blanks between them. -/
def convertBlockRound (inner : Converters) (state : BlockState) (t : Token) (rest : List Token) :
    Draft (Step BlockState Unit) :=
  match t.category with
  | .lineBreak => do
    emit (blankLines rest)
    return .next state (rest.dropWhile Token.isBlank)
  | .space => return .next state rest
  | .comment => do
    emit (commentPieces state.scope.level t.text)
    return .next state rest
  | _ => do
    let statement ← inner.statementFrom state.scope state.pending t rest
    return .next ⟨statement.value.scopeAfter state.scope, statement.value.pending⟩
      (skipSemicolons statement.rest)

def convertBlock (inner : Converters) (scope : Scope) (ts : List Token) : Draft Unit :=
  walk (convertBlockRound inner) (fun state => Logged.ofExcept state.pending.ensureEmpty)
    { scope } ts

end Sharp
