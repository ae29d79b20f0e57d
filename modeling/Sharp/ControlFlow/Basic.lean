import Sharp.Statement.Basic
import Sharp.TypeExpr.Reader
import Sharp.TypeExpr.Render

/-!
# Headers and bodies of control flow

A control-flow statement is a keyword, a header up to `{` or `;`, and a body: a block in braces or,
after `;`, one statement.
-/

namespace Sharp

/-- Splits at the `{` after a header, or at the `;` if there can be one; `t` is the keyword in front
of the header. -/
def splitHeader (allowsSingle : Bool) (t : Token) (ts : List Token) : Draft Split :=
  match splitTop (fun t => t.isOp "\x7b" || (allowsSingle && t.isOp ";")) ts with
  | none => .fail (.missing t .leftBrace)
  | some s => return s

def isGrouped (ts : List Token) : Bool :=
  match skipTrivia ts with
  | [] => false
  | first :: more =>
    first.isOp "(" && (splitClose .parenthesis more).any (isAllTrivia ·.after)

/-- Converts an expression in a header; `fence` is the token after it. -/
def convertInHeader (inner : Converters) (scope : Scope) (fence : Token) (ts : List Token) :
    Draft (List Piece) := do
  let e ← (inner.expression { mode := .group, scope, fence := some fence } ts : Reading _)
  return e.value.pieces

/-- Converts a condition, in parentheses; `t` is in front of it and `fence` after it. -/
def convertCondition (inner : Converters) (scope : Scope) (t fence : Token) (ts : List Token) :
    Draft Unit := do
  if isAllTrivia ts then .fail (.missing t .condition)
  let pieces ← convertInHeader inner scope fence ts
  emit (if isGrouped ts then pieces else .raw "(" :: pieces ++ [Piece.raw ")"])

/-- Converts the body of a control-flow statement and gives the tokens after it.  `t` is the `{` or
`;` in front of it. -/
def convertBody (inner : Converters) (scope : Scope) (t : Token) (ts : List Token) :
    Draft (List Token) :=
  if t.isOp "\x7b" then convertBraced inner scope.level scope.enterBody t ts
  else do
    emit [.lineBreak]
    match skipTrivia ts with
    | [] => .fail (.missing t .statement)
    | first :: more =>
      let statement ← inner.statementFrom scope.enterBody {} first more
      Logged.ofExcept statement.value.pending.ensureEmpty
      return skipSemicolons statement.rest

def dropLet : List Token → List Token
  | t :: ts => if t.isKeyword "let" then ts else t :: ts
  | [] => []

/-- Reads a variable that a header declares, and gives its declaration in C#.  `t` is blamed when it
is missing. -/
def readLoopVariable (t : Token) (ts : List Token) : Reading String :=
  match dropLet (significant ts) with
  | [] => .fail (.missing t .variableName)
  | name :: rest => do
    if !name.isNameLike then .fail (.missing t .variableName)
    note name (.name .var)
    match rest with
    | [] => return "var " ++ name.text
    | colon :: typePart =>
      if !colon.isOp ":" then .fail (.unexpected colon)
      let type ← TypeExpr.readWhole colon typePart
      return type.render .plain ++ " " ++ name.text

end Sharp
