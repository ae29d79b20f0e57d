import Sharp.Draft
import Sharp.Token.Bracket

/-!
# Parts of statements

What several kinds of statements share: the expression up to a `;`, and the block in braces.
-/

namespace Sharp

/-- The tokens without the `;` in front of them. -/
def skipSemicolons (ts : List Token) : List Token :=
  ts.dropWhile (·.isOp ";")

/-- Converts an expression and the `;` after it, and tells whether its value is constant.  `before`
is the token in front of it. -/
def convertRightSide (inner : Converters) (scope : Scope) (before : Token) (ts : List Token) :
    Draft (Parsed Bool) := do
  let e ← (inner.expression { mode := .statement, scope } ts : Reading _)
  match e.rest with
  | [] => .fail (.missing ((significant ts).getLastD before) .semicolon)
  | semicolon :: rest =>
    if !semicolon.isOp ";" then .fail (.missing ((significant ts).getLastD before) .semicolon)
    if e.value.pieces.isEmpty then .fail (.missing semicolon .expression)
    emit (e.value.pieces ++ [Piece.raw ";", .lineBreak])
    return ⟨e.value.isConst, rest⟩

def closeBrace (level : Nat) : List Piece :=
  Piece.indents level ++ [Piece.line "\x7d"]

/-- Converts a block in braces, whose opener has been seen, and gives the tokens after it.  `outer`
is the level of the statement it belongs to. -/
def convertBraced (inner : Converters) (outer : Nat) (scope : Scope) (opening : Token)
    (ts : List Token) : Draft (List Token) :=
  match splitClose .brace ts with
  | none => .fail (.missing opening .rightBrace)
  | some s => do
    emit [.line " \x7b"]
    inner.block scope s.before
    emit (closeBrace outer)
    return s.after

end Sharp
