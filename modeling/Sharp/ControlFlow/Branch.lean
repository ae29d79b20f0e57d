import Sharp.ControlFlow.Basic

/-!
# Branches

* `convertGuarded`: a keyword, a condition and a body.
* `convertIf`: a chain of `if`, `elif` and `else`.
* `convertBare`: a keyword and a block.
-/

namespace Sharp

/-- Converts a condition and a body after the given words; `t` is the keyword in front of them. -/
def convertGuarded (inner : Converters) (words : String) (scope : Scope) (t : Token)
    (ts : List Token) : Draft (List Token) := do
  let head ← splitHeader true t ts
  emit (Piece.indents scope.level ++ [Piece.raw (words ++ " ")])
  convertCondition inner scope t head.found head.before
  convertBody inner scope head.found head.after

inductive BranchFollower where
  /-- Another condition; `t` is the keyword in front of it. -/
  | elseIf (t : Token) (ts : List Token)
  /-- The last branch; `t` is the `{` or `;` in front of its body. -/
  | otherwise (t : Token) (ts : List Token)
  /-- Nothing that belongs to the `if`. -/
  | other

def branchFollower (ts : List Token) : Draft BranchFollower :=
  match skipTrivia ts with
  | [] => return .other
  | t :: rest =>
    if t.isKeyword "elif" then return .elseIf t rest
    else if !t.isKeyword "else" then return .other
    else
      match skipTrivia rest with
      | [] => .fail (.missing t .leftBrace)
      | next :: more =>
        if next.isKeyword "if" then return .elseIf next more
        else if next.isOpIn ["\x7b", ";"] then return .otherwise next more
        else .fail (.missing t .leftBrace)

/-- Converts one condition with its body, and the last branch after it; `t` is the keyword in front
of the condition. -/
def convertIfRound (inner : Converters) (scope : Scope) (words : String) (t : Token)
    (ts : List Token) : Draft (Step String (List Token)) := do
  let rest ← convertGuarded inner words scope t ts
  match ← branchFollower rest with
  | .other => return .stop rest
  | .elseIf next more => return .next "else if" (next :: more)
  | .otherwise next more =>
    emit (Piece.indents scope.level ++ [Piece.raw "else"])
    let after ← convertBody inner scope next more
    return .stop after

def convertIf (inner : Converters) (scope : Scope) (t : Token) (rest : List Token) :
    Draft (List Token) :=
  walk (convertIfRound inner scope) (fun _ => return []) "if" (t :: rest)

/-- Converts a block with nothing between its keyword `t` and its brace. -/
def convertBare (inner : Converters) (scope : Scope) (t : Token) (rest : List Token) :
    Draft (List Token) := do
  let head ← splitHeader false t rest
  if let extra :: _ := skipTrivia head.before then .fail (.unexpected extra)
  emit (Piece.indents scope.level ++ [Piece.raw t.text])
  convertBraced inner scope.level scope.enterBody head.found head.after

end Sharp
