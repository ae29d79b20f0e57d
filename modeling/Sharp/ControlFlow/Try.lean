import Sharp.ControlFlow.Basic

/-!
# Handling exceptions

* `convertCatchHeader`: what a handler catches.
* `convertHandlers`: the handlers after a block.
* `convertTry`: the block and its handlers.
-/

namespace Sharp

/-- Reads what a handler catches, and gives it in C#; `t` is the keyword in front of it. -/
def readCaught (t : Token) (ts : List Token) : Reading String :=
  match ts with
  | [] => return ""
  | [single] => caughtType t [single]
  | name :: colon :: typePart =>
    if !colon.isOp ":" then caughtType t (name :: colon :: typePart)
    else do
      if !name.isNameLike then .fail (.unexpected name)
      note name (.name .var)
      let type ← TypeExpr.readWhole colon typePart
      return " (" ++ type.render .plain ++ " " ++ name.text ++ ")"
where
  caughtType (t : Token) (ts : List Token) : Reading String := do
    let type ← TypeExpr.readWhole t ts
    return " (" ++ type.render .plain ++ ")"

/-- Converts what is between the keyword `t` of a handler and its brace `fence`: what it catches,
and after `*` a condition. -/
def convertCatchHeader (inner : Converters) (scope : Scope) (t fence : Token) (ts : List Token) :
    Draft Unit :=
  match splitTop (·.isOp "*") ts with
  | none => do
    let caught ← readCaught t (significant ts)
    emitNonempty caught
  | some s => do
    let caught ← readCaught t (significant s.before)
    emitNonempty caught
    emit [.raw " when "]
    convertCondition inner scope s.found fence s.after
where
  emitNonempty (text : String) : Draft Unit :=
    if text.isEmpty then return () else emit [.raw text]

/-- Converts a block that follows the keyword `t` directly. -/
def convertKeywordBlock (inner : Converters) (scope : Scope) (t : Token) (ts : List Token) :
    Draft (List Token) :=
  match skipTrivia ts with
  | [] => .fail (.missing t .leftBrace)
  | opening :: more => do
    if !opening.isOp "\x7b" then .fail (.missing t .leftBrace)
    emit (Piece.indents scope.level ++ [Piece.raw t.text])
    convertBraced inner scope.level scope.enterBody opening more

def convertCatch (inner : Converters) (scope : Scope) (t : Token) (ts : List Token) :
    Draft (List Token) := do
  let head ← splitHeader false t ts
  emit (Piece.indents scope.level ++ [Piece.raw "catch"])
  convertCatchHeader inner scope t head.found head.before
  convertBraced inner scope.level scope.enterBody head.found head.after

/-- Whether a block has been handled, and the tokens after its last handler. -/
abbrev Handled : Type :=
  Parsed Bool

/-- Converts a handler, or skips a token in front of one. -/
def convertHandlerRound (inner : Converters) (scope : Scope) (state : Handled) (t : Token)
    (rest : List Token) : Draft (Step Handled Handled) := do
  if t.isTrivia then return .next state rest
  if t.isKeyword "catch" then
    let after ← convertCatch inner scope t rest
    return .next ⟨true, after⟩ after
  if t.isKeyword "finally" then
    let after ← convertKeywordBlock inner scope t rest
    return .stop ⟨true, after⟩
  return .stop state

def convertHandlers (inner : Converters) (scope : Scope) (ts : List Token) : Draft Handled :=
  walk (convertHandlerRound inner scope) (fun state => return state) ⟨false, ts⟩ ts

def convertTry (inner : Converters) (scope : Scope) (t : Token) (rest : List Token) :
    Draft (List Token) := do
  let after ← convertKeywordBlock inner scope t rest
  let handlers ← convertHandlers inner scope after
  if !handlers.value then .fail (.missing t .catchOrFinally)
  return handlers.rest

end Sharp
