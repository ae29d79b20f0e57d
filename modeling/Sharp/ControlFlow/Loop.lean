import Sharp.ControlFlow.Basic

/-!
# Loops

* `convertFor`: three clauses.
* `convertForeach`: the elements of a collection.
* `convertDo`: the condition after the body.
-/

namespace Sharp

structure ForClauses where
  start : List Token
  /-- The `;` after the first clause. -/
  startEnd : Token
  condition : List Token
  /-- The `;` after the second clause. -/
  conditionEnd : Token
  step : List Token

/-- Splits a `for` header into its three clauses; `t` is the keyword in front of it. -/
def splitForClauses (t : Token) (ts : List Token) : Draft ForClauses :=
  match splitTop (·.isOp ";") ts with
  | none => .fail (.blame t .forClauses)
  | some first =>
    match splitTop (·.isOp ";") first.after with
    | none => .fail (.blame t .forClauses)
    | some second =>
      match splitTop (·.isOp ";") second.after with
      | some extra => .fail (.unexpected extra.found)
      | none => return ⟨first.before, first.found, second.before, second.found, second.after⟩

/-- Converts the first clause of a `for`; `fence` is the `;` after it. -/
def convertForStart (inner : Converters) (scope : Scope) (fence : Token) (ts : List Token) :
    Draft Unit := do
  match skipTrivia ts with
  | [] => emit (← convertInHeader inner scope fence ts)
  | first :: more =>
    if !first.isKeyword "let" then emit (← convertInHeader inner scope fence ts)
    else
      match splitTop (·.isOp "=") (first :: more) with
      | none => .fail (.missing first .assignment)
      | some s =>
        let declared ← readLoopVariable first s.before
        emit [.raw (declared ++ " = ")]
        emit (← convertInHeader inner scope fence s.after)

/-- Converts a clause of a `for` after the first; `fence` is the token after it. -/
def convertForClause (inner : Converters) (scope : Scope) (fence : Token) (ts : List Token) :
    Draft Unit := do
  if isAllTrivia ts then emit [.raw ";"]
  else
    emit [.raw "; "]
    emit (← convertInHeader inner scope fence ts)

def convertFor (inner : Converters) (scope : Scope) (t : Token) (rest : List Token) :
    Draft (List Token) := do
  let head ← splitHeader false t rest
  let clauses ← splitForClauses t head.before
  emit (Piece.indents scope.level ++ [Piece.raw "for ("])
  convertForStart inner scope clauses.startEnd clauses.start
  convertForClause inner scope clauses.conditionEnd clauses.condition
  convertForClause inner scope head.found clauses.step
  emit [.raw ")"]
  convertBody inner scope head.found head.after

def convertForeach (inner : Converters) (scope : Scope) (t : Token) (rest : List Token) :
    Draft (List Token) := do
  let head ← splitHeader true t rest
  match splitTop (·.isKeyword "in") head.before with
  | none => .fail (.missing t .inWord)
  | some s =>
    let declared ← readLoopVariable t s.before
    if isAllTrivia s.after then .fail (.missing s.found .collection)
    emit (Piece.indents scope.level ++ [Piece.raw ("foreach (" ++ declared ++ " in ")])
    emit (← convertInHeader inner scope head.found s.after)
    emit [.raw ")"]
    convertBody inner scope head.found head.after

/-- Converts a `do while` loop, whose condition is written before its body; `t` is its keyword. -/
def convertDo (inner : Converters) (scope : Scope) (t : Token) (rest : List Token) :
    Draft (List Token) :=
  match skipTrivia rest with
  | [] => .fail (.missing t .whileAfterDo)
  | word :: more => do
    if !word.isKeyword "while" then .fail (.missing t .whileAfterDo)
    let head ← splitHeader false word more
    match splitClose .brace head.after with
    | none => .fail (.missing head.found .rightBrace)
    | some body =>
      emit (Piece.indents scope.level ++ [Piece.line "do \x7b"])
      inner.block scope.enterBody body.before
      emit (Piece.indents scope.level ++ [Piece.raw "\x7d while "])
      convertCondition inner scope word head.found head.before
      emit [.raw ";", .lineBreak]
      return body.after

end Sharp
