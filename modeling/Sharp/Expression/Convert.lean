import Sharp.Expression.Lambda
import Sharp.Expression.Sugar
import Sharp.Switch.Expression

/-!
# Expressions

An expression is converted in one pass over its tokens.  Most tokens are copied; brackets, lambdas,
tuples, indexers, method keywords and switches are converted as a whole.
-/

namespace Sharp

/-! ## Brackets -/

/-- Do the parentheses around the tokens hold exactly one tuple? -/
def holdsOneTuple (ts : List Token) : Bool :=
  hasTop (·.isOp "~") ts && !hasTop (fun t => t.isOp "," || t.isAssignment) ts

/-- Do the parentheses around the tokens hold nothing but another pair, which is no tuple's?  Then
one pair is enough. -/
def isDoubled (ts : List Token) : Bool :=
  match skipTrivia ts with
  | [] => false
  | first :: more =>
    first.isOp "(" &&
      (splitClose .parenthesis more).any fun s =>
        (significant s.after).isEmpty && !holdsOneTuple s.before

def convertGroup (inner : Converters) (place : Place) (frame : Frame) (t : Token)
    (rest : List Token) : Reading Flow :=
  match splitClose .parenthesis rest with
  | none => .fail (.missing t .rightParenthesis)
  | some s => do
    if isDoubled s.before then
      let e ← inner.expression (frame.innerPlace place .group (some s.found)) s.before
      return .next (frame.addInner e.value) s.after
    let frame := frame.operator place "("
    let innerPlace := frame.innerPlace place .group (some s.found)
    let e ← inner.expression { innerPlace with lendsParens := holdsOneTuple s.before } s.before
    return .next ((frame.addInner e.value).operator place ")") s.after

def convertBraces (inner : Converters) (place : Place) (frame : Frame) (t : Token)
    (rest : List Token) : Reading Flow :=
  match splitClose .brace rest with
  | none => .fail (.missing t .rightBrace)
  | some s => do
    let frame := frame.operator place "\x7b"
    let e ← inner.expression (frame.innerPlace place .group (some s.found)) s.before
    return .next ((frame.addInner e.value).operator place "\x7d").vary s.after

/-! ## Operators -/

def paramOperators : List String :=
  [".", "?", ":", "-", "/", "::", "#"]

def convertPlainOperator (place : Place) (frame : Frame) (t : Token) (rest : List Token) :
    Reading Flow := do
  if t.isAssignment then
    note t (.operator .assignment)
    let frame := (frame.closeTuple place).operator place t.text
    return .next (frame.markSegment.markParams rest) rest
  let frame := frame.operator place t.text
  let frame := if paramOperators.contains t.text then frame else frame.markParams rest
  return .next frame rest

def convertComma (place : Place) (frame : Frame) (rest : List Token) : Frame :=
  let frame := ((frame.closeTuple place).operator place ",").markSegment
  if place.mode = .group then frame.markParams rest else frame

def convertConnector (place : Place) (frame : Frame) (t : Token) (rest : List Token) :
    Reading Flow := do
  note t (.operator .tupleConnector)
  let frame := (frame.vary.openTuple place).operator place ","
  return .next (frame.markParams rest) rest

/-- Converts the mark `@`: with a word right after it, it makes a name of that word. -/
def convertAt (place : Place) (frame : Frame) (t : Token) (rest : List Token) :
    Reading Flow :=
  match rest with
  | word :: after =>
    if word.isWord then return .next (frame.word ("@" ++ word.text)).vary after
    else convertPlainOperator place frame t (word :: after)
  | [] => convertPlainOperator place frame t []

def convertOperator (inner : Converters) (place : Place) (frame : Frame) (t : Token)
    (rest : List Token) : Reading Flow :=
  match t.text with
  | ";" =>
    if place.mode = .group then .fail (.unexpected t)
    else return frame.stopAt place (t :: rest)
  | "," =>
    if place.mode = .args then return frame.stopAt place (t :: rest)
    else return .next (convertComma place frame rest) rest
  | "(" => convertGroup inner place frame t rest
  | "\x7b" => convertBraces inner place frame t rest
  | ")" | "\x7d" => .fail (.unexpected t)
  | "#" => convertIndexer inner place frame t rest
  | "~" => convertConnector place frame t rest
  | "=>" => convertLambda inner place frame t rest
  | "@" => convertAt place frame t rest
  | _ => convertPlainOperator place frame t rest

/-! ## Keywords -/

/-- The keywords that can only start a statement, besides those of blocks. -/
def statementWords : List String :=
  ["let", "const", "prop", "class", "struct", "using", "namespace", "enum", "interface", "record"]

def Token.startsStatement (t : Token) : Bool :=
  statementWords.contains t.text ||
    (t.keywordRole? == some .blockWithExpr || t.keywordRole? == some .blockWithoutExpr) &&
      t.text != "switch"

/-- The keywords that are used like functions. -/
def methodWords : List String :=
  ["nameof", "sizeof", "typeof", "default", "checked", "unchecked"]

def spacedWords : List String :=
  ["return", "await", "throw", "goto", "break", "continue", "yield", "is", "as", "in", "out", "ref",
   "not", "and", "or"]

def convertFunctionType (frame : Frame) (t : Token) (rest : List Token) : Reading Flow := do
  let ts := significant (t :: rest)
  let type ← TypeExpr.read .declaration (.missing t .type) ts
  match ← tokensBefore t ts type.rest with
  | [] => .fail (.outside t)
  | _ :: used =>
    let after := skipTrivia (dropSignificant used.length rest)
    return .next (frame.word (type.value.render .plain)) after

def convertPlainKeyword (frame : Frame) (t : Token) (rest : List Token) :
    Reading Flow := do
  if t.keywordRole? = some .expr ∨ t.text = "yield" then
    note t (.keyword .expr)
    return .next ((frame.keyword t.text).markSegment.markParams rest) rest
  if spacedWords.contains t.text then
    return .next ((frame.keyword t.text).markParams rest) rest
  return .next (frame.word t.text) rest

def convertKeyword (inner : Converters) (place : Place) (frame : Frame) (t : Token)
    (rest : List Token) : Reading Flow :=
  if t.isLiteral then return .next (frame.word t.text) rest
  else
    let frame := frame.vary
    if t.startsStatement then .fail (.missing t (.semicolonBefore t.text))
    else if methodWords.contains t.text then convertMethodKeyword inner place frame t rest
    else
      match t.text with
      | "fn" => convertFunctionType frame t rest
      | "switch" => convertSwitchExpression inner place frame t rest
      | "new" => convertNewType (frame.word "new") t rest
      | "async" | "static" =>
        return .next ((frame.keyword t.text).markParams rest) rest
      | _ => convertPlainKeyword frame t rest

/-! ## Whole expressions -/

def convertToken (inner : Converters) (place : Place) (frame : Frame) (t : Token)
    (rest : List Token) : Reading Flow :=
  match t.category with
  | .lineBreak | .space | .comment => return .next frame rest
  | .operator => convertOperator inner place frame t rest
  | .keyword | .contextKeyword => convertKeyword inner place frame t rest
  | .identifier => return .next (frame.word t.text).vary rest
  | .stringLiteral | .rawStringLiteral | .charLiteral | .numberLiteral =>
    return .next (frame.push (.literal t.text)) rest

/-- Converts the expression in front of some tokens, up to its end or all of them, given the
converters for what it contains. -/
def convertExpression (inner : Converters) (place : Place) (ts : List Token) :
    Reading (Parsed Expression) :=
  walk (convertToken inner place) (fun frame => return ⟨frame.finish place, []⟩) (Frame.start ts) ts

end Sharp
