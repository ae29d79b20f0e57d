import Sharp.Expression.Frame
import Sharp.TypeExpr.Reader
import Sharp.TypeExpr.Render

/-!
# Arguments without brackets

Indexers and the method keywords take their arguments without brackets: `xs#i, j;` and
`nameof x;`.  The arguments end at a `;`, and a name right after it continues the expression.
-/

namespace Sharp

def endsLine (ts : List Token) : Bool :=
  (skipTrivia ts).isEmpty || (ts.takeWhile Token.isTrivia).any Token.isLineBreak

/-- Goes on after the `;` at the end of the arguments.  A name right after it is a member of the
value; in a statement, a `;` at the end of a line ends the statement too. -/
def afterArguments (place : Place) (frame : Frame) (semicolon : Token) (ts : List Token) : Flow :=
  if (ts.head?.map Token.isWord).getD false then .next (frame.operator place ".") ts
  else if place.mode = .statement ∧ endsLine ts then frame.stopAt place (semicolon :: ts)
  else .next frame ts

inductive ArgumentKind where
  | expression
  /-- Types; without one, the type is missing at the keyword. -/
  | type (keyword : Token)

structure ArgumentState where
  frame : Frame
  before : Token

/-- No argument follows; `next` is the token where it is missing, if there is one. -/
def ArgumentKind.missing (kind : ArgumentKind) (place : Place) (before : Token)
    (next : Option Token) : Fault :=
  match kind with
  | .type keyword => .missing keyword .type
  | .expression => .missing ((next <|> place.fence).getD before) .argument

def convertArgument (inner : Converters) (kind : ArgumentKind) (place : Place)
    (state : ArgumentState) (first : Token) (more : List Token) : Reading (Parsed Frame) :=
  match kind with
  | .type keyword =>
    match splitTop (fun t => t.isOp "," || t.isOp ";") (first :: more) with
    | some s => do
      let type ← TypeExpr.readWhole keyword (significant s.before)
      return ⟨state.frame.word (type.render .plain), s.found :: s.after⟩
    | none => do
      let type ← TypeExpr.readWhole keyword (significant (first :: more))
      return ⟨state.frame.word (type.render .plain), []⟩
  | .expression => do
    let arg ← inner.expressionFrom (state.frame.innerPlace place .args place.fence) first more
    if arg.value.pieces.isEmpty then .fail (kind.missing place state.before arg.rest.head?)
    return ⟨state.frame.append arg.value.pieces, arg.rest⟩

/-- Converts an argument and the `,` after it; after the last one, goes on with the expression. -/
def convertArgumentRound (inner : Converters) (kind : ArgumentKind) (closer : String)
    (place : Place) (state : ArgumentState) (first : Token) (more : List Token) :
    Reading (Step ArgumentState Flow) := do
  let arg ← convertArgument inner kind place state first more
  match arg.rest with
  | [] => return .stop (.next (arg.value.operator place closer) [])
  | t :: rest =>
    if t.isOp "," then return .next ⟨arg.value.operator place ",", t⟩ rest
    return .stop (afterArguments place (arg.value.operator place closer) t rest)

/-- Converts the arguments in front of some tokens and closes them with `closer`; `before` is the
token in front of them. -/
def convertArguments (inner : Converters) (kind : ArgumentKind) (closer : String) (place : Place)
    (frame : Frame) (before : Token) (ts : List Token) : Reading Flow :=
  walk (convertArgumentRound inner kind closer place)
    (fun state => .fail (kind.missing place state.before none)) ⟨frame, before⟩ ts

/-- The operators after `#` that leave an indexer empty. -/
def emptyIndexFollowers : List String :=
  [";", ",", ")", "\x7d", "#", ".", "?.", "!.", "=>", "\x7b", "?"]

def isEmptyIndex (ts : List Token) : Bool :=
  match skipTrivia ts with
  | [] => true
  | t :: _ => t.isOpIn emptyIndexFollowers || t.isAssignment

def emptyParens? (ts : List Token) : Option Token :=
  match skipTrivia ts with
  | opening :: more =>
    match skipTrivia more with
    | closing :: _ => if opening.isOp "(" && closing.isOp ")" then some opening else none
    | [] => none
  | [] => none

def convertIndexer (inner : Converters) (place : Place) (frame : Frame) (t : Token)
    (rest : List Token) : Reading Flow := do
  note t (.operator .indexer)
  if let some opening := emptyParens? rest then .fail (.unexpected opening)
  let frame := frame.vary.operator place "["
  if isEmptyIndex rest then return .next (frame.operator place "]") rest
  convertArguments inner .expression "]" place frame t rest

/-- The operators after `default` that make it a value of its own. -/
def defaultFollowers : List String :=
  [";", ",", ")", "\x7d", ":", "=>", "?"]

def isDefaultLiteral (ts : List Token) : Bool :=
  match skipTrivia ts with
  | [] => true
  | t :: _ => t.isOpIn defaultFollowers

def typeKeywords : List String :=
  ["typeof", "sizeof", "default"]

def convertMethodKeyword (inner : Converters) (place : Place) (frame : Frame) (t : Token)
    (rest : List Token) : Reading Flow := do
  let frame := frame.word t.text
  if t.text = "default" ∧ isDefaultLiteral rest then return .next frame rest
  if startsWithOp "(" (skipTrivia rest) then return .next frame rest
  note t (.keyword .method)
  let kind := if typeKeywords.contains t.text then .type t else .expression
  convertArguments inner kind ")" place (frame.operator place "(") t rest

def newTypeEnds : List String :=
  ["(", "\x7b", ";", ",", ")", "\x7d", "#", "=", "=>"]

def convertNewType (frame : Frame) (t : Token) (rest : List Token) : Reading Flow :=
  match skipTrivia rest with
  | [] => return .next frame rest
  | first :: more =>
    if !first.isWord then return .next frame rest
    else
      match splitTop (·.isOpIn newTypeEnds) (first :: more) with
      | some s => do
        let type ← TypeExpr.readWhole t (significant s.before)
        return .next (frame.word (type.render .plain)) (s.found :: s.after)
      | none => do
        let type ← TypeExpr.readWhole t (significant (first :: more))
        return .next (frame.word (type.render .plain)) []

end Sharp
