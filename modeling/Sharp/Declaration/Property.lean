import Sharp.Declaration.Header
import Sharp.Statement.Basic
import Sharp.TypeExpr.Reader

/-!
# Properties

A property has an expression body (`=> value;` or `=> { ... }`), or accessors and possibly an
initial value.  Its accessibility stands before the body or after the accessors, never at both
places.
-/

namespace Sharp

/-! ## Accessors -/

inductive AccessorKind where
  | get
  | set
  | init
  deriving DecidableEq

namespace AccessorKind

def text : AccessorKind → String
  | get => "get"
  | set => "set"
  | init => "init"

def ofToken? (t : Token) : Option AccessorKind :=
  if t.isKeyword "get" then some get
  else if t.isKeyword "set" then some set
  else if t.isKeyword "init" then some init
  else none

/-- A property can have one accessor that reads and one that writes. -/
def conflicts (a b : AccessorKind) : Bool :=
  a == b || (a != get && b != get)

end AccessorKind

inductive AccessorBody where
  /-- None: it is generated. -/
  | auto
  /-- An expression up to a `;`.  The tokens are all those after the arrow. -/
  | expression (arrow : Token) (tokens : List Token)
  /-- A block.  The tokens are those after its opening brace. -/
  | block (opening : Token) (tokens : List Token)

def AccessorBody.isAuto : AccessorBody → Bool
  | auto => true
  | _ => false

structure PropAccessor where
  kind : AccessorKind
  isReadonly : Bool
  access : List String
  body : AccessorBody

def PropAccessor.text (accessor : PropAccessor) : String :=
  accessText accessor.access ++ (if accessor.isReadonly then "readonly " else "") ++
    accessor.kind.text

/-- Checks that an accessor may stand beside those before it. -/
def AccessorKind.checkAfter (kind : AccessorKind) (t : Token) (before : List AccessorKind) :
    Except Fault Unit :=
  match before.find? kind.conflicts with
  | none => .ok ()
  | some other =>
    .error (.blame t
      (if other = kind then .duplicate kind.text else .modifiersExclude kind.text other.text))

/-- Reads `immut` in front of an accessor, and gives the token and the tokens after it. -/
def readAccessorImmut (t : Token) (rest : List Token) : Reading (Bool × Token × List Token) :=
  if !t.isKeyword "immut" then return (false, t, rest)
  else do
    note t (.modifier .other)
    match skipTrivia rest with
    | [] => .fail (.missing t .accessor)
    | word :: more => return (true, word, more)

def readAccessorAccess (ts : List Token) : Reading (Parsed (List String)) :=
  match skipTrivia ts with
  | [] => return ⟨[], []⟩
  | marker :: rest =>
    if marker.isOp "@" then readAccess marker rest else return ⟨[], marker :: rest⟩

/-- Reads the body of an accessor; `t` is the accessor's keyword, and `after` are the tokens after
the accessors. -/
def readAccessorBody (t : Token) (after : List Token) (ts : List Token) :
    Reading (Parsed AccessorBody) :=
  match ts with
  | [] => .fail (.missing t .semicolon)
  | marker :: rest => do
    if marker.isOp ";" then return ⟨.auto, rest⟩
    if marker.isOp "=>" then
      note marker (.operator .lambda)
      match splitTop (·.isOp ";") rest with
      | none => .fail (.missing marker .semicolon)
      | some s => return ⟨.expression marker (rest ++ after), s.after⟩
    if marker.isOp "\x7b" then
      match splitClose .brace rest with
      | none => .fail (.missing marker .rightBrace)
      | some s => return ⟨.block marker rest, s.after⟩
    .fail (.unexpected marker)

/-- Reads an accessor; `accessors` have been read, and `after` are the tokens from the closing brace
on. -/
def readPropAccessor (after : List Token) (accessors : List PropAccessor) (first : Token)
    (more : List Token) : Reading (Parsed PropAccessor) := do
  let (isReadonly, t, rest) ← readAccessorImmut first more
  match AccessorKind.ofToken? t with
  | none => .fail (.unexpected t)
  | some kind =>
    note t (.keyword .accessor)
    match kind.checkAfter t (accessors.map PropAccessor.kind) with
    | .error fault => .fail fault
    | .ok () =>
      let access ← readAccessorAccess rest
      let body ← readAccessorBody t after access.rest
      return ⟨⟨kind, isReadonly, access.value, body.value⟩, body.rest⟩

def readPropAccessorRound (after : List Token) (accessors : List PropAccessor) (first : Token)
    (more : List Token) : Reading (Step (List PropAccessor) (List PropAccessor)) := do
  if first.isTrivia then return .next accessors more
  let accessor ← readPropAccessor after accessors first more
  return .next (accessors ++ [accessor.value]) accessor.rest

def readPropAccessors (after : List Token) (ts : List Token) : Reading (List PropAccessor) :=
  walk (readPropAccessorRound after) (fun accessors => return accessors) [] ts

def convertPropAccessor (inner : Converters) (scope : Scope) (accessor : PropAccessor) :
    Draft Unit := do
  emit (Piece.indents scope.level ++ [Piece.raw accessor.text])
  match accessor.body with
  | .auto => emit [.line ";"]
  | .expression arrow ts =>
    -- The conversion ends on its own; the next accessor is found by the `;`.
    emit [.raw " => "]
    let _ ← convertRightSide inner scope arrow ts
  | .block opening ts =>
    let _ ← convertBraced inner scope.level scope.enterBody opening ts

def convertPropAccessorLines (inner : Converters) (scope : Scope) : List PropAccessor → Draft Unit
  | [] => return ()
  | accessor :: accessors => do
    convertPropAccessor inner scope accessor
    convertPropAccessorLines inner scope accessors

/-- Accessors without bodies, each with a space after it. -/
def autoAccessorsText : List PropAccessor → String
  | [] => ""
  | accessor :: accessors => accessor.text ++ "; " ++ autoAccessorsText accessors

/-- Converts the accessors of a property: on one line when none has a body, otherwise each on lines
of its own. -/
def convertPropAccessors (inner : Converters) (scope : Scope) (accessors : List PropAccessor) :
    Draft Unit :=
  if accessors.all (·.body.isAuto) then
    emit [.raw (" \x7b " ++ autoAccessorsText accessors ++ "\x7d")]
  else do
    emit [.line " \x7b"]
    convertPropAccessorLines inner (scope.enterFn false) accessors
    emit (Piece.indents scope.level ++ [Piece.raw "\x7d"])

/-! ## Declarations -/

structure PropHeader where
  inheritance : Option Inheritance
  type : TypeExpr
  name : Token

def PropHeader.text (header : PropHeader) (access : List String) : String :=
  accessText access ++ (header.inheritance.map fun i => i.text ++ " ").getD "" ++
    header.type.render .plain ++ " " ++ header.name.text

def Token.startsPropBody (t : Token) : Bool :=
  t.isOpIn ["\x7b", "=>", "=", ";"]

def convertPropExpression (inner : Converters) (scope : Scope) (header : PropHeader)
    (access : List String) (arrow : Token) (ts : List Token) : Draft (List Token) := do
  note arrow (.operator .lambda)
  match skipTrivia ts with
  | [] => .fail (.missing arrow .expression)
  | body :: more =>
    emit (Piece.indents scope.level)
    if !body.isOp "\x7b" then
      emit [.raw (header.text access ++ " => ")]
      let value ← convertRightSide inner scope arrow ts
      return value.rest
    let getter := scope.enterFn false
    emit (.line (header.text access ++ " \x7b") :: Piece.indents getter.level ++ [Piece.raw "get"])
    let after ← convertBraced inner getter.level getter.enterBody body more
    emit (closeBrace scope.level)
    return after

/-- Reads the accessibility after the accessors, given the one before them.  Together with it, gives
the tokens after it if they go on with a value, a body or a `;`. -/
def readPropAccessAfter (access : List String) (ts : List Token) : Reading (Parsed (List String)) :=
  match skipTrivia ts with
  | [] => return ⟨access, []⟩
  | marker :: rest =>
    if !marker.isOp "@" then return ⟨access, marker :: rest⟩
    else if !access.isEmpty then .fail (.blame marker (.duplicate "accessibility modifier"))
    else
      match splitTop (·.isOpIn ["=", "=>", ";"]) rest with
      | none => do
        let mods ← readWholeAccess marker rest
        return ⟨mods, []⟩
      | some s => do
        let mods ← readWholeAccess marker s.before
        return ⟨mods, s.found :: s.after⟩

/-- Converts what stands after the accessors: an initial value, a `;` or nothing.  `block` are the
tokens after their closing brace, and `ts` those after the accessibility. -/
def convertPropValue (inner : Converters) (scope : Scope) (block ts : List Token) :
    Draft (List Token) :=
  match ts with
  | [] => do
    emit [.lineBreak]
    return block
  | t :: rest => do
    if t.isOp "=" then
      note t (.operator .assignment)
      emit [.raw " = "]
      let value ← convertRightSide inner scope t rest
      return value.rest
    if t.isOp "=>" then .fail (.blame t .expressionBodyAndAccessors)
    emit [.lineBreak]
    if t.isOp ";" then return rest
    return block

def convertPropBlock (inner : Converters) (scope : Scope) (header : PropHeader)
    (access : List String) (opening : Token) (ts : List Token) : Draft (List Token) :=
  match splitClose .brace ts with
  | none => .fail (.missing opening .rightBrace)
  | some s => do
    let accessors ← readPropAccessors (s.found :: s.after) s.before
    if accessors.isEmpty then .fail (.missing opening .accessor)
    let after ← readPropAccessAfter access s.after
    emit (Piece.indents scope.level ++ [Piece.raw (header.text after.value)])
    convertPropAccessors inner scope accessors
    convertPropValue inner scope s.after after.rest

/-- Reads the accessibility before the body of a property; `s` splits its tokens at the end of its
type.  Gives the token at which the body starts and the tokens after it. -/
def readPropAccess (name : Token) (s : Split) : Reading (List String × Token × List Token) :=
  if !s.found.isOp "@" then return ([], s.found, s.after)
  else
    match splitTop Token.startsPropBody s.after with
    | none => .fail (.missing name .assignmentOrLambda)
    | some body => do
      let access ← readWholeAccess s.found body.before
      return (access, body.found, body.after)

def readPropName (t : Token) (ts : List Token) : Reading (Parsed (Token × Token)) :=
  match skipTrivia ts with
  | [] => .fail (.missing t .propertyName)
  | name :: rest => do
    if !name.isNameLike then .fail (.missing t .propertyName)
    note name (.name .prop)
    match skipTrivia rest with
    | [] => .fail (.missing t .colon)
    | colon :: more =>
      if !colon.isOp ":" then .fail (.missing t .colon)
      note colon (.operator .typeMark)
      return ⟨(name, colon), more⟩

structure PropParts where
  header : PropHeader
  access : List String
  /-- The token at which the body starts. -/
  marker : Token
  /-- The tokens after it. -/
  body : List Token

def readProp (scope : Scope) (pending : Modifiers) (t : Token) (rest : List Token) :
    Reading PropParts := do
  note t (.keyword .declarator)
  if scope.isFn then .fail (.blame t .propertyInFunction)
  let inheritance ← Logged.ofExcept (pending.forProp scope.container)
  let named ← readPropName t rest
  let (name, colon) := named.value
  match splitTop (fun t => t.isOp "@" || t.startsPropBody) named.rest with
  | none => .fail (.missing name .assignmentOrLambda)
  | some s =>
    let type ← TypeExpr.readWhole colon (significant s.before)
    let (access, marker, body) ← readPropAccess name s
    return ⟨⟨inheritance, type, name⟩, access, marker, body⟩

def convertProp (inner : Converters) (scope : Scope) (pending : Modifiers) (t : Token)
    (rest : List Token) : Draft (List Token) := do
  let parts ← readProp scope pending t rest
  let ⟨header, access, marker, body⟩ := parts
  if marker.isOp "=>" then convertPropExpression inner scope header access marker body
  else if marker.isOp "\x7b" then convertPropBlock inner scope header access marker body
  else if marker.isOp "=" then .fail (.blame marker .noExpressionBody)
  else .fail (.missing header.name .assignmentOrLambda)

end Sharp
