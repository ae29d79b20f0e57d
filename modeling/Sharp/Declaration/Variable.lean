import Sharp.Declaration.Function

/-!
# Variables, constants and fields

* `VariableKind`: what is declared.
* `literalType?`, `inferConstType`: the type of a constant that is declared without one.
* `convertVariable`: a declaration with or without an initial value.
-/

namespace Sharp

inductive VariableKind where
  | letVar
  | constant
  | immutField
  deriving DecidableEq

def VariableKind.nameRole (kind : VariableKind) (container : Container) : NameRole :=
  if kind = .constant then .const else if container.isTypeBody then .field else .var

def VariableKind.text : VariableKind → String
  | letVar => ""
  | constant => "const "
  | immutField => "readonly "

/-! ## Types of literals -/

def endsWith (text ending : List Char) : Bool :=
  ending.isSuffixOf text

/-- The type of a number, which its ending and its form tell. -/
def numberType (text : String) : String :=
  let cs := text.toLower.toList
  let isHex := ['0', 'x'].isPrefixOf cs || ['0', 'b'].isPrefixOf cs
  if endsWith cs ['u', 'l'] || endsWith cs ['l', 'u'] then "ulong"
  else if endsWith cs ['u'] then "uint"
  else if endsWith cs ['l'] then "long"
  else if isHex then "int"
  else if endsWith cs ['m'] then "decimal"
  else if endsWith cs ['f'] then "float"
  else if endsWith cs ['d'] || cs.contains '.' || cs.contains 'e' then "double"
  else "int"

/-- The type of a literal; `null` has none. -/
def literalType? (t : Token) : Option String :=
  match t.category with
  | .stringLiteral | .rawStringLiteral => some "string"
  | .charLiteral => some "char"
  | .numberLiteral => some (numberType t.text)
  | .keyword => if t.vocabularyRole? = some (.literal .bool) then some "bool" else none
  | _ => none

/-- The literal that some tokens are, possibly behind a sign. -/
def soleLiteral? (ts : List Token) : Option Token :=
  match significant ts with
  | [literal] => some literal
  | [sign, literal] =>
    if sign.isOp "-" && literal.category == .numberLiteral then some literal else none
  | _ => none

/-- The type of a constant whose initial value is in front of the first `;` of some tokens. -/
def inferConstType? (ts : List Token) : Option String :=
  soleLiteral? (((splitTop (·.isOp ";") ts).map Split.before).getD ts) >>= literalType?

/-! ## Declarations -/

structure VariableHeader where
  name : Token
  type : Option TypeExpr
  access : List String

def readVariableType (ts : List Token) : Reading (Option TypeExpr) :=
  match ts with
  | [] => return none
  | colon :: rest => do
    if !colon.isOp ":" then .fail (.unexpected colon)
    note colon (.operator .typeMark)
    let type ← TypeExpr.readWhole colon rest
    return some type

def readVariableHeader (kind : VariableKind) (scope : Scope) (t : Token) (ts : List Token) :
    Reading VariableHeader :=
  match significant ts with
  | [] => .fail (.missing t .variableName)
  | name :: header => do
    if !name.isNameLike then .fail (.missing t .variableName)
    note name (.name (kind.nameRole scope.container))
    let (typePart, accessPart) := splitAtMark header
    let type ← readVariableType typePart
    let access ← readMemberAccess scope accessPart
    return ⟨name, type, access⟩

/-- The type that is written for a variable; `hasValue` tells whether it has an initial value, and
`value` are the tokens after the header. -/
def VariableHeader.typeText (header : VariableHeader) (kind : VariableKind) (scope : Scope)
    (hasValue : Bool) (value : List Token) : Except Fault String :=
  match header.type, kind with
  | some type, _ => .ok (type.render .plain)
  | none, .immutField => .error (.blame header.name .untypedImmutableField)
  | none, .constant =>
    match inferConstType? value with
    | some text => .ok text
    | none => .error (.blame header.name .untypedConst)
  | none, .letVar =>
    if !hasValue then .error (.missing header.name .type)
    else if scope.isFn then .ok "var"
    else .error (.blame header.name .untypedField)

def convertVariable (inner : Converters) (kind : VariableKind) (scope : Scope)
    (pending : Modifiers) (t : Token) (rest : List Token) : Draft (List Token) := do
  Logged.ofExcept pending.forVariable
  match splitTop (fun t => t.isAssignment || t.isOp ";") rest with
  | none =>
    let _ ← readVariableHeader kind scope t rest
    .fail (.missing ((significant rest).getLastD t) .semicolon)
  | some s =>
    let header ← readVariableHeader kind scope t s.before
    if !s.found.isOpIn ["=", ";"] then .fail (.unexpected s.found)
    let hasValue := s.found.isOp "="
    let type ← Logged.ofExcept (header.typeText kind scope hasValue s.after)
    let text := accessText header.access ++ kind.text ++ type ++ " " ++ header.name.text
    if !hasValue then
      if kind = .constant then .fail (.blame header.name .nonConstantConst)
      emit (Piece.indents scope.level ++ [Piece.line (text ++ ";")])
      return s.after
    note s.found (.operator .assignment)
    emit (Piece.indents scope.level ++ [Piece.raw (text ++ " = ")])
    let value ← convertRightSide inner scope s.found s.after
    if kind = .constant ∧ !value.value then .fail (.blame header.name .nonConstantConst)
    return value.rest

end Sharp
