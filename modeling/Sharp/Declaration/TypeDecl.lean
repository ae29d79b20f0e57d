import Sharp.Declaration.Header
import Sharp.Statement.Basic
import Sharp.TypeExpr.Reader

/-!
# Classes and structs

* `readBases`: the list of base types.
* `convertTypeDecl`: a class or a struct.
-/

namespace Sharp

/-- Reads a base type, and the `,` after it; `bases` have been read. -/
def readBaseRound (bases : List TypeExpr) (first : Token) (more : List Token) :
    Reading (Step (List TypeExpr) (Parsed (List TypeExpr))) := do
  let base ← TypeExpr.reader.readFrom .declaration first more
  let bases := bases ++ [base.value]
  match base.rest with
  | [] => return .stop ⟨bases, []⟩
  | t :: rest => if t.isOp "," then return .next bases rest else return .stop ⟨bases, t :: rest⟩

def readBases (colon : Token) (ts : List Token) : Reading (Parsed (List TypeExpr)) :=
  walk readBaseRound (fun _ => .fail (.missing colon .type)) [] ts

def readBasesHeader (ts : List Token) : Reading (Parsed (List TypeExpr)) :=
  match ts with
  | [] => return ⟨[], []⟩
  | colon :: rest => do
    if !colon.isOp ":" then return ⟨[], colon :: rest⟩
    note colon (.operator .typeMark)
    readBases colon rest

def basesText : List TypeExpr → String
  | [] => ""
  | bases => " : " ++ commaSeparated (bases.map (TypeExpr.render .plain))

/-- Reads what can follow all other parts of a header: accessibility modifiers. -/
def readHeaderAccess (ts : List Token) : Reading (List String) :=
  match ts with
  | [] => return []
  | marker :: rest =>
    if marker.isOp "@" then readWholeAccess marker rest else .fail (.unexpected marker)

inductive TypeDeclKind where
  | classType
  | structType
  deriving DecidableEq

namespace TypeDeclKind

def nameRole : TypeDeclKind → NameRole
  | classType => .classType
  | structType => .structType

def container : TypeDeclKind → Container
  | classType => .classBody
  | structType => .structBody

def modifierText (kind : TypeDeclKind) (pending : Modifiers) : Except Fault String :=
  match kind with
  | classType => do
    let mods ← pending.forClass
    return (if mods.isAbstract then "abstract " else "") ++
      if mods.isPartial then "partial " else ""
  | structType => do
    let mods ← pending.forStruct
    return mods.refText ++ if mods.isPartial then "partial " else ""

end TypeDeclKind

/-- Converts a class or a struct; `t` is its keyword. -/
def convertTypeDecl (inner : Converters) (kind : TypeDeclKind) (scope : Scope)
    (pending : Modifiers) (t : Token) (rest : List Token) : Draft (List Token) := do
  if scope.isFn then .fail (.blame t (.declarationInFunction t.text))
  let modifiers ← Logged.ofExcept (kind.modifierText pending)
  match splitTop (·.isOpIn ["\x7b", ";"]) rest with
  | none => .fail (.missing t .leftBrace)
  | some s =>
    if !s.found.isOp "\x7b" then .fail (.missing t .leftBrace)
    match significant s.before with
    | [] => .fail (.missing t (.declaredName t.text))
    | name :: header =>
      if !name.isNameLike then .fail (.missing t (.declaredName t.text))
      note name (.name kind.nameRole)
      let generics ← readGenericsHeader header
      let bases ← readBasesHeader generics.rest
      let access ← readHeaderAccess bases.rest
      emit (Piece.indents scope.level ++ [Piece.raw (accessText access ++ modifiers ++ t.text ++ " " ++
        name.text ++ genericsText generics.value ++ basesText bases.value)])
      convertBraced inner scope.level (scope.enter kind.container) s.found s.after

end Sharp
