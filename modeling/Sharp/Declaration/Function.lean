import Sharp.Declaration.Header
import Sharp.Statement.Basic
import Sharp.TypeExpr.Reader

/-!
# Functions

* `FnHeader`, `readFnHeader`: the header of a function.
* `convertFn`: a function with its body, or one that is declared without.
-/

namespace Sharp

structure FnHeader where
  name : String
  generics : List String
  params : List Slot
  returned : TypeExpr
  access : List String

/-- The tokens in front of the first `@` outside brackets, and the mark with the tokens after it. -/
def splitAtMark (ts : List Token) : List Token × Option (Token × List Token) :=
  match splitTop (·.isOp "@") ts with
  | some s => (s.before, some (s.found, s.after))
  | none => (ts, none)

/-- Reads a signature that fills some tokens; an empty one takes and returns nothing. -/
def readWholeSignature (ts : List Token) : Reading (List Slot × TypeExpr) := do
  if ts.isEmpty then return ([], .normal "void")
  let signature ← readSignature ts
  match signature.rest with
  | [] => return signature.value
  | extra :: _ => .fail (.unexpected extra)

def readFnHeader (scope : Scope) (t : Token) (ts : List Token) : Reading FnHeader :=
  match significant ts with
  | [] => .fail (.missing t .functionName)
  | name :: header => do
    if !name.isNameLike then .fail (.missing t .functionName)
    note name (.name .fn)
    let generics ← readGenericsHeader header
    let (signature, access) := splitAtMark generics.rest
    let (params, returned) ← readWholeSignature signature
    let access ← readMemberAccess scope access
    return ⟨name.text, generics.value, params, returned, access⟩

def FnModifiers.text (mods : FnModifiers) : String :=
  (mods.inheritance.map fun i => i.text ++ " ").getD "" ++
    (if mods.isAsync then "async " else "") ++ if mods.isPartial then "partial " else ""

def FnHeader.text (header : FnHeader) (mods : FnModifiers) : String :=
  accessText header.access ++ mods.text ++ header.returned.render .returned ++ " " ++ header.name ++
    genericsText header.generics ++ "(" ++ commaSeparated (header.params.map Slot.render) ++ ")"

def convertFn (inner : Converters) (scope : Scope) (pending : Modifiers) (t : Token)
    (rest : List Token) : Draft (List Token) := do
  let mods ← Logged.ofExcept (pending.forFn scope.container)
  match splitTop (·.isOpIn ["\x7b", ";"]) rest with
  | none => .fail (.missing t .functionBody)
  | some s =>
    let header ← readFnHeader scope t s.before
    let isAbstract := mods.inheritance == some .abstract
    if s.found.isOp ";" then
      if !(mods.isPartial || isAbstract) then .fail (.missing s.found .functionBody)
      emit (Piece.indents scope.level ++ [Piece.line (header.text mods ++ ";")])
      return s.after
    if isAbstract then .fail (.blame s.found .abstractBody)
    emit (Piece.indents scope.level ++ [Piece.raw (header.text mods)])
    convertBraced inner scope.level (scope.enterFn mods.yields) s.found s.after

end Sharp
