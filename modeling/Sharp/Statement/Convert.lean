import Sharp.ControlFlow.Branch
import Sharp.ControlFlow.Loop
import Sharp.ControlFlow.Try
import Sharp.Declaration.Namespace
import Sharp.Declaration.Property
import Sharp.Declaration.TypeDecl
import Sharp.Declaration.Variable
import Sharp.Switch.Statement

/-!
# Statements

The first token of a statement tells which kind it is.
-/

namespace Sharp

def controlFlowWords : List String :=
  ["if", "elif", "else", "while", "for", "foreach", "do", "try", "catch", "finally", "switch",
    "lock", "fixed", "checked", "unchecked"]

/-- A statement that leaves nothing behind but the tokens after it. -/
def plainStatement (draft : Draft (List Token)) : Draft (Parsed Statement) := do
  let rest ← draft
  return ⟨{}, rest⟩

def convertExpressionStatement (inner : Converters) (scope : Scope) (t : Token)
    (rest : List Token) : Draft (List Token) := do
  emit (Piece.indents scope.level)
  let value ← convertRightSide inner scope t (t :: rest)
  return value.rest

/-- Converts a `return` in a function that yields: it gives an element, or ends them. -/
def convertYield (inner : Converters) (scope : Scope) (t : Token) (rest : List Token) :
    Draft (List Token) := do
  note t (.keyword .expr)
  emit (Piece.indents scope.level)
  if let next :: more := skipTrivia rest then
    if next.isOp ";" then
      emit [.line "yield break;"]
      return more
  emit [.keyword "yield"]
  let value ← convertRightSide inner scope t (t :: rest)
  return value.rest

def convertControlFlow (inner : Converters) (scope : Scope) (t : Token) (rest : List Token) :
    Draft (List Token) :=
  match t.text with
  | "if" => convertIf inner scope t rest
  | "elif" | "else" => .fail (.blame t (.branchWithoutIf t.text))
  | "catch" | "finally" => .fail (.blame t (.handlerWithoutTry t.text))
  | "for" => convertFor inner scope t rest
  | "foreach" => convertForeach inner scope t rest
  | "do" => convertDo inner scope t rest
  | "try" => convertTry inner scope t rest
  | "switch" => convertSwitch inner scope t rest
  | "checked" | "unchecked" => convertBare inner scope t rest
  | _ => convertGuarded inner t.text scope t rest

def holdModifier (pending : Modifiers) (t : Token) (rest : List Token) :
    Draft (Parsed Statement) := do
  note t (.modifier (t.modifierRole?.getD .other))
  let pending ← Logged.ofExcept (pending.apply t)
  return ⟨{ pending }, rest⟩

/-- Can the token after `new` make it a modifier? -/
def Token.startsDeclaration (t : Token) : Bool :=
  t.keywordRole? == some .declarator || t.modifierRole?.isSome

/-- The statements that take no modifiers. -/
def unmodified (pending : Modifiers) (draft : Draft (List Token)) : Draft (Parsed Statement) := do
  Logged.ofExcept pending.ensureEmpty
  plainStatement draft

/-- Converts a statement whose first token is a keyword that starts neither a declaration nor a
statement of its own form. -/
def convertOther (inner : Converters) (scope : Scope) (pending : Modifiers) (t : Token)
    (rest : List Token) : Draft (Parsed Statement) :=
  if controlFlowWords.contains t.text then
    unmodified pending (convertControlFlow inner scope t rest)
  else
    match t.modifierRole? with
    | some .other =>
      if isAllTrivia rest then .fail (.blame t (.danglingModifier t.text))
      else holdModifier pending t rest
    | some .afterAt => .fail (.blame t (.modifierBeforeAt t.text))
    | none =>
      if t.keywordRole? == some .declarator then .fail (.blame t (.unsupportedDeclaration t.text))
      else unmodified pending (convertExpressionStatement inner scope t rest)

def convertKeywordStatement (inner : Converters) (scope : Scope) (pending : Modifiers) (t : Token)
    (rest : List Token) : Draft (Parsed Statement) :=
  let next := nextSignificant? rest
  match t.text with
  | "class" => plainStatement (convertTypeDecl inner .classType scope pending t rest)
  | "struct" => plainStatement (convertTypeDecl inner .structType scope pending t rest)
  | "fn" => plainStatement (convertFn inner scope pending t rest)
  | "let" => plainStatement (convertVariable inner .letVar scope pending t rest)
  | "const" => plainStatement (convertVariable inner .constant scope pending t rest)
  | "immut" =>
    match next.filter Token.isNameLike with
    | none => convertOther inner scope pending t rest
    | some name =>
      if scope.container.isTypeBody then
        plainStatement (convertVariable inner .immutField scope pending t rest)
      else .fail (.blame name .immutOutsideType)
  | "prop" => plainStatement (convertProp inner scope pending t rest)
  | "using" => unmodified pending (convertUsing scope t rest)
  | "namespace" => do
    Logged.ofExcept pending.ensureEmpty
    convertNamespace inner scope t rest
  | "new" =>
    if next.any Token.startsDeclaration then holdModifier pending t rest
    else unmodified pending (convertExpressionStatement inner scope t rest)
  | "return" =>
    if scope.yields then unmodified pending (convertYield inner scope t rest)
    else convertOther inner scope pending t rest
  | "checked" | "unchecked" =>
    if next.any (·.isOp "\x7b") then convertOther inner scope pending t rest
    else unmodified pending (convertExpressionStatement inner scope t rest)
  | _ => convertOther inner scope pending t rest

/-- Converts the statement that starts at the token `t`; `pending` are the modifiers in front of
it. -/
def convertStatement (inner : Converters) (scope : Scope) (pending : Modifiers) (t : Token)
    (rest : List Token) : Draft (Parsed Statement) :=
  if t.isOp "\x7d" then .fail (.unexpected t)
  else if t.isOp ";" then return ⟨{ pending }, rest⟩
  else if t.category == .keyword then convertKeywordStatement inner scope pending t rest
  else unmodified pending (convertExpressionStatement inner scope t rest)

end Sharp
