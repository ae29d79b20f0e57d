import Sharp.TypeExpr.Basic

/-!
# Types in C#

How a type is written in the converted program.
-/

namespace Sharp

def commaSeparated : List String → String
  | [] => ""
  | [text] => text
  | text :: texts => text ++ ", " ++ commaSeparated texts

inductive TypePosition where
  | plain
  /-- As an argument of a function type, where a discard is left out. -/
  | argument
  /-- As the type a function returns, where a discard means `void`. -/
  | returned
  deriving DecidableEq, Repr

def functionTypeText (args : List String) (returned : Option String) : String :=
  match args, returned with
  | [], none => "Action"
  | args, none => "Action<" ++ commaSeparated args ++ ">"
  | args, some returned => "Func<" ++ commaSeparated (args ++ [returned]) ++ ">"

/-- The C# form of a tuple type: of fewer than two elements C# has no literal form. -/
def tupleTypeText (elementTypes elements : List String) : String :=
  match elementTypes with
  | [] => "Tuple"
  | [type] => "Tuple<" ++ type ++ ">"
  | _ => "(" ++ commaSeparated elements ++ ")"

namespace TypeExpr

mutual

def render (position : TypePosition) : TypeExpr → String
  | mk shape qualifiers isNullable =>
    if position = .argument ∧ (mk shape qualifiers isNullable).normalName? = some "_" then ""
    else
      renderQualifiers qualifiers ++ renderShape position shape ++ (if isNullable then "?" else "")

def renderShape (position : TypePosition) : Shape → String
  | .normal name => if position = .returned ∧ name = "_" then "void" else name
  | .array element => render .plain element ++ "[]"
  | .function args returned =>
    functionTypeText ((renderSlots args).filter (· ≠ ""))
      (if returned.isVoidLike then none else some (render .returned returned))
  | .generics head params =>
    render .plain head ++ "<" ++ commaSeparated (renderTypes params) ++ ">"
  | .tuple elements => tupleTypeText (renderElementTypes elements) (renderElements elements)

def renderQualifiers : List Qualifier → String
  | [] => ""
  | .mk segment accessor _ _ :: qualifiers =>
    render .plain segment ++ accessor.text ++ renderQualifiers qualifiers

def renderSlots : List Slot → List String
  | [] => []
  | .mk _ type _ :: slots => render .argument type :: renderSlots slots

def renderTypes : List TypeExpr → List String
  | [] => []
  | type :: types => render .plain type :: renderTypes types

def renderElementTypes : List TupleElement → List String
  | [] => []
  | .unnamed type :: elements => render .plain type :: renderElementTypes elements
  | .named (.mk _ type _) :: elements => render .plain type :: renderElementTypes elements

def renderElements : List TupleElement → List String
  | [] => []
  | .unnamed type :: elements => render .plain type :: renderElements elements
  | .named (.mk name type _) :: elements =>
    (render .plain type ++ " " ++ name) :: renderElements elements

end

end TypeExpr

/-- A parameter in a declaration: how it is passed, its type and its name. -/
def Slot.render (slot : Slot) : String :=
  let declared := slot.type.render .plain ++ " " ++ slot.name
  match slot.passing with
  | some passing => passing.text ++ " " ++ declared
  | none => declared

end Sharp
