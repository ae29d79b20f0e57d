import Sharp.Token.Basic

/-!
# Type expressions

The types that a program writes, as the surface language spells them: names, arrays, function
types, generics and tuples.  Any of them can be qualified by the names in front of it and marked as
nullable.
-/

namespace Sharp

/-- The operator that joins a qualifying name to what it qualifies. -/
inductive Accessor where
  /-- `.` -/
  | dot
  /-- `?.` -/
  | question
  /-- `!.` -/
  | bang
  deriving DecidableEq, Repr

namespace Accessor

def text : Accessor → String
  | dot => "."
  | question => "?."
  | bang => "!."

def ofToken? (t : Token) : Option Accessor :=
  if t.isOp "." then some dot
  else if t.isOp "?." then some question
  else if t.isOp "!." then some bang
  else none

end Accessor

/-- How an argument is passed to a function, if not by value. -/
inductive Passing where
  | byRef
  | byReadonlyRef
  | byIn
  | byOut
  | asParams
  deriving DecidableEq, Repr

def Passing.text : Passing → String
  | .byRef => "ref"
  | .byReadonlyRef => "ref readonly"
  | .byIn => "in"
  | .byOut => "out"
  | .asParams => "params"

mutual

inductive TypeExpr where
  | mk (shape : Shape) (qualifiers : List Qualifier) (isNullable : Bool)

/-- A type without the names in front of it and without its nullable mark. -/
inductive Shape where
  | normal (name : String)
  | array (element : TypeExpr)
  | function (args : List Slot) (returned : TypeExpr)
  | generics (head : TypeExpr) (params : List TypeExpr)
  | tuple (elements : List TupleElement)

/-- A name in front of a type, with the operator after it and where both stand. -/
inductive Qualifier where
  | mk (segment : TypeExpr) (accessor : Accessor) (segmentSpan accessorSpan : Span)

/-- A named and typed slot: an argument of a function or a named element of a tuple. -/
inductive Slot where
  | mk (name : String) (type : TypeExpr) (passing : Option Passing)

inductive TupleElement where
  | unnamed (type : TypeExpr)
  | named (slot : Slot)

end

deriving instance Repr for TypeExpr, Shape, Qualifier, Slot, TupleElement

instance : Inhabited Shape := ⟨.normal ""⟩
instance : Inhabited TypeExpr := ⟨.mk default [] false⟩
instance : Inhabited Qualifier := ⟨.mk default .dot ⟨0, 0⟩ ⟨0, 0⟩⟩
instance : Inhabited Slot := ⟨.mk "" default none⟩
instance : Inhabited TupleElement := ⟨.unnamed default⟩

/-! ## Parts -/

namespace Qualifier

def segment : Qualifier → TypeExpr
  | mk segment _ _ _ => segment

def accessor : Qualifier → Accessor
  | mk _ accessor _ _ => accessor

def segmentSpan : Qualifier → Span
  | mk _ _ segmentSpan _ => segmentSpan

def accessorSpan : Qualifier → Span
  | mk _ _ _ accessorSpan => accessorSpan

end Qualifier

namespace Slot

def name : Slot → String
  | mk name _ _ => name

def type : Slot → TypeExpr
  | mk _ type _ => type

def passing : Slot → Option Passing
  | mk _ _ passing => passing

end Slot

namespace TupleElement

def type : TupleElement → TypeExpr
  | unnamed type => type
  | named slot => slot.type

def setType (type : TypeExpr) : TupleElement → TupleElement
  | unnamed _ => unnamed type
  | named slot => named (.mk slot.name type slot.passing)

end TupleElement

namespace TypeExpr

def shape : TypeExpr → Shape
  | mk shape _ _ => shape

def qualifiers : TypeExpr → List Qualifier
  | mk _ qualifiers _ => qualifiers

def isNullable : TypeExpr → Bool
  | mk _ _ isNullable => isNullable

def plain (shape : Shape) : TypeExpr :=
  mk shape [] false

def normal (name : String) : TypeExpr :=
  plain (.normal name)

def withQualifiers (qualifiers : List Qualifier) : TypeExpr → TypeExpr
  | mk shape _ isNullable => mk shape qualifiers isNullable

def withNullable (isNullable : Bool) : TypeExpr → TypeExpr
  | mk shape qualifiers _ => mk shape qualifiers isNullable

def normalName? (type : TypeExpr) : Option String :=
  match type.shape with
  | .normal name => some name
  | _ => none

/-- Is this what a function returns that returns nothing? -/
def isVoidLike (type : TypeExpr) : Bool :=
  type.normalName? == some "_" || type.normalName? == some "void"

mutual

/-- A type and all types in it: itself, then its qualifiers, then its parts from left to right. -/
def preorder : TypeExpr → List TypeExpr
  | mk shape qualifiers isNullable =>
    mk shape qualifiers isNullable :: (preorderQualifiers qualifiers ++ preorderShape shape)

def preorderShape : Shape → List TypeExpr
  | .normal _ => []
  | .array element => preorder element
  | .function args returned => preorderSlots args ++ preorder returned
  | .generics head params => preorder head ++ preorderTypes params
  | .tuple elements => preorderElements elements

def preorderQualifiers : List Qualifier → List TypeExpr
  | [] => []
  | .mk segment _ _ _ :: qualifiers => preorder segment ++ preorderQualifiers qualifiers

def preorderSlots : List Slot → List TypeExpr
  | [] => []
  | .mk _ type _ :: slots => preorder type ++ preorderSlots slots

def preorderTypes : List TypeExpr → List TypeExpr
  | [] => []
  | type :: types => preorder type ++ preorderTypes types

def preorderElements : List TupleElement → List TypeExpr
  | [] => []
  | .unnamed type :: elements => preorder type ++ preorderElements elements
  | .named (.mk _ type _) :: elements => preorder type ++ preorderElements elements

end

end TypeExpr

end Sharp
