/-!
# Scopes

Which statements are allowed depends on the block they stand in.
-/

namespace Sharp

/-- What a block belongs to. -/
inductive Container where
  /-- Nothing: the block is the whole source. -/
  | topLevel
  | namespaceBody
  | classBody
  | structBody
  /-- A function, a lambda, an accessor or a control-flow statement in one of them. -/
  | fnBody
  deriving DecidableEq, Repr

namespace Container

def isTypeBody : Container → Bool
  | classBody | structBody => true
  | _ => false

def holdsNamespaces : Container → Bool
  | topLevel | namespaceBody => true
  | _ => false

end Container

structure Scope where
  container : Container
  level : Nat
  /-- In a function that yields, `return` gives the next element. -/
  yields : Bool
  deriving DecidableEq, Repr

namespace Scope

def root : Scope :=
  ⟨.topLevel, 0, false⟩

/-- The body of a declaration. -/
def enter (scope : Scope) (container : Container) : Scope :=
  ⟨container, scope.level + 1, false⟩

def enterFn (scope : Scope) (yields : Bool) : Scope :=
  ⟨.fnBody, scope.level + 1, yields⟩

/-- The body of a control-flow statement. -/
def enterBody (scope : Scope) : Scope :=
  ⟨.fnBody, scope.level + 1, scope.yields⟩

def isFn (scope : Scope) : Bool :=
  scope.container == .fnBody

end Scope

end Sharp
