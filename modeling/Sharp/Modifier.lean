import Sharp.Logged
import Sharp.Scope

/-!
# Modifiers

Modifier words stand in front of a declaration.  A block collects them until a declaration takes
them all; each kind of declaration accepts its own selection.
-/

namespace Sharp

/-- How a member stands to the members it inherits. -/
inductive Inheritance where
  | abstract
  | new
  | override
  | virtual
  deriving DecidableEq, Repr

namespace Inheritance

def text : Inheritance → String
  | abstract => "abstract"
  | new => "new"
  | override => "override"
  | virtual => "virtual"

def ofText? : String → Option Inheritance
  | "abstract" => some abstract
  | "new" => some new
  | "override" => some override
  | "virtual" => some virtual
  | _ => none

end Inheritance

/-- The words `ref` and `immut`, in the order in which they were written. -/
inductive RefImmut where
  | ref
  | immut
  | refImmut
  | immutRef
  deriving DecidableEq, Repr

/-- The modifiers in front of a declaration, each with the token that gave it. -/
structure Modifiers where
  inheritance : Option (Inheritance × Token) := none
  refImmut : Option (RefImmut × Token) := none
  async : Option Token := none
  yields : Option Token := none
  partly : Option Token := none
  latest : Option Token := none
  deriving DecidableEq, Repr

structure ClassModifiers where
  isAbstract : Bool
  isPartial : Bool
  deriving DecidableEq, Repr

structure StructModifiers where
  refImmut : Option RefImmut
  isPartial : Bool
  deriving DecidableEq, Repr

structure FnModifiers where
  inheritance : Option Inheritance
  isAsync : Bool
  yields : Bool
  isPartial : Bool
  deriving DecidableEq, Repr

namespace Modifiers

/-- The word is there already. -/
def repeated {α : Type} (t : Token) : Except Fault α :=
  .error (.blame t (.duplicate t.text))

/-- The modifier given by `t` does not go with the kind of declaration. -/
def refused {α : Type} (t : Token) (target : String) : Except Fault α :=
  .error (.blame t (.modifierNotAllowed t.text target))

/-- Adds one word to a pair that has to stay together: `alone` is the word on its own, and `joined`
what it makes of the other word, which has to be the latest modifier. -/
def joinRefImmut (mods : Modifiers) (t : Token) (alone other joined : RefImmut)
    (otherText : String) : Except Fault Modifiers :=
  match mods.refImmut with
  | none => .ok { mods with refImmut := some (alone, t) }
  | some (held, first) =>
    if held = other then
      if mods.latest.any (·.text == otherText) then
        .ok { mods with refImmut := some (joined, first) }
      else .error (.blame t .refAndImmutApart)
    else repeated t

/-- Adds a word that can stand only once, unless it is `held` already. -/
def addOnce (held : Option Token) (t : Token) (added : Modifiers) : Except Fault Modifiers :=
  if held.isSome then repeated t else .ok added

def addInheritance (mods : Modifiers) (t : Token) : Except Fault Modifiers :=
  match Inheritance.ofText? t.text with
  | none => .error (.blame t (.argumentModifier t.text))
  | some kind =>
    match mods.inheritance with
    | none => .ok { mods with inheritance := some (kind, t) }
    | some (held, first) =>
      if held = kind then repeated t
      else .error (.blame t (.modifiersExclude t.text first.text))

/-- The modifiers with the word `t` added, before it becomes the latest one. -/
def add (mods : Modifiers) (t : Token) : Except Fault Modifiers :=
  match t.text with
  | "ref" => mods.joinRefImmut t .ref .immut .immutRef "immut"
  | "immut" => mods.joinRefImmut t .immut .ref .refImmut "ref"
  | "async" => addOnce mods.async t { mods with async := some t }
  | "yield" => addOnce mods.yields t { mods with yields := some t }
  | "partial" => addOnce mods.partly t { mods with partly := some t }
  | _ => mods.addInheritance t

def apply (mods : Modifiers) (t : Token) : Except Fault Modifiers := do
  return { ← mods.add t with latest := some t }

def ensureEmpty (mods : Modifiers) : Except Fault Unit :=
  match mods.latest with
  | some t => .error (.blame t (.danglingModifier t.text))
  | none => .ok ()

def refuse (held : Option Token) (target : String) : Except Fault Unit :=
  match held with
  | some t => refused t target
  | none => .ok ()

def refuseRefImmut (mods : Modifiers) (target : String) : Except Fault Unit :=
  refuse (mods.refImmut.map (·.2)) target

def refuseAsyncYield (mods : Modifiers) (target : String) : Except Fault Unit := do
  refuse mods.async target
  refuse mods.yields target

/-- Can a member of the container have this relation to inherited members? -/
def allowsInheritance : Container → Inheritance → Bool
  | .classBody, _ => true
  | .structBody, .override | .structBody, .new => true
  | _, _ => false

def memberInheritance (mods : Modifiers) (container : Container) (target : String) :
    Except Fault (Option Inheritance) :=
  match mods.inheritance with
  | none => .ok none
  | some (kind, t) =>
    if allowsInheritance container kind then .ok (some kind) else refused t target

def forClass (mods : Modifiers) : Except Fault ClassModifiers := do
  mods.refuseRefImmut "class"
  mods.refuseAsyncYield "class"
  match mods.inheritance with
  | some (.abstract, _) => return ⟨true, mods.partly.isSome⟩
  | some (_, t) => refused t "class"
  | none => return ⟨false, mods.partly.isSome⟩

def forStruct (mods : Modifiers) : Except Fault StructModifiers := do
  mods.refuseAsyncYield "struct"
  refuse (mods.inheritance.map (·.2)) "struct"
  match mods.refImmut with
  | some (.refImmut, t) => .error (.blame t .refImmutStruct)
  | held => return ⟨held.map (·.1), mods.partly.isSome⟩

def forFn (mods : Modifiers) (container : Container) : Except Fault FnModifiers := do
  mods.refuseRefImmut "function"
  let inheritance ← mods.memberInheritance container "function"
  return ⟨inheritance, mods.async.isSome, mods.yields.isSome, mods.partly.isSome⟩

def forProp (mods : Modifiers) (container : Container) : Except Fault (Option Inheritance) := do
  mods.refuseRefImmut "property"
  mods.refuseAsyncYield "property"
  refuse mods.partly "property"
  mods.memberInheritance container "property"

/-- A variable takes no modifiers. -/
def forVariable (mods : Modifiers) : Except Fault Unit :=
  refuse mods.latest "variable"

end Modifiers

def StructModifiers.refText (mods : StructModifiers) : String :=
  match mods.refImmut with
  | some .ref => "ref "
  | some .immut => "readonly "
  | some .immutRef => "readonly ref "
  | some .refImmut | none => ""

end Sharp
