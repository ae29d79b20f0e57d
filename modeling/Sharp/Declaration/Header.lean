import Sharp.Scope
import Sharp.TypeExpr.Render
import Sharp.Walk

/-!
# Parts of declaration headers

What the headers of declarations share: the list of accessibility modifiers after `@`, and the
names of generics parameters after `-`.
-/

namespace Sharp

/-! ## Accessibility -/

/-- Reads further modifiers after `@`; `mods` have been read. -/
def readAccessWords (mods : List String) : List Token → Reading (Parsed (List String))
  | [] => return ⟨mods, []⟩
  | t :: rest =>
    if t.isTrivia then readAccessWords mods rest
    else if t.modifierRole? ≠ some .afterAt then return ⟨mods, t :: rest⟩
    else if mods.contains t.text then .fail (.blame t (.duplicate t.text))
    else do
      note t (.modifier .afterAt)
      readAccessWords (mods ++ [t.text]) rest

def readAccess (marker : Token) (ts : List Token) : Reading (Parsed (List String)) := do
  note marker (.operator .accessMark)
  let mods ← readAccessWords [] ts
  if mods.value.isEmpty then .fail (.missing marker .accessibilityModifier)
  return mods

def readWholeAccess (marker : Token) (ts : List Token) : Reading (List String) := do
  let mods ← readAccess marker ts
  match mods.rest with
  | [] => return mods.value
  | extra :: _ => .fail (.unexpected extra)

/-- Reads the accessibility modifiers of a member, if there is a mark `@`.  In a function there are
none. -/
def readMemberAccess (scope : Scope) : Option (Token × List Token) → Reading (List String)
  | none => return []
  | some (marker, ts) =>
    if scope.isFn then .fail (.blame marker .accessibilityInFunction)
    else readWholeAccess marker ts

/-- Modifiers in front of a declaration, each with a space after it. -/
def accessText : List String → String
  | [] => ""
  | word :: words => word ++ " " ++ accessText words

/-! ## Generics parameters -/

/-- Reads names separated by `/`; `before` is the token in front of them. -/
def readGenericsNames (before : Token) : List Token → Reading (Parsed (List String))
  | [] => .fail (.missing before .genericsParameter)
  | name :: rest => do
    if !name.isNameLike then .fail (.missing before .genericsParameter)
    note name (.name .genericsParam)
    match rest with
    | [] => return ⟨[name.text], []⟩
    | t :: more =>
      if !t.isOp "/" then return ⟨[name.text], t :: more⟩
      note t (.operator .genericsSeparator)
      let names ← readGenericsNames t more
      return ⟨name.text :: names.value, names.rest⟩

def readGenericsHeader (ts : List Token) : Reading (Parsed (List String)) :=
  match ts with
  | [] => return ⟨[], []⟩
  | dash :: rest => do
    if !dash.isOp "-" then return ⟨[], dash :: rest⟩
    note dash (.operator .genericsMark)
    readGenericsNames dash rest

def genericsText : List String → String
  | [] => ""
  | names => "<" ++ commaSeparated names ++ ">"

end Sharp
