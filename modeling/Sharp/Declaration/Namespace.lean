import Sharp.Statement.Basic

/-!
# Namespaces

* `readUsing`, `convertUsing`: opening namespaces.
* `convertNamespace`: declaring one, for a block or for the rest of the file.
-/

namespace Sharp

/-! ## Opening namespaces -/

structure UsingFlags where
  isStatic : Bool := false
  isGlobal : Bool := false

def UsingFlags.union (a b : UsingFlags) : UsingFlags :=
  ⟨a.isStatic || b.isStatic, a.isGlobal || b.isGlobal⟩

/-- Reads a dotted name; `before` is the token in front of it. -/
def readNamespaceName (before : Token) : List Token → Reading (Parsed String)
  | [] => .fail (.missing before .namespaceName)
  | segment :: rest => do
    if !segment.isWord then .fail (.missing before .namespaceName)
    note segment (.name .namespaceName)
    match rest with
    | [] => return ⟨segment.text, []⟩
    | dot :: more =>
      if !dot.isOp "." then return ⟨segment.text, dot :: more⟩
      note dot (.operator .accessor)
      let tail ← readNamespaceName dot more
      return ⟨segment.text ++ "." ++ tail.value, tail.rest⟩

def readUsingFlags (flags : UsingFlags) : List Token → Except Fault (Parsed UsingFlags)
  | [] => .ok ⟨flags, []⟩
  | t :: rest =>
    if t.isKeyword "static" then
      if flags.isStatic then .error (.blame t (.duplicate t.text))
      else readUsingFlags { flags with isStatic := true } rest
    else if t.isKeyword "global" then
      if flags.isGlobal then .error (.blame t (.duplicate t.text))
      else readUsingFlags { flags with isGlobal := true } rest
    else .ok ⟨flags, t :: rest⟩

def readUsingMark (ts : List Token) : Reading (Parsed UsingFlags) :=
  match ts with
  | [] => return ⟨{}, []⟩
  | marker :: rest => do
    if !marker.isOp "@" then return ⟨{}, marker :: rest⟩
    note marker (.operator .accessMark)
    match readUsingFlags {} rest with
    | .error fault => .fail fault
    | .ok flags =>
      if !(flags.value.isStatic || flags.value.isGlobal) then .fail (.missing marker .usingModifier)
      return flags

/-- Entries of a `using` that have been read, and the token after them. -/
structure UsingState where
  names : List String := []
  flags : UsingFlags := {}
  before : Token

def readUsingRound (state : UsingState) (first : Token) (more : List Token) :
    Reading (Step UsingState (List String × UsingFlags)) := do
  let name ← readNamespaceName state.before (first :: more)
  let mark ← readUsingMark name.rest
  let names := state.names ++ [name.value]
  let flags := state.flags.union mark.value
  match mark.rest with
  | [] => return .stop (names, flags)
  | t :: rest =>
    if !t.isOp "," || rest.isEmpty then .fail (.unexpected t)
    return .next ⟨names, flags, t⟩ rest

def readUsing (before : Token) (ts : List Token) : Reading (List String × UsingFlags) :=
  walk readUsingRound (fun state => .fail (.missing state.before .namespaceName)) { before } ts

/-- One line for each opened namespace.  A flag of one entry holds for all. -/
def usingPieces (level : Nat) (flags : UsingFlags) : List String → List Piece
  | [] => []
  | name :: names =>
    Piece.indents level ++ .line ((if flags.isGlobal then "global " else "") ++ "using " ++
      (if flags.isStatic then "static " else "") ++ name ++ ";") :: usingPieces level flags names

def convertUsing (scope : Scope) (t : Token) (rest : List Token) : Draft (List Token) := do
  if !scope.container.holdsNamespaces then .fail (.blame t .usingMisplaced)
  match splitTop (·.isOp ";") rest with
  | none => .fail (.missing t .semicolon)
  | some s =>
    match significant s.before with
    | [] => .fail (.missing t .namespaceName)
    | first :: more =>
      let (names, flags) ← readUsing first (first :: more)
      emit (usingPieces scope.level flags names)
      return s.after

/-! ## Declaring a namespace -/

def readWholeNamespaceName : List Token → Reading String
  | [] => return ""
  | [segment] => do
    if !segment.isWord then .fail (.unexpected segment)
    note segment (.name .namespaceName)
    return segment.text
  | segment :: dot :: rest => do
    if !segment.isWord then .fail (.unexpected segment)
    note segment (.name .namespaceName)
    if !dot.isOp "." then .fail (.unexpected dot)
    if rest.isEmpty then .fail (.missing dot .namespaceName)
    let tail ← readWholeNamespaceName rest
    return segment.text ++ dot.text ++ tail

/-- Converts a namespace; `t` is its keyword.  Without braces it holds the rest of the file. -/
def convertNamespace (inner : Converters) (scope : Scope) (t : Token) (rest : List Token) :
    Draft (Parsed Statement) := do
  if !scope.container.holdsNamespaces then .fail (.blame t .namespaceMisplaced)
  match splitTop (·.isOpIn ["\x7b", ";"]) rest with
  | none => .fail (.missing t .leftBrace)
  | some s =>
    let header := significant s.before
    if header.isEmpty then .fail (.missing t .namespaceName)
    let name ← readWholeNamespaceName header
    if s.found.isOp ";" then
      if scope.container ≠ .topLevel then .fail (.blame s.found .fileNamespaceMisplaced)
      emit (Piece.indents scope.level ++ [Piece.line ("namespace " ++ name ++ ";")])
      return ⟨{ entered := some .namespaceBody }, s.after⟩
    emit (Piece.indents scope.level ++ [Piece.raw ("namespace " ++ name)])
    let after ← convertBraced inner scope.level (scope.enter .namespaceBody) s.found s.after
    return ⟨{}, after⟩

end Sharp
