import Sharp.Token.Bracket
import Sharp.TypeExpr.Progress

/-!
# Parts of types

What types contain, given a reader for the types in it.
-/

namespace Sharp

/-! ## Names -/

def Token.isTypeName (t : Token) : Bool :=
  t.isNameLike || t.keywordRole? == some .builtinType

def noteTypeName (t : Token) : Reading Unit :=
  if t.text = "_" then note t (.name .discard)
  else if t.category = .identifier then note t (.name .other)
  else return

/-- The text of `.b.c`. -/
def dottedTail? : List Token → Option String
  | [] => some ""
  | [_] => none
  | dot :: name :: ts =>
    if dot.isOp "." && name.isTypeName then
      (dottedTail? ts).map fun tail => dot.text ++ name.text ++ tail
    else none

/-- The text of `a.b.c`, where such a name fills the tokens. -/
def dottedName? : List Token → Option String
  | name :: dot :: ts =>
    if name.isTypeName then (dottedTail? (dot :: ts)).map fun tail => name.text ++ tail else none
  | _ => none

def noteDotted (ts : List Token) : Reading Unit :=
  ts.forM fun t => if t.isOp "." then note t (.operator .accessor) else noteTypeName t

def splitAccessor? : List Token → Option (Accessor × Token × List Token)
  | t :: ts => (Accessor.ofToken? t).map fun accessor => (accessor, t, ts)
  | [] => none

def startsWithOp (text : String) : List Token → Bool
  | t :: _ => t.isOp text
  | [] => false

def skipOp (text : String) (ts : List Token) : List Token :=
  if startsWithOp text ts then ts.tail else ts

section Parts

variable (reader : TypeReader)

/-! ## Named and typed slots -/

/-- How the arguments of a slot list are passed: the mark in front of a slot, and the tokens after
it. -/
def splitPassing (first : Token) (more : List Token) : Option Passing × List Token :=
  if first.isKeyword "ref" then
    match more with
    | second :: rest =>
      if second.isKeyword "immut" then (some .byReadonlyRef, rest) else (some .byRef, more)
    | [] => (some .byRef, more)
  else if first.isKeyword "in" then (some .byIn, more)
  else if first.isKeyword "out" then (some .byOut, more)
  else if first.isKeyword "params" then (some .asParams, more)
  else (none, first :: more)

/-- Who owns a slot: a function, or a tuple type. -/
inductive SlotOwner where
  | function
  | tuple
  deriving DecidableEq

def SlotOwner.nameRole : SlotOwner → NameRole
  | function => .fnArg
  | tuple => .var

def Token.isDiscard (t : Token) : Bool :=
  t.text == "_" && t.category == .identifier

/-- Reads `[ref [immut] | in | out | params] name: type`.  A discard `_` is no slot. -/
def readSlot (owner : SlotOwner) (opts : TypeOptions) (first : Token) (more : List Token) :
    Reading (Parsed (Option Slot)) := do
  if first.isDiscard then
    note first (.name .discard)
    return ⟨none, more⟩
  if more.isEmpty then .fail (.missing first .type)
  let (passing, named) := splitPassing first more
  if passing.isSome ∧ owner ≠ .function then .fail (.blame first (.argumentModifier first.text))
  match named with
  | [] => .fail (.missing (more.getLastD first) .variableName)
  | name :: rest =>
    if !name.isNameLike then .fail (.unexpected name)
    match rest with
    | [] => .fail (.missing name .colon)
    | colon :: rest =>
      if !colon.isOp ":" then .fail (.missing name .colon)
      note name (.name owner.nameRole)
      note colon (.operator .typeMark)
      let type ← reader.read opts (.missing colon .type) rest
      return ⟨some (.mk name.text type.value passing), type.rest⟩

def readNamedSlot (owner : SlotOwner) (opts : TypeOptions) (first : Token) (more : List Token) :
    Reading (Parsed Slot) := do
  let slot ← readSlot reader owner opts first more
  match slot.value with
  | some value => return ⟨value, slot.rest⟩
  | none => .fail (.unexpected first)

/-! ## Function types -/

/-- How the arguments of a function are written. -/
inductive ArgumentStyle where
  /-- As bare types, in a function type. -/
  | bare (opts : TypeOptions)
  /-- As named slots, in a declaration.  The arrow and the returned type may be left out. -/
  | declared

def readArgument (style : ArgumentStyle) (first : Token) (more : List Token) :
    Reading (Parsed Slot) :=
  match style with
  | .bare opts => do
    let type ← reader.readFrom opts first more
    return ⟨.mk "" type.value none, type.rest⟩
  | .declared => readNamedSlot reader .function ⟨false, false, false⟩ first more

def readReturned (args : List Slot) (arrow : Token) (ts : List Token) :
    Reading (Parsed (List Slot × TypeExpr)) := do
  note arrow (.operator .fnArrow)
  let returned ← reader.read .declaration (.missing arrow .returnedType) ts
  return ⟨(args, returned.value), returned.rest⟩

/-- Reads an argument of a function and, if it is the last one, the type that is returned; `args`
have been read. -/
def readArgumentRound (style : ArgumentStyle) (args : List Slot) (first : Token)
    (more : List Token) : Reading (Step (List Slot) (Parsed (List Slot × TypeExpr))) := do
  let arg ← readArgument reader style first more
  let args := args ++ [arg.value]
  match arg.rest, style with
  | [], .declared => return .stop ⟨(args, .normal "void"), []⟩
  | [], .bare _ => .fail (.missing (more.getLastD first) .returnedType)
  | t :: rest, style =>
    if style matches .declared && t.isOpIn ["@", "\x7b"] then
      return .stop ⟨(args, .normal "void"), t :: rest⟩
    else if t.isOp "," then
      note t (.operator .fnArgsSeparator)
      if rest.isEmpty then .fail (.missing t .type)
      return .next args rest
    else if t.isOp "=>" then
      let function ← readReturned reader args t rest
      return .stop function
    else .fail (.unexpected t)

def readArguments (style : ArgumentStyle) (ts : List Token) :
    Reading (Parsed (List Slot × TypeExpr)) :=
  walk (readArgumentRound reader style) (fun _ => .fail ⟨.missing .functionType, none⟩) [] ts

/-- Reads the arguments of a function, or the discard `_` for none, and the type it returns. -/
def readFunction (style : ArgumentStyle) (ts : List Token) :
    Reading (Parsed (List Slot × TypeExpr)) :=
  match ts with
  | [] => .fail ⟨.missing .functionType, none⟩
  | first :: more =>
    if !first.isDiscard then readArguments reader style (first :: more)
    else do
      note first (.name .discard)
      match more with
      | [] => .fail (.missing first .functionArrow)
      | arrow :: rest =>
        if !arrow.isOp "=>" then .fail (.missing first .functionArrow)
        readReturned reader [] arrow rest

/-! ## Generics -/

def TypeOptions.genericsParam : TypeOptions :=
  ⟨false, true, true⟩

/-- Parameters of generics that have been read, and the token after them. -/
structure ParamState where
  params : List TypeExpr := []
  before : Token

def ParamState.fault (state : ParamState) : Fault :=
  .missing state.before .genericsParameter

def readGroupedRound (state : ParamState) (first : Token) (more : List Token) :
    Reading (Step ParamState (List TypeExpr)) := do
  let param ← reader.readFrom .genericsParam first more
  let params := state.params ++ [param.value]
  match param.rest with
  | [] => return .stop params
  | t :: rest =>
    if !t.isOp "/" then .fail (.unexpected t)
    note t (.operator .genericsSeparator)
    return .next ⟨params, t⟩ rest

/-- Reads the parameters `p / q / ...` that fill some tokens; `before` is the token in front of
them. -/
def readGroupedParams (before : Token) (ts : List Token) : Reading (List TypeExpr) :=
  walk (readGroupedRound reader) (fun state => .fail state.fault) { before } ts

/-- The parenthesised group in front of some tokens, if parameters are separated in it. -/
def splitParamGroup? (first : Token) (more : List Token) : Option Split :=
  if first.isOp "(" then
    (splitClose .parenthesis more).filter fun s => hasTop (·.isOp "/") s.before
  else none

def readParam (first : Token) (more : List Token) : Reading (Parsed (List TypeExpr)) :=
  match splitParamGroup? first more with
  | some s => do
    let params ← readGroupedParams reader first s.before
    return ⟨params, s.after⟩
  | none => do
    let param ← reader.readFrom .genericsParam first more
    return ⟨[param.value], param.rest⟩

/-- Reads a parameter or a group of them.  The walk goes on after a `/`, unless `isSingle`. -/
def readParamRound (isSingle : Bool) (state : ParamState) (first : Token) (more : List Token) :
    Reading (Step ParamState (Parsed (List TypeExpr))) := do
  let param ← readParam reader first more
  let params := state.params ++ param.value
  match param.rest with
  | [] => return .stop ⟨params, []⟩
  | t :: rest =>
    if !t.isOp "/" || isSingle then return .stop ⟨params, t :: rest⟩
    note t (.operator .genericsSeparator)
    return .next ⟨params, t⟩ rest

/-- Reads the parameters of generics after the token `before`, as far as they reach.  Only the
first is read where `isSingle`. -/
def readParams (isSingle : Bool) (before : Token) (ts : List Token) :
    Reading (Parsed (List TypeExpr)) :=
  walk (readParamRound reader isSingle) (fun state => .fail state.fault) { before } ts

/-- Reads generics `head - p / q / ...`, of which `head` and `dash` have been seen. -/
def readGenerics (opts : TypeOptions) (head dash : Token) (ts : List Token) :
    Reading (Parsed TypeExpr) := do
  noteTypeName head
  note dash (.operator .genericsMark)
  let params ← readParams reader (opts.partsEndAtConnector && opts.inGenerics) dash ts
  return ⟨.plain (.generics (.normal head.text) params.value), params.rest⟩

end Parts

end Sharp
