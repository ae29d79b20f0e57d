import Sharp.TypeExpr.Basic
import Sharp.Walk

/-!
# Types that are being read

* `TypeOptions`: how far a type reaches.
* `TypeReader`: a reader for types.
* `TypeProgress`: the terms of a type that have been read.
* `TypeState`: a walk through the terms of a type.
-/

namespace Sharp

/-! ## Options and readers -/

/-- How far a type reaches. -/
structure TypeOptions where
  /-- Does the type end at a `~`, or does `~` make it a tuple? -/
  endsAtConnector : Bool
  /-- The same for the arguments of a function type and in generics. -/
  partsEndAtConnector : Bool
  /-- Is the type a parameter of generics?  Generics in generics take one parameter. -/
  inGenerics : Bool

/-- A type in a declaration, as after `let x:`. -/
def TypeOptions.declaration : TypeOptions :=
  ⟨false, true, false⟩

structure TypeReader where
  readFrom : TypeOptions → Token → List Token → Reading (Parsed TypeExpr)

/-- Reads the type in front of some tokens.  Where there is none, the fault is `missing`. -/
def TypeReader.read (reader : TypeReader) (opts : TypeOptions) (missing : Fault) :
    List Token → Reading (Parsed TypeExpr)
  | [] => .fail missing
  | t :: rest => reader.readFrom opts t rest

/-! ## Progress -/

inductive TypeProgress where
  | start
  | single (type : TypeExpr)
  /-- Elements of a tuple, and the `~` whose element has not been read yet. -/
  | tuple (front : List TupleElement) (last : TupleElement) (connector : Option Token)

namespace TypeProgress

/-- A term may start at the beginning and right after a `~`. -/
def canStart : TypeProgress → Bool
  | start => true
  | single _ => false
  | tuple _ _ connector => connector.isSome

def addTerm (type : TypeExpr) : TypeProgress → TypeProgress
  | tuple front last _ => tuple (front ++ [last]) (.unnamed type) none
  | _ => single type

def addNamed (slot : Slot) : TypeProgress → TypeProgress
  | tuple front last _ => tuple (front ++ [last]) (.named slot) none
  | _ => tuple [] (.named slot) none

/-- Applies a mark to the latest term; `t` is the token of the mark. -/
def mark (t : Token) (apply : TypeExpr → Reading TypeExpr) : TypeProgress → Reading TypeProgress
  | start => .fail (.unexpected t)
  | single type => single <$> apply type
  | tuple front last none => do
    let type ← apply last.type
    return tuple front (last.setType type) none
  | tuple _ _ (some _) => .fail (.unexpected t)

def connect (t : Token) : TypeProgress → Reading TypeProgress
  | start => .fail (.unexpected t)
  | single type => return tuple [] (.unnamed type) (some t)
  | tuple front last none => return tuple front last (some t)
  | tuple _ _ (some _) => .fail (.unexpected t)

/-- The type that has been read, if it is complete.  `first` is its first token. -/
def finish (first : Token) (pending : List Qualifier) (progress : TypeProgress) :
    Reading TypeExpr :=
  match progress, pending.getLast? with
  | tuple _ _ (some connector), _ => .fail (.missing connector .type)
  | _, some qualifier => .fail ⟨.missing .type, some qualifier.accessorSpan⟩
  | start, none => .fail (.missing first .type)
  | single type, none => return type
  | tuple front last none, none => return .plain (.tuple (front ++ [last]))

end TypeProgress

structure TypeState where
  first : Token
  progress : TypeProgress := .start
  pending : List Qualifier := []

abbrev TypeStep : Type :=
  Step TypeState (Parsed TypeExpr)

namespace TypeState

def finish (state : TypeState) : Reading TypeExpr :=
  state.progress.finish state.first state.pending

def endAt (state : TypeState) (ts : List Token) : Reading TypeStep := do
  let type ← state.finish
  return .stop ⟨type, ts⟩

def addTerm (state : TypeState) (type : TypeExpr) : TypeState :=
  { state with
    progress := state.progress.addTerm (type.withQualifiers state.pending)
    pending := [] }

/-- Adds a function type or generics.  They end the type, unless they are an element of a tuple. -/
def addClosedTerm (state : TypeState) (type : TypeExpr) (rest : List Token) : TypeStep :=
  match state.progress with
  | .tuple .. => .next { state with progress := state.progress.addTerm type, pending := [] } rest
  | _ => .stop ⟨type, rest⟩

def addQualifier (state : TypeState) (qualifier : Qualifier) : TypeState :=
  { state with pending := state.pending ++ [qualifier] }

end TypeState

end Sharp
