import Sharp.Token.Stream
import Sharp.TypeExpr.Part

/-!
# Reading types

Types are read from tokens without trivia.  A type is a sequence of terms joined by `~`; a term is a
name, a parenthesised type, generics or a function type, followed by the marks `?` and `#`.  Types
nest, so each reader is given one for the types inside its own, and `typeReader` ties the knot.
-/

namespace Sharp

section Terms

variable (reader : TypeReader)

/-! ## Terms -/

def markNullable (t : Token) (type : TypeExpr) : Reading TypeExpr :=
  if type.isNullable then .fail (.blame t (.duplicate "nullable"))
  else return type.withNullable true

def markArray (t : Token) (type : TypeExpr) : Reading TypeExpr := do
  note t (.operator .arrayMarker)
  return .plain (.array type)

/-- The operators that end a type. -/
def typeTerminators : List String :=
  [",", "/", "=>", "\x7b", ";", "=", "@"]

def TypeExpr.isQualifying (type : TypeExpr) : Bool :=
  match type.shape with
  | .normal _ | .generics _ _ => true
  | _ => false

/-- Reads a parenthesised type, which can be a term or qualify the next one; `t` is its opener. -/
def readGroup (opts : TypeOptions) (state : TypeState) (t : Token) (rest : List Token) :
    Reading TypeStep :=
  if !state.progress.canStart then state.endAt (t :: rest)
  else
    match splitClose .parenthesis rest with
    | none => .fail (.missing t .rightParenthesis)
    | some s => do
      if s.before.isEmpty then .fail (.blame t .emptyParentheses)
      let inner ← reader.read ⟨false, opts.partsEndAtConnector, false⟩ (.missing t .type) s.before
      if let extra :: _ := inner.rest then .fail (.unexpected extra)
      match splitAccessor? s.after with
      | none => return .next (state.addTerm inner.value) s.after
      | some (accessor, mark, after) =>
        if !inner.value.isQualifying then .fail (.blame t .unqualifiable)
        note mark (.operator .accessor)
        let qualifier := .mk inner.value accessor (.between t.start s.found.stop) mark.span
        return .next (state.addQualifier qualifier) after

def readTypeOperator (opts : TypeOptions) (state : TypeState) (t : Token) (rest : List Token) :
    Reading TypeStep :=
  match t.text with
  | "?" => do
    let progress ← state.progress.mark t (markNullable t)
    return .next { state with progress } rest
  | "#" => do
    let progress ← state.progress.mark t (markArray t)
    return .next { state with progress } rest
  | "~" =>
    if opts.endsAtConnector then state.endAt (t :: rest)
    else do
      let progress ← state.progress.connect t
      note t (.operator .tupleConnector)
      return .next { state with progress } rest
  | text =>
    if typeTerminators.contains text then state.endAt (t :: rest) else .fail (.unexpected t)

def readFunctionTerm (opts : TypeOptions) (state : TypeState) (t : Token) (rest : List Token) :
    Reading TypeStep :=
  match skipOp "?" rest with
  | [] => .fail (.missing t .colon)
  | colon :: body => do
    if !colon.isOp ":" then .fail (.missing t .colon)
    note colon (.operator .typeMark)
    if let some qualifier := state.pending.getLast? then
      .fail ⟨.qualifiedFunctionType, some qualifier.accessorSpan⟩
    if !state.progress.canStart then .fail (.blame t .unexpectedFunctionType)
    let function ← readFunction reader (.bare { opts with inGenerics := false }) body
    let type := TypeExpr.plain (.function function.value.1 function.value.2)
    return state.addClosedTerm (type.withNullable (startsWithOp "?" rest)) function.rest

def readPlainName (state : TypeState) (t : Token) (rest : List Token) : Reading TypeStep := do
  if !state.progress.canStart then .fail (.unexpected t)
  noteTypeName t
  return .next (state.addTerm (.normal t.text)) rest

/-- Reads a term that starts with a name: generics, a qualified name, a named element or the name
alone. -/
def readNameTerm (opts : TypeOptions) (state : TypeState) (t : Token) (rest : List Token) :
    Reading TypeStep :=
  match rest with
  | [] => readPlainName state t []
  | mark :: after => do
    if mark.isOp "-" && !after.isEmpty then
      if !state.progress.canStart then .fail (.blame t .unexpectedGenericsType)
      let generics ← readGenerics reader opts t mark after
      return state.addClosedTerm (generics.value.withQualifiers state.pending) generics.rest
    if let some accessor := Accessor.ofToken? mark then
      if after.isEmpty then .fail (.missing mark .type)
      noteTypeName t
      note mark (.operator .accessor)
      return .next (state.addQualifier (.mk (.normal t.text) accessor t.span mark.span)) after
    if mark.isOp ":" && !after.isEmpty then
      if let some qualifier := state.pending.getLast? then
        .fail ⟨.unexpectedAccessor, some qualifier.accessorSpan⟩
      if !state.progress.canStart then .fail (.unexpected t)
      let slot ← readNamedSlot reader .tuple ⟨true, false, false⟩ t (mark :: after)
      return .next { state with progress := state.progress.addNamed slot.value } slot.rest
    readPlainName state t (mark :: after)

def readTerm (opts : TypeOptions) (state : TypeState) (t : Token) (rest : List Token) :
    Reading TypeStep :=
  if t.isOp "(" then readGroup reader opts state t rest
  else if t.category = .operator then readTypeOperator opts state t rest
  else if t.isKeyword "fn" then readFunctionTerm reader opts state t rest
  else if t.isTypeName then readNameTerm reader opts state t rest
  else .fail (.unexpected t)

/-- Reads a type from its first token on, given a reader for the types in it.  A dotted name that
fills the tokens is one name. -/
def readTypeWith (opts : TypeOptions) (first : Token) (more : List Token) :
    Reading (Parsed TypeExpr) :=
  match dottedName? (first :: more) with
  | some name => do
    noteDotted (first :: more)
    return ⟨.normal name, []⟩
  | none =>
    walk (readTerm reader opts)
      (fun state => do
        let type ← state.finish
        return ⟨type, []⟩)
      { first } (first :: more)

end Terms

/-! ## Whole types -/

/-- The reader for types whose first token is followed by fewer than `n` tokens.  Others are refused
at that token. -/
def typeReader (n : Nat) : TypeReader :=
  ⟨fun opts t rest =>
    if rest.length < n then readTypeWith (typeReader rest.length) opts t rest
    else .fail (.outside t)⟩
termination_by n
decreasing_by assumption

namespace TypeExpr

def reader : TypeReader :=
  ⟨fun opts t rest => readTypeWith (typeReader rest.length) opts t rest⟩

/-- Reads the type in front of some tokens.  Where there are none, the fault is `missing`. -/
def read (opts : TypeOptions) (missing : Fault) (ts : List Token) : Reading (Parsed TypeExpr) :=
  reader.read opts missing ts

/-- Reads the type of a declaration, which fills some tokens.  Where there are none, the type is
missing at the token `before`. -/
def readWhole (before : Token) (ts : List Token) : Reading TypeExpr := do
  let type ← read .declaration (.missing before .type) ts
  match type.rest with
  | [] => return type.value
  | extra :: _ => .fail (.unexpected extra)

end TypeExpr

/-- For tokens that it does not refuse, `typeReader` reads what the reader for all types reads. -/
theorem typeReader_readFrom {n : Nat} {rest : List Token} (h : rest.length < n)
    (opts : TypeOptions) (t : Token) :
    (typeReader n).readFrom opts t rest = TypeExpr.reader.readFrom opts t rest := by
  rw [typeReader]
  exact if_pos h

def readSignature (ts : List Token) : Reading (Parsed (List Slot × TypeExpr)) :=
  readFunction TypeExpr.reader .declared ts

/-- Reads a slot, and the `,` after it; `slots` have been read. -/
def readSlotRound (slots : List Slot) (first : Token) (more : List Token) :
    Reading (Step (List Slot) (List Slot)) := do
  let slot ← readNamedSlot TypeExpr.reader .function ⟨false, true, false⟩ first more
  let slots := slots ++ [slot.value]
  match slot.rest with
  | [] => return .stop slots
  | t :: rest =>
    if !t.isOp "," || rest.isEmpty then .fail (.unexpected t)
    note t (.operator .fnArgsSeparator)
    return .next slots rest

/-- Reads the slots `a: t, b: u, ...` that fill some tokens. -/
def readSlots (ts : List Token) : Reading (List Slot) :=
  walk readSlotRound (fun slots => return slots) [] ts

def TypeExpr.parse (source : String) : Except Fault TypeExpr := do
  let tokens ← tokenize source
  match significant tokens with
  | [] => .error ⟨.missing .type, none⟩
  | first :: more => (readWhole first (first :: more)).toExcept

end Sharp
