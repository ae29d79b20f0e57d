/-!
# The marks on a line of settings

Settings are written in TOML.  A line of it is a sequence of marks: words, quoted texts and signs.
-/

namespace Sharp

inductive Mark where
  /-- A key or a number. -/
  | bare (text : String)
  /-- A text in quotes, without them and with its escapes resolved. -/
  | quoted (text : String)
  | sign (c : Char)
  deriving DecidableEq, Repr

/-- What is being read.  The characters of a mark that is not complete are held in reverse. -/
inductive MarkState where
  /-- Nothing: the next character starts something new. -/
  | between
  | bare (held : List Char)
  /-- A text in double quotes, which has escapes. -/
  | basic (held : List Char)
  /-- The character after a backslash. -/
  | escape (held : List Char)
  /-- The hexadecimal digits of an escaped character, of which `left` are still to come. -/
  | code (held : List Char) (left value : Nat)
  /-- A text in single quotes, which has no escapes. -/
  | literal (held : List Char)
  | comment
  deriving DecidableEq, Repr

def isBareChar (c : Char) : Bool :=
  c.isAlphanum || c == '_' || c == '-' || c == '+'

def markSigns : List Char :=
  ['[', ']', '\x7b', '\x7d', '=', ',', '.']

/-- May the character stand in a comment or in quotes?  Control characters other than the tab may
not. -/
def isLineChar (c : Char) : Bool :=
  c == '\t' || (c.toNat ≥ 0x20 && c.toNat ≠ 0x7F)

def hexValue? (c : Char) : Option Nat :=
  if c.isDigit then some (c.toNat - '0'.toNat)
  else if 'a' ≤ c && c ≤ 'f' then some (c.toNat - 'a'.toNat + 10)
  else if 'A' ≤ c && c ≤ 'F' then some (c.toNat - 'A'.toNat + 10)
  else none

/-- The character that a backslash and a letter stand for. -/
def escapedChar? : Char → Option Char
  | 'b' => some '\x08'
  | 't' => some '\t'
  | 'n' => some '\n'
  | 'f' => some '\x0c'
  | 'r' => some '\r'
  | '"' => some '"'
  | '\\' => some '\\'
  | _ => none

def heldText (held : List Char) : String :=
  String.ofList held.reverse

namespace MarkState

def start (c : Char) : Option (MarkState × List Mark) :=
  if c == ' ' || c == '\t' then some (between, [])
  else if c == '#' then some (comment, [])
  else if c == '"' then some (basic [], [])
  else if c == '\'' then some (literal [], [])
  else if markSigns.contains c then some (between, [.sign c])
  else if isBareChar c then some (bare [c], [])
  else none

/-- Reads one more digit of an escaped character. -/
def stepCode (held : List Char) (left value : Nat) (c : Char) : Option MarkState := do
  let digit ← hexValue? c
  let value := 16 * value + digit
  if left > 1 then return code held (left - 1) value
  if value.isValidChar then return basic (Char.ofNat value :: held)
  none

/-- Reads one character, and gives the marks that it completes. -/
def step (state : MarkState) (c : Char) : Option (MarkState × List Mark) :=
  match state with
  | between => start c
  | bare held =>
    if isBareChar c then some (bare (c :: held), [])
    else (start c).map fun (next, marks) => (next, .bare (heldText held) :: marks)
  | basic held =>
    if c == '"' then some (between, [.quoted (heldText held)])
    else if c == '\\' then some (escape held, [])
    else if isLineChar c then some (basic (c :: held), [])
    else none
  | escape held =>
    if c == 'u' then some (code held 4 0, [])
    else if c == 'U' then some (code held 8 0, [])
    else (escapedChar? c).map fun e => (basic (e :: held), [])
  | code held left value => (stepCode held left value c).map (·, [])
  | literal held =>
    if c == '\'' then some (between, [.quoted (heldText held)])
    else if isLineChar c then some (literal (c :: held), [])
    else none
  | comment => if isLineChar c then some (comment, []) else none

def finish : MarkState → Option (List Mark)
  | between | comment => some []
  | bare held => some [.bare (heldText held)]
  | _ => none

end MarkState

def readMarksFrom (state : MarkState) : List Char → Option (List Mark)
  | [] => state.finish
  | c :: cs => do
    let (next, marks) ← state.step c
    let more ← readMarksFrom next cs
    return marks ++ more

def readMarks (line : List Char) : Option (List Mark) :=
  readMarksFrom .between line

end Sharp
