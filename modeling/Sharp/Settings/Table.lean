import Sharp.Settings.Basic
import Sharp.Settings.Natural

/-!
# Settings files

A reader for the part of TOML that settings are written in.  The table can be written under a header,
in braces or with dotted keys, but in one way only.
-/

namespace Sharp

/-! ## Lines -/

inductive Setting where
  | indentWidth (width : Nat)
  | lineEnding (name : String)
  deriving DecidableEq, Repr

def Mark.key? : Mark → Option String
  | .bare text | .quoted text => some text
  | .sign _ => none

def Mark.isKey (mark : Mark) (key : String) : Bool :=
  mark.key? == some key

def Setting.ofMarks (key : Mark) (value : Mark) : Option Setting :=
  match value with
  | .bare text => if key.isKey "indent-width" then (readNatural text).map indentWidth else none
  | .quoted text => if key.isKey "line-ending" then some (lineEnding text) else none
  | .sign _ => none

inductive SettingsLine where
  | blank
  | header
  | inline (settings : List Setting)
  /-- A setting after the name of the table. -/
  | dotted (setting : Setting)
  | plain (setting : Setting)
  deriving DecidableEq, Repr

/-- Reads the settings in braces after the opening one. -/
def readInline : List Mark → Option (List Setting)
  | [key, .sign '=', value, .sign '\x7d'] => (Setting.ofMarks key value).map ([·])
  | key :: .sign '=' :: value :: .sign ',' :: marks => do
    let setting ← Setting.ofMarks key value
    let settings ← readInline marks
    return setting :: settings
  | _ => none

def SettingsLine.ofMarks : List Mark → Option SettingsLine
  | [] => some blank
  | [.sign '[', table, .sign ']'] => if table.isKey "format" then some header else none
  | [table, .sign '=', .sign '\x7b', .sign '\x7d'] =>
    if table.isKey "format" then some (inline []) else none
  | table :: .sign '=' :: .sign '\x7b' :: marks =>
    if table.isKey "format" then (readInline marks).map inline else none
  | [table, .sign '.', key, .sign '=', value] =>
    if table.isKey "format" then (Setting.ofMarks key value).map dotted else none
  | [key, .sign '=', value] => (Setting.ofMarks key value).map plain
  | _ => none

def SettingsLine.settings : SettingsLine → List Setting
  | blank | header => []
  | inline settings => settings
  | dotted setting | plain setting => [setting]

/-! ## Files -/

inductive TableForm where
  | absent
  | header
  | inline
  | dotted
  deriving DecidableEq, Repr

def TableForm.next : TableForm → SettingsLine → Option TableForm
  | form, .blank => some form
  | absent, .header => some header
  | absent, .inline _ => some inline
  | absent, .dotted _ | dotted, .dotted _ => some dotted
  | header, .plain _ => some header
  | _, _ => none

def TableForm.accepts (form : TableForm) : List SettingsLine → Bool
  | [] => true
  | line :: lines =>
    match form.next line with
    | none => false
    | some next => next.accepts lines

/-- Lines end with a line feed, which a carriage return may precede. -/
def splitLines : List Char → List (List Char)
  | [] => [[]]
  | '\n' :: cs => [] :: splitLines cs
  | '\r' :: '\n' :: cs => [] :: splitLines cs
  | c :: cs =>
    match splitLines cs with
    | [] => [[c]]
    | line :: lines => (c :: line) :: lines

def dropByteOrderMark : List Char → List Char
  | '\ufeff' :: cs => cs
  | cs => cs

def readSettingsLines (text : String) : Option (List SettingsLine) :=
  (splitLines (dropByteOrderMark text.toList)).mapM fun line =>
    readMarks line >>= SettingsLine.ofMarks

def widthsOf (settings : List Setting) : List Nat :=
  settings.filterMap fun
    | .indentWidth width => some width
    | .lineEnding _ => none

def endingsOf (settings : List Setting) : List String :=
  settings.filterMap fun
    | .indentWidth _ => none
    | .lineEnding name => some name

def atMostOne? {α : Type} : List α → Option (Option α)
  | [] => some none
  | [a] => some (some a)
  | _ => none

/-- The table that a file sets, each key at most once. -/
def readSettings (text : String) : Option SettingsFile := do
  let lines ← readSettingsLines text
  let settings := lines.flatMap SettingsLine.settings
  if TableForm.absent.accepts lines then
    let indentWidth ← atMostOne? (widthsOf settings)
    let lineEnding ← atMostOne? (endingsOf settings)
    return ⟨some ⟨indentWidth, lineEnding⟩⟩
  else none

def LayoutSettings.parse (origin text : String) : Except SettingsError LayoutSettings :=
  LayoutSettings.parseWith readSettings origin text

end Sharp
