import Sharp.Layout.Item

/-!
# Settings

The settings file chooses the layout.  It has one table, `format`, with two keys:

* `indent-width`, a number that is not 0;
* `line-ending`, the name of a line ending.

The file itself is read by a reader for its language.
-/

namespace Sharp

def settingsFileName : String :=
  "sharpc.toml"

/-- The table `format`. -/
structure FormatTable where
  indentWidth : Option Nat := none
  lineEnding : Option String := none
  deriving DecidableEq, Repr

structure SettingsFile where
  format : Option FormatTable := none
  deriving DecidableEq, Repr

inductive SettingsError where
  | malformed
  | zeroWidth (origin : String)
  | unknownLineEnding (origin name : String)
  deriving DecidableEq, Repr

def SettingsError.message : SettingsError → String
  | malformed => "failed to parse"
  | zeroWidth origin => origin ++ ": indent-width must be at least 1"
  | unknownLineEnding origin name =>
    origin ++ ": unknown line-ending `" ++ name ++ "` (expected `crlf` or `lf`)"

def LayoutSettings.withWidth (settings : LayoutSettings) (origin : String) :
    Option Nat → Except SettingsError LayoutSettings
  | none => .ok settings
  | some 0 => .error (.zeroWidth origin)
  | some width => .ok { settings with indentWidth := width }

def LayoutSettings.withEnding (settings : LayoutSettings) (origin : String) :
    Option String → Except SettingsError LayoutSettings
  | none => .ok settings
  | some name =>
    match LineEnding.ofName? name with
    | some lineEnding => .ok { settings with lineEnding }
    | none => .error (.unknownLineEnding origin name)

/-- The settings that a file chooses; `origin` is its path. -/
def LayoutSettings.ofFile (origin : String) (file : SettingsFile) : Except SettingsError LayoutSettings :=
  match file.format with
  | none => .ok {}
  | some format => do
    let settings ← ({} : LayoutSettings).withWidth origin format.indentWidth
    settings.withEnding origin format.lineEnding

/-- The settings that a file with the given text chooses. -/
def LayoutSettings.parseWith (read : String → Option SettingsFile) (origin text : String) :
    Except SettingsError LayoutSettings :=
  match read text with
  | none => .error .malformed
  | some file => LayoutSettings.ofFile origin file

end Sharp
