import Sharp.CommandLine.Invocation
import Sharp.CommandLine.TokenTable
import Sharp.Program
import Sharp.Settings.Basic

/-!
# Running the program

A run reads its source and its settings, converts the source, and delivers the result.

* `Readers`: how arguments and settings files are read.
* `Host`: what a run needs from its surroundings.
* `run`: a run of the program.
-/

namespace Sharp

/-- The readers for the two languages that are not the program's own: that of the arguments, and that
of settings files. -/
structure Readers where
  arguments : List String → Except Stop Invocation
  settings : String → Option SettingsFile

inductive Lookup where
  | missing
  /-- A file that cannot be read as text. -/
  | unreadable
  | text (content : String)
  deriving DecidableEq, Repr

structure Host (m : Type → Type) where
  standardInput : m Lookup
  /-- The path of the working directory, if it can be found. -/
  workingDirectory : m (Option String)
  lookup : String → m Lookup
  /-- Writes a file, and tells whether that was possible. -/
  write : String → String → m Bool
  /-- Prints a text, and tells whether all of it was taken. -/
  print : String → m Bool

inductive Failure where
  | unreadable (path : String)
  | unwritable (path : String)
  | unprintable
  | noWorkingDirectory
  | settings (error : SettingsError)
  | zeroWidth
  | source (fault : Fault)
  deriving DecidableEq, Repr

def Failure.message : Failure → String
  | unreadable path => "failed to read " ++ path
  | unwritable path => "failed to write " ++ path
  | unprintable => "failed to print"
  | noWorkingDirectory => "no working directory"
  | settings error => "config error: " ++ error.message
  | zeroWidth => "--indent-width must be at least 1"
  | source fault => fault.display

inductive Outcome where
  | success
  | failure (failure : Failure)
  | misuse
  /-- The run breaks off: its only message cannot be printed. -/
  | aborted
  deriving DecidableEq, Repr

def Outcome.exitCode : Outcome → Nat
  | success => 0
  | failure _ => 1
  | misuse => 2
  | aborted => 101

/-! ## Settings -/

def pathNames (path : String) : List String :=
  (path.splitOn "/").filter fun name => name ≠ "" ∧ name ≠ "."

def joinPath (isAbsolute : Bool) (directory : List String) (name : String) : String :=
  (if isAbsolute then "/" else "") ++ String.intercalate "/" (directory ++ [name])

/-- A directory and those around it, nearest first. -/
def enclosing : List String → List (List String)
  | [] => [[]]
  | name :: names => (enclosing names).map (name :: ·) ++ [[]]

/-- Does the path say in which directory its file is? -/
def namesDirectory (path : String) : Bool :=
  path.startsWith "/" || path.startsWith "./" || 1 < (pathNames path).length

/-- The paths at which settings are looked for, nearest first: in a directory and in those around it,
as far as its path tells. -/
def settingsPaths (isAbsolute : Bool) (directory : List String) : List String :=
  (enclosing directory).map fun names => joinPath isAbsolute names settingsFileName

def Invocation.settings (invocation : Invocation) (file : LayoutSettings) :
    Except Failure LayoutSettings :=
  if invocation.indentWidth = some 0 then .error .zeroWidth
  else
    .ok ⟨invocation.indentWidth.getD file.indentWidth, invocation.lineEnding.getD file.lineEnding⟩

def Invocation.sourceName (invocation : Invocation) : String :=
  if invocation.path = "-" then "<stdin>" else invocation.path

/-- The settings of a run and the program that its source is converted to. -/
def Invocation.result (invocation : Invocation) (file : LayoutSettings) (source : String) :
    Except Failure (LayoutSettings × Program) := do
  let settings ← invocation.settings file
  match Program.ofSource source with
  | .error fault => .error (.source fault)
  | .ok program => .ok (settings, program)

/-! ## Runs -/

section

variable {m : Type → Type} [Monad m] (readers : Readers) (host : Host m)

def Invocation.readSource (invocation : Invocation) : m (Except Failure String) := do
  let found ← if invocation.path = "-" then host.standardInput else host.lookup invocation.path
  match found with
  | .text source => return .ok source
  | _ => return .error (.unreadable invocation.sourceName)

/-- Where the settings of a run are looked for.  If the path of its source does not say in which
directory that is, it is in the working directory. -/
def Invocation.settingsPlaces (invocation : Invocation) : m (Except Failure (List String)) := do
  let path := invocation.path
  if path ≠ "-" ∧ namesDirectory path then
    return .ok (settingsPaths (path.startsWith "/") (pathNames path).dropLast)
  else
    match ← host.workingDirectory with
    | none => return .error .noWorkingDirectory
    | some here => return .ok (settingsPaths true (pathNames here))

/-- Reads the settings from the first of some paths at which there is a file. -/
def readSettingsFile : List String → m (Except Failure LayoutSettings)
  | [] => return .ok {}
  | path :: paths => do
    match ← host.lookup path with
    | .missing => readSettingsFile paths
    | .unreadable => return .error (.unreadable path)
    | .text content => return (LayoutSettings.parseWith readers.settings path content).mapError .settings

/-- Reads the source and the settings, and converts the source.  All commands do this first. -/
def Invocation.load (invocation : Invocation) : m (Except Failure (LayoutSettings × Program)) := do
  match ← invocation.readSource host with
  | .error failure => return .error failure
  | .ok source =>
    match ← invocation.settingsPlaces host with
    | .error failure => return .error failure
    | .ok places =>
      match ← readSettingsFile readers host places with
      | .error failure => return .error failure
      | .ok file => return invocation.result file source

/-- Prints texts one after another, up to the first that is not taken. -/
def printAll : List String → m Bool
  | [] => return true
  | text :: texts => do
    if ← host.print text then printAll texts else return false

/-- Writes what the run produces: to a file if one is named, otherwise to the standard output. -/
def Invocation.deliver (invocation : Invocation) (settings : LayoutSettings) (program : Program) :
    m Outcome := do
  match invocation.command with
  | .convert (some path) =>
    return if ← host.write path (program.text settings) then .success else .failure (.unwritable path)
  | .convert none =>
    return if ← host.print (program.text settings) then .success else .failure .unprintable
  | .tokens =>
    return if ← printAll host (tokenRows program.tokens) then .success else .failure .unprintable
  | .check =>
    return if ← host.print (invocation.sourceName ++ ": ok\n") then .success else .aborted

def Invocation.run (invocation : Invocation) : m Outcome := do
  match ← invocation.load readers host with
  | .error failure => return .failure failure
  | .ok (settings, program) => invocation.deliver host settings program

/-- A run of the program.  A text that the arguments ask for is printed as far as it is taken. -/
def run (args : List String) : m Outcome := do
  match readers.arguments args with
  | .error .misuse => return .misuse
  | .error (.display text) =>
    let _ ← host.print text
    return .success
  | .ok invocation => invocation.run readers host

end

end Sharp
