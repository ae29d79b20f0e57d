import Sharp.CommandLine.Run
import Sharp.Settings.Table

/-!
# Arguments of the command line

A reader for the arguments.

* `Given`: what some arguments give.
* `Invocation.ofArgs`: the invocation that all of them give.
-/

namespace Sharp

inductive Argument where
  /-- `--`: no argument after it is an option. -/
  | endOfOptions
  /-- `--name` or `--name=value`. -/
  | long (name : String) (value : Option String)
  /-- `-abc`: short options in one argument. -/
  | short (letters : List Char)
  | plain (text : String)
  deriving DecidableEq, Repr

/-- A long option: what is before the first `=` is its name. -/
def Argument.ofLong (cs : List Char) : Argument :=
  .long (String.ofList (cs.takeWhile (· ≠ '='))) <|
    match cs.dropWhile (· ≠ '=') with
    | [] => none
    | _ :: value => some (String.ofList value)

def Argument.ofString (text : String) : Argument :=
  match text.toList with
  | ['-', '-'] => .endOfOptions
  | '-' :: '-' :: cs => ofLong cs
  | '-' :: c :: cs => .short (c :: cs)
  | _ => .plain text

inductive ValueOption where
  | indentWidth
  | lineEnding
  | output
  deriving DecidableEq, Repr

/-- What the arguments of a command, or those before it, give. -/
structure Given where
  verbose : Bool := false
  indentWidth : Option Nat := none
  lineEnding : Option LineEnding := none
  output : Option String := none
  path : Option String := none
  deriving DecidableEq, Repr

/-- The largest width that can be given: widths have 64 bits. -/
def maxWidth : Nat :=
  18446744073709551615

def natOfDigits? : List Char → Option Nat
  | [] => none
  | cs => if cs.all Char.isDigit then some (cs.foldl (fun n c => 10 * n + (c.toNat - '0'.toNat)) 0)
    else none

/-- Reads a width: digits, possibly after `+`. -/
def readWidth (text : String) : Option Nat :=
  let digits := match text.toList with
    | '+' :: cs => cs
    | cs => cs
  (natOfDigits? digits).filter (· ≤ maxWidth)

/-- Reads the name of a line ending, in lower case only. -/
def readEnding : String → Option LineEnding
  | "crlf" => some .crlf
  | "lf" => some .lf
  | _ => none

/-- Reads a path, which is not empty. -/
def readPath (text : String) : Option String :=
  if text.isEmpty then none else some text

def setOnce {α : Type} (held : Option α) (value : Option α) : Option (Option α) :=
  match held, value with
  | none, some a => some (some a)
  | _, _ => none

namespace Given

def setOption (given : Given) (option : ValueOption) (text : String) : Option Given :=
  match option with
  | .indentWidth =>
    (setOnce given.indentWidth (readWidth text)).map fun indentWidth => { given with indentWidth }
  | .lineEnding =>
    (setOnce given.lineEnding (readEnding text)).map fun lineEnding => { given with lineEnding }
  | .output => (setOnce given.output (readPath text)).map fun output => { given with output }

def setVerbose (given : Given) : Option Given :=
  if given.verbose then none else some { given with verbose := true }

def setPath (given : Given) (text : String) : Option Given :=
  (setOnce given.path (readPath text)).map fun path => { given with path }

end Given

/-! ## Commands -/

inductive CommandName where
  | convert
  | tokens
  | check
  deriving DecidableEq, Repr

def CommandName.ofText? : String → Option CommandName
  | "convert" => some .convert
  | "tokens" => some .tokens
  | "check" => some .check
  | _ => none

inductive Level where
  | beforeCommand
  | afterCommand (command : CommandName)
  deriving DecidableEq, Repr

namespace Level

def longOption? (level : Level) : String → Option ValueOption
  | "indent-width" => some .indentWidth
  | "line-ending" => some .lineEnding
  | "output" => if level = .afterCommand .convert then some .output else none
  | _ => none

def shortOption? (level : Level) : Char → Option ValueOption
  | 'o' => if level = .afterCommand .convert then some .output else none
  | _ => none

end Level

inductive ArgumentEffect where
  | give (given : Given)
  /-- An option whose value is the next argument. -/
  | await (given : Given) (option : ValueOption)
  deriving DecidableEq, Repr

def versionText : String :=
  "sharpc 0.2.0\n"

def usageText : String :=
  "Usage: sharpc [OPTIONS] <COMMAND>\n"

def orMisuse {α : Type} : Option α → Except Stop α
  | some a => .ok a
  | none => .error .misuse

/-- An option that asks for a text.  The version can be asked for only before the command. -/
def refuseOption {α : Type} (level : Level) (help version : Bool) : Except Stop α :=
  if help then .error (.display usageText)
  else if version && level == .beforeCommand then .error (.display versionText)
  else .error .misuse

def readLong (level : Level) (given : Given) (name : String) (value : Option String) :
    Except Stop ArgumentEffect :=
  match level.longOption? name, value with
  | some option, some text => orMisuse ((given.setOption option text).map .give)
  | some option, none => .ok (.await given option)
  | none, some _ => .error .misuse
  | none, none =>
    if name = "verbose" then orMisuse (given.setVerbose.map .give)
    else refuseOption level (name == "help") (name == "version")

/-- The value after the letter of an option, without the `=` that may precede it. -/
def attachedValue : List Char → String
  | '=' :: cs => String.ofList cs
  | cs => String.ofList cs

def readShort (level : Level) (given : Given) : List Char → Except Stop ArgumentEffect
  | [] => .ok (.give given)
  | c :: cs =>
    match level.shortOption? c with
    | some option =>
      if cs.isEmpty then .ok (.await given option)
      else orMisuse ((given.setOption option (attachedValue cs)).map .give)
    | none =>
      if c = 'v' then orMisuse given.setVerbose >>= fun given => readShort level given cs
      else refuseOption level (c == 'h') (c == 'V')

def readOption (level : Level) (given : Given) : Argument → Except Stop ArgumentEffect
  | .long name value => readLong level given name value
  | .short letters => readShort level given letters
  | _ => .error .misuse

def readPaths (given : Given) : List String → Except Stop Given
  | [] => .ok given
  | text :: args => orMisuse (given.setPath text) >>= fun given => readPaths given args

/-- Reads the arguments after a command.  `awaited` is the option whose value comes next. -/
def readAfterCommand (command : CommandName) (awaited : Option ValueOption) (given : Given) :
    List String → Except Stop Given
  | [] => if awaited.isSome then .error .misuse else .ok given
  | arg :: args =>
    match awaited, Argument.ofString arg with
    | some option, .plain text =>
      orMisuse (given.setOption option text) >>= fun given => readAfterCommand command none given args
    | some _, _ => .error .misuse
    | none, .endOfOptions => readPaths given args
    | none, .plain text =>
      orMisuse (given.setPath text) >>= fun given => readAfterCommand command none given args
    | none, argument =>
      match readOption (.afterCommand command) given argument with
      | .ok (.give given) => readAfterCommand command none given args
      | .ok (.await given option) => readAfterCommand command (some option) given args
      | .error stop => .error stop

/-- The invocation of a command; `before` and `after` are what the arguments before and after it
give.  Those after it win. -/
def Invocation.ofGiven (command : CommandName) (before after : Given) : Invocation where
  command := match command with
    | .convert => .convert after.output
    | .tokens => .tokens
    | .check => .check
  path := after.path.getD "-"
  indentWidth := after.indentWidth <|> before.indentWidth
  lineEnding := after.lineEnding <|> before.lineEnding

/-- Reads the arguments up to a command and those after it.  `awaited` is the option whose value
comes next. -/
def readInvocation (awaited : Option ValueOption) (given : Given) : List String → Except Stop Invocation
  | [] => .error .misuse
  | arg :: args =>
    match awaited, Argument.ofString arg with
    | some option, .plain text =>
      orMisuse (given.setOption option text) >>= fun given => readInvocation none given args
    | some _, _ => .error .misuse
    | none, .endOfOptions => .error .misuse
    | none, .plain "help" => .error (.display usageText)
    | none, .plain text => do
      let command ← orMisuse (CommandName.ofText? text)
      let after ← readAfterCommand command none {} args
      return .ofGiven command given after
    | none, argument =>
      match readOption .beforeCommand given argument with
      | .ok (.give given) => readInvocation none given args
      | .ok (.await given option) => readInvocation (some option) given args
      | .error stop => .error stop

def Invocation.ofArgs (args : List String) : Except Stop Invocation :=
  readInvocation none {} args

def standardReaders : Readers :=
  ⟨Invocation.ofArgs, readSettings⟩

end Sharp
