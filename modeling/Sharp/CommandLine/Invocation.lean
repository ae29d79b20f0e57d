import Sharp.Layout.Item

/-!
# Invocations

What the arguments of the program ask for.
-/

namespace Sharp

inductive Command where
  /-- The result goes to the file at the path `output`, or to the standard output. -/
  | convert (output : Option String)
  | tokens
  | check
  deriving DecidableEq, Repr

structure Invocation where
  command : Command
  /-- The path of the source; `-` is the standard input. -/
  path : String := "-"
  indentWidth : Option Nat := none
  lineEnding : Option LineEnding := none
  deriving DecidableEq, Repr

/-- Why arguments ask for no run. -/
inductive Stop where
  | misuse
  /-- They ask for a text, such as the version. -/
  | display (text : String)
  deriving DecidableEq, Repr

end Sharp
