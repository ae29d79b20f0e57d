import Sharp.CommandLine.Argument

/-!
# The program

* `systemHost`: the surroundings of a process.
* `main`: the entry point.
-/

namespace Sharp

partial def readAll (stream : IO.FS.Stream) (text : String) : IO String := do
  let line ← stream.getLine
  if line.isEmpty then return text else readAll stream (text ++ line)

def lookupFile (path : String) : IO Lookup := do
  try
    return .text (← IO.FS.readFile path)
  catch
    | .noFileOrDirectory .. | .inappropriateType .. => return .missing
    | _ => return .unreadable

def systemHost : Host IO where
  standardInput := do
    try
      return .text (← readAll (← IO.getStdin) "")
    catch _ => return .unreadable
  workingDirectory := do
    try
      return some (← IO.currentDir).toString
    catch _ => return none
  lookup := lookupFile
  write path text := do
    try
      IO.FS.writeFile path text
      return true
    catch _ => return false
  print text := do
    try
      let stream ← IO.getStdout
      stream.putStr text
      stream.flush
      return true
    catch _ => return false

end Sharp

def main (args : List String) : IO UInt32 := do
  let outcome ← Sharp.run Sharp.standardReaders Sharp.systemHost args
  match outcome with
  | .failure failure => IO.eprintln failure.message
  | .misuse => IO.eprint Sharp.usageText
  | .aborted => IO.eprintln "failed printing to stdout"
  | .success => pure ()
  return outcome.exitCode.toUInt32
