import Sharp.CommandLine.Argument

/-!
# Runs on a disk

The effects of a run can be studied on a disk that is a plain value.
-/

namespace Sharp

/-- A file: the names on its path from the root, and its text. -/
structure DiskFile where
  names : List String
  text : String
  deriving DecidableEq, Repr

structure Disk where
  files : List DiskFile
  deriving DecidableEq, Repr

namespace Disk

def find (disk : Disk) (names : List String) : Lookup :=
  match disk.files.find? (·.names = names) with
  | some file => .text file.text
  | none => .missing

def put (disk : Disk) (names : List String) (text : String) : Disk :=
  ⟨⟨names, text⟩ :: disk.files.filter (·.names ≠ names)⟩

end Disk

/-- What a run can see and change. -/
structure World where
  disk : Disk
  standardInput : String := ""
  printed : String := ""
  /-- The names on the path of the working directory, if it can be found. -/
  here : Option (List String) := some []
  /-- Directories that exist besides those of the files. -/
  directories : List (List String) := []
  /-- Places where nothing can be written, and files that cannot be read. -/
  locked : List (List String) := []
  unreadable : List (List String) := []
  /-- How many more characters the standard output takes, if not all. -/
  room : Option Nat := none
  deriving DecidableEq, Repr

namespace World

/-- Is there a directory with these names? -/
def isDirectory (world : World) (names : List String) : Bool :=
  names.isEmpty || (world.here.toList ++ world.directories).any names.isPrefixOf ||
    world.disk.files.any fun file => names.isPrefixOf file.names && file.names ≠ names

/-- Walks along the names of a path to the place where a file can be, from the directory
`start`. -/
def walk (world : World) (start : List String) : List String → Option (List String)
  | [] => none
  | [name] => if ["", ".", ".."].contains name then none else some (start ++ [name])
  | name :: names =>
    if name = "" ∨ name = "." then walk world start names
    else if name = ".." then walk world start.dropLast names
    else if world.isDirectory (start ++ [name]) then walk world (start ++ [name]) names
    else none

/-- The names of the file that a path leads to. -/
def resolve? (world : World) (path : String) : Option (List String) :=
  if path.startsWith "/" then world.walk [] (path.splitOn "/")
  else world.here >>= fun here => world.walk here (path.splitOn "/")

def lookup (world : World) (path : String) : Lookup :=
  match world.resolve? path with
  | none => .missing
  | some names => if names ∈ world.unreadable then .unreadable else world.disk.find names

def write? (world : World) (path text : String) : Option World :=
  match world.resolve? path with
  | none => none
  | some names =>
    if world.isDirectory names || names ∈ world.locked then none
    else some { world with disk := world.disk.put names text }

/-- Prints as much of a text as the standard output takes, and tells whether that is all. -/
def print (world : World) (text : String) : Bool × World :=
  match world.room with
  | none => (true, { world with printed := world.printed ++ text })
  | some room =>
    if text.length ≤ room then
      (true, { world with printed := world.printed ++ text, room := some (room - text.length) })
    else
      (false, { world with printed := world.printed ++ String.ofList (text.toList.take room), room := some 0 })

end World

/-- The text at a path from the root. -/
def Disk.lookup (disk : Disk) (path : String) : Lookup :=
  ({ disk } : World).lookup path

def worldHost : Host (StateM World) where
  standardInput := do return .text (← get).standardInput
  workingDirectory := do
    return (← get).here.map fun names => "/" ++ String.intercalate "/" names
  lookup path := do return (← get).lookup path
  write path text := do
    match (← get).write? path text with
    | none => return false
    | some world =>
      set world
      return true
  print text := fun world => return world.print text

end Sharp
