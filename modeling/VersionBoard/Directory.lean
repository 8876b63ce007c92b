import VersionBoard.Host

/-!
# Directories and paths

A tree of directories, with a number for every file in it. A path is looked up
name by name from the working directory; the first name that cannot be followed
says what is wrong. A path that is to be opened for writing may end in a name
that is not there yet, and never in a directory.
-/

namespace VersionBoard

/-- What a name stands for. -/
inductive Node where
  /-- A directory. -/
  | directory
  /-- A file, by its number. -/
  | file (number : Nat)
  deriving DecidableEq

/-- All names below the working directory, each with the names that lead to it. -/
abbrev Directory : Type := List (List String × Node)

namespace Directory

/-! ### Paths -/

/-- The most bytes that a name can have. -/
def maxName : Nat := 255

/-- The fewest bytes that make a path too long. -/
def pathLimit : Nat := 4096

/-- A path relative to a directory; a path that starts at the root stays as it is. -/
def join (dir name : String) : String :=
  if name.startsWith "/" then name
  else if dir.isEmpty || dir.endsWith "/" then dir ++ name
  else dir ++ "/" ++ name

/-- The names that a path is made of; empty ones stand for nothing. -/
def names (path : String) : List String := (path.splitOn "/").filter (· ≠ "")

/-- Whether a name stands for a directory that is known without looking. -/
def isDots (name : String) : Bool := name = "." ∨ name = ".."

/-! ### Looking up -/

/-- What is at the end of a way; the empty way leads to the working directory. -/
def node? (d : Directory) : List String → Option Node
  | [] => some .directory
  | way => d.lookup way

/-- Follow one name into a directory. -/
def enter (d : Directory) (way : List String) (name : String) : Except PathFault (List String) :=
  if name = "." then .ok way
  else if name = ".." then .ok way.dropLast
  else if maxName < name.utf8ByteSize then .error .nameTooLong
  else match d.node? (way ++ [name]) with
    | none => .error .notFound
    | some (.file _) => .error .notADirectory
    | some .directory => .ok (way ++ [name])

/-- Follow names into directories, one after another. -/
def walk (d : Directory) : (way names : List String) → Except PathFault (List String)
  | way, [] => .ok way
  | way, name :: names => do walk d (← d.enter way name) names

/-- Where a path leads to. -/
inductive Place where
  /-- To a file. -/
  | file (number : Nat)
  /-- To a name that is not there yet, in a directory that is. -/
  | vacant (way : List String)
  deriving DecidableEq

/-- Where a path leads to that is to be opened for writing. A slash at the end asks for a
directory, whatever is there. -/
def locate (d : Directory) (path : String) : Except PathFault Place := do
  if path.contains '\x00' then throw .nulCharacter
  if path.isEmpty then throw .notFound
  if pathLimit ≤ path.utf8ByteSize then throw .nameTooLong
  let way ← d.walk [] (names path).dropLast
  let some last := (names path).getLast? | throw .isADirectory
  if path.endsWith "/" || isDots last then throw .isADirectory
  if maxName < last.utf8ByteSize then throw .nameTooLong
  match d.node? (way ++ [last]) with
  | none => return .vacant (way ++ [last])
  | some .directory => throw .isADirectory
  | some (.file n) => return .file n

/-! ### Changes -/

/-- With a name for something, in place of what the name stood for. -/
def put (d : Directory) (way : List String) (node : Node) : Directory :=
  (way, node) :: d.filter (·.1 ≠ way)

/-- Without a name. -/
def erase (d : Directory) (way : List String) : Directory := d.filter (·.1 ≠ way)

end Directory

end VersionBoard
