import VersionBoard.Directory
import VersionBoard.Shared

/-!
# Files in directories

Many files, each with its handles, and the directories in which paths find
them. A file that is opened under a name that is not there yet is new and gets
the name; it keeps existing for its handles when the name is taken away.
-/

namespace VersionBoard

variable [Processor]

/-- Directories, files and handles. -/
structure Store where
  /-- The names. -/
  directory : Directory
  /-- The files, by number. -/
  files : Array Shared
  /-- For every handle the number of its file. -/
  homes : Named Nat

namespace Store

/-- A working directory with empty directories of the given names in it. -/
def withDirectories (names : List String) : Store where
  directory := names.map fun name => ([name], .directory)
  files := #[]
  homes := []

/-! ### Files -/

/-- The file at a place, missing yet if the place is vacant. -/
def sharedAt (st : Store) : Directory.Place → Shared
  | .file n => st.files[n]?.getD {}
  | .vacant _ => {}

/-- A file is now as given. At a vacant place it is new, if it has come to exist. The answer is the
file's number. -/
def settle (st : Store) (s : Shared) : Directory.Place → Option Nat × Store
  | .file n => (some n, { st with files := st.files.setIfInBounds n s })
  | .vacant way =>
    if s.file?.isSome then
      (some st.files.size,
        { st with directory := st.directory.put way (.file st.files.size), files := st.files.push s })
    else (none, st)

/-- The contents of the file at a path. -/
def contents? (st : Store) (path : String) : Option Image :=
  match st.directory.locate path with
  | .ok (.file n) => st.files[n]?.bind (·.file?)
  | _ => none

/-- Write the file at a path anew. -/
def writeFile (st : Store) (path : String) (image : Image) : Except PathFault Store := do
  let place ← st.directory.locate path
  let s := st.sharedAt place
  return (st.settle { s with file? := some image } place).2

/-- Change the contents of the file at a path, if there is one. -/
def changeFile (st : Store) (path : String) (f : Image → Image) : Store :=
  match st.directory.locate path with
  | .ok (.file n) =>
    { st with files := st.files.modify n fun s => { s with file? := s.file?.map f } }
  | _ => st

/-- Take the name of a file away. -/
def removeFile (st : Store) (path : String) : Store :=
  match st.directory.locate path with
  | .ok (.file n) => { st with directory := st.directory.filter (·.2 ≠ .file n) }
  | _ => st

/-- Make a directory. -/
def makeDirectory (st : Store) (path : String) : Store :=
  match st.directory.locate path with
  | .ok (.vacant way) => { st with directory := st.directory.put way .directory }
  | _ => st

/-! ### Handles -/

/-- The handle under a name. -/
def handle? (st : Store) (name : String) : Option Handle := do
  let n ← st.homes.get? name
  let s ← st.files[n]?
  s.handles.get? name

/-- A handle lives at file `n` now, and nowhere else. -/
def moveHandle (st : Store) (name : String) (n : Nat) : Store :=
  let files := match st.homes.get? name with
    | some old => if old = n then st.files else st.files.modify old (·.forget name)
    | none => st.files
  { st with files, homes := st.homes.put name n }

/-- Open the file at a path and keep the handle under `name`. -/
def openWith (st : Store) (path name : String) (handle : Region → Handle)
    (opening : Except PathFault (Option File) → Reply Answer × Option Image × Region) :
    Reply Answer × Store :=
  match st.directory.locate path with
  | .error fault => ((opening (.error fault)).1, st)
  | .ok place =>
    let s := st.sharedAt place
    let (reply, s) := s.keep name handle (opening (.ok s.found?))
    match st.settle s place with
    | (some n, st) => (reply, if reply.outcome.isOk then st.moveHandle name n else st)
    | (none, st) => (reply, st)

/-- Open the file at a path as bytes only, and keep the handle under `name`. -/
def openBare (st : Store) (path name : String) (host : Host) (least : Nat) : Reply Answer × Store :=
  st.openWith path name .bare (Region.openAt path host least)

/-- Do something through a handle; `none` if there is no such handle. -/
def act {α : Type} (st : Store) (name : String) (f : Handle → Option (Act Scene α)) :
    Option (Reply α × Store) := do
  let n ← st.homes.get? name
  let s ← st.files[n]?
  let (reply, s) ← s.act name f
  return (reply, { st with files := st.files.setIfInBounds n s })

/-- Answer a request through a handle, on the handle's file. -/
def through (st : Store) (name : String) (r : Request) : Option (Reply Answer) × Store :=
  match st.homes.get? name with
  | none => (none, st)
  | some n =>
    let (reply, s) := (st.files[n]?.getD {}).step r
    (reply, { st with files := st.files.setIfInBounds n s })

/-- Answer a request on the file that it names by a path, or by a handle. -/
def request (st : Store) (r : Request) : Option (Reply Answer) × Store :=
  match r with
  | .openBoard name path host config =>
    let (reply, st) := st.openWith path name (.board · config) (Board.openAt path host config)
    (some reply, st)
  | .create path host config =>
    match st.directory.locate path with
    | .error fault => (some (Board.createAt path host config (.error fault)).1, st)
    | .ok place =>
      let (reply, s) := (st.sharedAt place).step r
      (reply, (st.settle s place).2)
  | .call name _ => st.through name r
  | .close name => st.through name r
  | .drop name => st.through name r
  | .setHost name _ => st.through name r

end Store

end VersionBoard
