import VersionBoard.Handle
import VersionBoard.Named

/-!
# One file and all its handles

Any number of handles share a file: each has its own mapping and its own host,
and all see the same bytes. A history of calls is a `run` of requests, each of
which names the handle it goes through, and every request is one `step`.
-/

namespace VersionBoard

variable [Processor]

/-- A file, which may be missing still, and its handles. -/
structure Shared where
  /-- The contents of the file. -/
  file? : Option Image := none
  /-- The handles. -/
  handles : Named Handle := []

instance : Inhabited Shared := ⟨{}⟩

/-- What can be asked for on one file. -/
inductive Request where
  /-- Open a board and keep the handle under `name`. -/
  | openBoard (name path : String) (host : Host) (config : Config)
  /-- Open a board and close it at once. -/
  | create (path : String) (host : Host) (config : Config)
  /-- Make a call through a handle. -/
  | call (name : String) (call : BoardCall)
  /-- Close a handle, which stays known. -/
  | close (name : String)
  /-- Close a handle and forget it. -/
  | drop (name : String)
  /-- Let a handle go through another host. -/
  | setHost (name : String) (host : Host)

namespace Shared

/-- Whether a handle holds the file's advisory lock. -/
def locked (s : Shared) : Bool := s.handles.any (·.region.holds)

/-- The file as whoever opens it finds it. -/
def found? (s : Shared) : Option File := s.file?.map (⟨·, s.locked⟩)

/-- Forget a handle. -/
def forget (s : Shared) (name : String) : Shared := { s with handles := s.handles.erase name }

/-- The file as it is now, and a new handle if the opening gave an answer. -/
def keep (s : Shared) (name : String) (handle : Region → Handle)
    (opened : Reply Answer × Option Image × Region) : Reply Answer × Shared :=
  let (reply, file?, region) := opened
  match reply.outcome with
  | .ok _ => (reply, { file?, handles := s.handles.put name (handle region) })
  | .error _ => (reply, { s with file? })

/-- What something done through a handle works on: the file as that handle finds it, and its side of it. -/
def scene (s : Shared) (name : String) (handle : Handle) (image : Image) : Scene :=
  ⟨⟨image, (s.forget name).locked⟩, handle.region⟩

/-- Do something through a handle; `none` if there is no such handle. -/
def act {α : Type} (s : Shared) (name : String) (f : Handle → Option (Act Scene α)) :
    Option (Reply α × Shared) := do
  let handle ← s.handles.get? name
  let image ← s.file?
  let x ← f handle
  let (outcome, scene) := x (s.scene name handle image)
  return (⟨outcome, scene.region.host.reportSince handle.region.host⟩,
    { file? := some scene.file.image, handles := s.handles.put name (handle.withRegion scene.region) })

/-- Another host for a handle's region. A silent host stays. -/
def changeHost (host : Host) : Act Scene Answer := do
  Act.modify fun s =>
    if s.region.host.silent then s else { s with region := { s.region with host } }
  return .done

/-- Do something through a handle; there is no reply if there is no such handle. -/
def through (s : Shared) (name : String) (f : Handle → Option (Act Scene Answer)) :
    Option (Reply Answer) × Shared :=
  match s.act name f with
  | some (reply, s) => (some reply, s)
  | none => (none, s)

/-- Close a handle. -/
def close (s : Shared) (name : String) : Option (Reply Answer) × Shared :=
  s.through name fun _ => some do
    Region.close
    return .done

/-- Answer a request; there is no reply if it names no handle that can answer it. -/
def step (s : Shared) : Request → Option (Reply Answer) × Shared
  | .openBoard name path host config =>
    let (reply, s) := s.keep name (.board · config) (Board.openAt path host config (.ok s.found?))
    (some reply, s)
  | .create path host config =>
    let (reply, file?, _) := Board.createAt path host config (.ok s.found?)
    (some reply, { s with file? })
  | .call name c => s.through name fun h => h.call? c
  | .close name => s.close name
  | .drop name =>
    let (reply, s) := s.close name
    (reply, s.forget name)
  | .setHost name host => s.through name fun _ => some (changeHost host)

/-- Answer requests one after another; the replies are in the same order. -/
def run (s : Shared) : List Request → List (Option (Reply Answer)) × Shared
  | [] => ([], s)
  | r :: rs =>
    let (reply, s) := s.step r
    let (replies, s) := run s rs
    (reply :: replies, s)

end Shared

end VersionBoard
