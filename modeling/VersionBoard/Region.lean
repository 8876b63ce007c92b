import VersionBoard.Host
import VersionBoard.Mapping

/-!
# A handle's side of a file

A region is a path, a mapping and the host it goes through. It works on a
`Scene`: the file, which all handles share, and the region itself. Whatever the
host refuses becomes an error of the call and leaves file and mapping as they
were before the refused step; a file that had already been made longer stays
longer. The advisory lock belongs to a descriptor: a region that could not give
it back may hold it until it is closed.
-/

namespace VersionBoard

variable [Processor]

/-- A file as one of its handles finds it. -/
@[ext]
structure File where
  /-- The contents. -/
  image : Image
  /-- Whether someone else holds the advisory lock. -/
  locked : Bool := false
  deriving DecidableEq, Inhabited

/-- What one handle has of a file. -/
structure Region where
  /-- The path by which the file was opened. -/
  path : String
  /-- What is mapped. -/
  mapping : Mapping
  /-- The file service. -/
  host : Host
  /-- Whether its descriptor of the file holds the advisory lock. -/
  holds : Bool := false
  deriving Inhabited

/-- A file and one handle's side of it. -/
structure Scene where
  /-- The file. -/
  file : File
  /-- The handle's side. -/
  region : Region
  deriving Inhabited

namespace Region

/-- The largest size that can be asked for. -/
def maxSize : Nat := UInt64.size - 1

/-- How long a file becomes that has to hold `required` bytes: twice as long. -/
def grownSize (required : Nat) : Nat := min (2 * required) maxSize

/-! ### Parts of a scene -/

/-- The path. -/
def pathOf : Act Scene String := do return (← Act.state).region.path

/-- The mapping. -/
def currentMapping : Act Scene Mapping := do return (← Act.state).region.mapping

/-- Work through the mapping. -/
def onTable {α : Type} (f : Mapping → Act Image α) : Act Scene α := do
  let m ← currentMapping
  (f m).on (·.file.image) fun image s => { s with file := { s.file with image } }

/-- Fail unless the region is open. -/
def requireOpen : Act Scene Unit := do
  if !(← currentMapping).isOpen then .fail .closed

/-! ### Calls on the host -/

/-- Make a call. -/
def ask (call : Call) : Act Scene (Option Refusal) := fun s =>
  let (refusal?, host) := s.region.host.answer call
  (.ok refusal?, { s with region := { s.region with host } })

/-- Make a call; a refusal is the error that `error` makes of it. -/
def attempt (call : Call) (error : Refusal → Error) : Act Scene Unit := do
  if let some why ← ask call then .fail (error why)

/-- Have the system do something that is no call; what it has against it is the error that `error` makes of it. -/
def require (refusal? : Host → Option Refusal) (error : Refusal → Error) : Act Scene Unit := do
  if let some why := refusal? (← Act.state).region.host then .fail (error why)

/-- How long the file is. -/
def measure : Act Scene Nat := do
  let path ← pathOf
  attempt .length fun why => .cannotOpen path (.refused why)
  return (← Act.state).file.image.size

/-- Make the file at least `n` bytes long. -/
def allocate (n : Nat) : Act Scene Unit := do
  let path ← pathOf
  attempt (.allocate n) fun why => .cannotGrow path n (.refused why)
  Act.modify fun s => { s with file := { s.file with image := s.file.image.grow n } }

/-- Map the file's first `n` bytes, in place of what was mapped before. -/
def mapFirst (n : Nat) : Act Scene Unit := do
  let path ← pathOf
  attempt (.map n) fun why => .cannotMap path (.refused why)
  Act.modify fun s => { s with region := { s.region with mapping := .upTo n } }

/-! ### Operations -/

/-- Map the whole file, after it was opened; it is first made `least` bytes long if it is shorter. -/
def mapWhole (least : Nat) : Act Scene Unit := do
  let size ← measure
  if size < least then allocate least
  mapFirst (max size least)

/-- How long the file is, which may be longer than what is mapped. -/
def fileSize : Act Scene Nat := do
  requireOpen
  measure

/-- Make sure that `required` bytes are mapped. If the file is long enough, because another handle
made it longer, it is only mapped anew. -/
def reach (required : Nat) : Act Scene Unit := do
  if required ≤ (← currentMapping).size then return
  let size ← fileSize
  if required ≤ size then mapFirst size
  else
    allocate (grownSize required)
    mapFirst (grownSize required)

/-- The advisory lock is held or not. -/
def setHolds (holds : Bool) : Act Scene Unit :=
  Act.modify fun s => { s with region := { s.region with holds } }

/-- Take the file's advisory lock, by a second descriptor of the file. -/
def lock : Act Scene Unit := do
  requireOpen
  let path ← pathOf
  require (fun h => h.noDuplicate? h.log) fun why => .cannotOpen path (.refused why)
  attempt .lock fun why => .cannotOpen path (.lockRefused why)
  if (← Act.state).file.locked then .wait .advisoryLock
  setHolds true

/-- Give the file's advisory lock back. A refusal goes unnoticed; then the lock may stay, for the second descriptor is
only another name of the first one. -/
def unlock : Act Scene Unit := do
  let host := (← Act.state).region.host
  let refusal? ← ask .unlock
  setHolds (refusal?.isSome && host.keepsLock host.log)

/-- Do `body` with the file's advisory lock held. -/
def holdingFile {α : Type} (body : Act Scene α) : Act Scene α := do
  lock
  body.afterwards unlock

/-- Do `body` with the header lock held. The mapping may change in between. -/
def holdingHeader {α : Type} (body : Act Scene α) : Act Scene α := do
  onTable fun m => m.take Cell.headerLock.offset
  body.afterwards (onTable fun m => m.release Cell.headerLock.offset)

/-- Bring the mapped bytes to the device. -/
def flush : Act Scene Unit := do
  requireOpen
  let path ← pathOf
  require (fun h => h.noFlush? h.log) fun why => .cannotMap path (.refused why)

/-- Unmap and close. What was mapped has reached the file already, so a flush before that, which may fail unnoticed,
changes nothing; and the descriptor's lock is gone with it. -/
def close : Act Scene Unit :=
  Act.modify fun s => { s with region := { s.region with mapping := .closed, holds := false } }

/-! ### Opening -/

/-- Open the file at a path, or create it, and do `body` with it. `place` says what is at the path:
a fault, nothing yet, or a file. The file stays if it was opened, however `body` ends. -/
def enter {α : Type} (path : String) (host : Host) (place : Except PathFault (Option File))
    (body : Act Scene α) : Except Halt α × Option Image × Region :=
  let fault? := match place with
    | .error fault => some fault
    | .ok _ => none
  let file? := match place with
    | .error _ => none
    | .ok file? => file?
  match host.answer .openRw fault? with
  | (some why, host) =>
    (.error (.failed (.cannotOpen path (.refused why))), file?.map (·.image), { path, mapping := .closed, host })
  | (none, host) =>
    let (r, s) := body ⟨file?.getD ⟨Image.empty, false⟩, { path, mapping := .closed, host }⟩
    (r, some s.file.image, s.region)

end Region

end VersionBoard
