/-!
# The file service behind a handle

A handle reaches its file only through six calls. A host answers each of them
or refuses it; which calls it refuses may depend on how many calls of that kind
came before, so any schedule of faults is a host. A refused call does nothing;
whether a refused `unlock` unlocks all the same is up to the host as well. Two
things that the system does beside these calls can fail too: to make a second
descriptor of a file, and to bring mapped bytes to the device.
-/

namespace VersionBoard

/-- The kinds of calls. -/
inductive CallKind where
  /-- Open a file for reading and writing, creating it if there is none. -/
  | openRw
  /-- Ask how long the file is. -/
  | length
  /-- Make the file at least so long. -/
  | allocate
  /-- Map the file's first bytes. -/
  | map
  /-- Take the file's advisory lock. -/
  | lock
  /-- Give the file's advisory lock back. -/
  | unlock
  deriving DecidableEq

namespace CallKind

/-- All kinds of calls. -/
def all : List CallKind := [openRw, length, allocate, map, lock, unlock]

/-- The name of a kind of call. -/
def name : CallKind → String
  | openRw => "open_rw"
  | length => "length"
  | allocate => "allocate"
  | map => "map"
  | lock => "lock"
  | unlock => "unlock"

end CallKind

/-- A call on the file service: its kind, and a size where the kind has one. -/
inductive Call where
  /-- Open a file for reading and writing. -/
  | openRw
  /-- Ask how long the file is. -/
  | length
  /-- Make the file at least `size` bytes long. -/
  | allocate (size : Nat)
  /-- Map the file's first `size` bytes. -/
  | map (size : Nat)
  /-- Take the advisory lock. -/
  | lock
  /-- Give the advisory lock back. -/
  | unlock
  deriving DecidableEq

namespace Call

/-- The kind of a call. -/
def kind : Call → CallKind
  | openRw => .openRw
  | length => .length
  | allocate _ => .allocate
  | map _ => .map
  | lock => .lock
  | unlock => .unlock

/-- The size that a call names. -/
def size? : Call → Option Nat
  | allocate n => some n
  | map n => some n
  | _ => none

end Call

/-! ### Refusals -/

/-- Why a path cannot be opened. -/
inductive PathFault where
  /-- A directory on the way is missing. -/
  | notFound
  /-- Something on the way is no directory. -/
  | notADirectory
  /-- The path leads to a directory. -/
  | isADirectory
  /-- A name, or the path, is too long. -/
  | nameTooLong
  /-- The path has a character that no path can have. -/
  | nulCharacter
  deriving DecidableEq

/-- The fault in the system's words. -/
def PathFault.message : PathFault → String
  | notFound => "No such file or directory (os error 2)"
  | notADirectory => "Not a directory (os error 20)"
  | isADirectory => "Is a directory (os error 21)"
  | nameTooLong => "File name too long (os error 36)"
  | nulCharacter => "file name contained an unexpected NUL byte"

/-- Why a call was refused. -/
inductive Refusal where
  /-- The path cannot be opened. -/
  | path (fault : PathFault)
  /-- The device has no room for the size asked for. -/
  | noSpace
  /-- A fault that was asked for. -/
  | injected (kind : CallKind)
  /-- The system's own reason, in its words. -/
  | system (words : String)
  deriving DecidableEq

/-- The refusal in words. -/
def Refusal.message : Refusal → String
  | path fault => fault.message
  | noSpace => "No space left on device"
  | injected kind => let name := kind.name; s!"injected {name} failure"
  | system words => words

/-! ### Hosts -/

/-- A call that was made, and why it was refused if it was. -/
structure CallRecord where
  /-- The call. -/
  call : Call
  /-- The reason for refusing it. -/
  refusal? : Option Refusal
  deriving DecidableEq

/-- The call as one word: its name, its size, and a mark if it was refused. -/
def CallRecord.text (r : CallRecord) : String :=
  let size := match r.call.size? with
    | some n => ":" ++ toString n
    | none => ""
  r.call.kind.name ++ size ++ (if r.refusal?.isSome then "!" else "")

/-- What fails, and what does not. -/
structure Faults where
  /-- Whether a call is refused, given how many calls of its kind came before. -/
  refuses : Nat → Call → Option Refusal
  /-- Why no second descriptor of the file is made, given the calls so far. -/
  noDuplicate? : List CallRecord → Option Refusal := fun _ => none
  /-- Why mapped bytes are not brought to the device, given the calls so far. -/
  noFlush? : List CallRecord → Option Refusal := fun _ => none
  /-- Whether the file's own descriptor keeps the advisory lock if `unlock` is refused, given the calls before. -/
  keepsLock : List CallRecord → Bool := fun _ => false

/-- A file service and what it has been asked so far. -/
structure Host extends Faults where
  /-- The calls so far, first one first. -/
  log : List CallRecord := []
  /-- A silent host reports no calls. -/
  silent : Bool := false

namespace Host

/-- The host that refuses nothing. -/
def willing : Host := { refuses := fun _ _ => none }

instance : Inhabited Host := ⟨willing⟩

/-- How many calls of a kind came so far. -/
def count (h : Host) (kind : CallKind) : Nat := h.log.countP (·.call.kind = kind)

/-- Ask for a call; `fault?` is what the file system itself has against it. -/
def answer (h : Host) (call : Call) (fault? : Option PathFault := none) : Option Refusal × Host :=
  let refusal? := (h.refuses (h.count call.kind) call).or (fault?.map .path)
  (refusal?, { h with log := h.log ++ [⟨call, refusal?⟩] })

end Host

/-! ### Settings -/

/-- Of one kind of call, the first `skip` pass and the next `count` fail. -/
structure Outage where
  /-- The kind of call. -/
  kind : CallKind
  /-- How many calls pass first. -/
  skip : Nat
  /-- How many calls fail then. -/
  count : Nat

/-- What a host is set to refuse. -/
structure HostSettings where
  /-- The largest size that can be allocated. -/
  limit? : Option Nat := none
  /-- The calls that fail, at most one entry a kind. -/
  outages : List Outage := []

namespace HostSettings

/-- Whether a call meets an outage, after `earlier` calls of its kind. -/
def inOutage (s : HostSettings) (earlier : Nat) (call : Call) : Bool :=
  s.outages.any fun o => o.kind = call.kind ∧ o.skip ≤ earlier ∧ earlier < o.skip + o.count

/-- Whether a call asks for more than the limit. -/
def overLimit (s : HostSettings) : Call → Bool
  | .allocate n => s.limit?.any (· < n)
  | _ => false

/-- A host with these settings; an outage comes before the limit. -/
def host (s : HostSettings) : Host where
  refuses earlier call :=
    if s.inOutage earlier call then some (.injected call.kind)
    else if s.overLimit call then some .noSpace
    else none

end HostSettings

end VersionBoard
