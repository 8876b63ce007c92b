import VersionBoard.Host
import VersionBoard.Signature
import VersionBoard.Version

/-!
# How a call can end other than with an answer

There are three ways. An *error* is reported to the caller, who has done nothing
wrong. A *violation* is misuse: a lock released more often than acquired, a
transaction without a key, an access outside the mapping. And a call may *wait*
for a word that only someone else can change.
-/

namespace VersionBoard

/-- Which of the two locks of a version. -/
inductive LockMode where
  /-- The lock that many readers share. -/
  | read
  /-- The lock of one writer. -/
  | write
  deriving DecidableEq

/-- The mode's name. -/
def LockMode.name : LockMode → String
  | read => "read"
  | write => "write"

/-! ### Errors -/

/-- What is behind an error. -/
inductive Cause where
  /-- The host refused a call. -/
  | refused (why : Refusal)
  /-- The host refused the advisory lock. -/
  | lockRefused (why : Refusal)
  /-- The signature is at fault. -/
  | signature (fault : Signature.Fault)
  /-- Anything else, in the words of whoever found it. -/
  | described (text : String)
  deriving DecidableEq

/-- The cause in words. -/
def Cause.message : Cause → String
  | refused why => why.message
  | lockRefused why => "Failed to lock file: " ++ why.message
  | signature fault => fault.message
  | described text => text

/-- An error that a call returns. -/
inductive Error where
  /-- The file could not be opened, measured or locked. -/
  | cannotOpen (path : String) (cause : Cause)
  /-- The file could not be mapped. -/
  | cannotMap (path : String) (cause : Cause)
  /-- The file could not be made long enough. -/
  | cannotGrow (path : String) (requested : Nat) (cause : Cause)
  /-- The file is not a board that this library understands. -/
  | corrupt (path : String) (cause : Cause)
  /-- Every entry of the partition's slot is in use. -/
  | versionsExhausted (partition : Partition) (capacity : Nat)
  /-- The handle is closed. -/
  | closed
  deriving DecidableEq

namespace Error

/-- The error's code. -/
def code : Error → String
  | cannotOpen .. => "S001"
  | cannotMap .. => "S002"
  | cannotGrow .. => "S003"
  | corrupt .. => "S004"
  | versionsExhausted .. => "S101"
  | closed => "S102"

/-- The error in words, after its code. -/
def detail : Error → String
  | cannotOpen path cause =>
    let why := cause.message
    s!"Failed to open scoreboard at {path}: {why}"
  | cannotMap path cause =>
    let why := cause.message
    s!"Failed to mmap scoreboard at {path}: {why}"
  | cannotGrow path requested cause =>
    let why := cause.message
    s!"Could not grow scoreboard at {path} to {requested} bytes: {why}"
  | corrupt path cause =>
    let why := cause.message
    s!"Scoreboard corruption detected at {path}: {why}"
  | versionsExhausted partition capacity =>
    let ts := partition.text
    s!"All {capacity} version entries of partition {ts} are in use"
  | closed => "Scoreboard handle is closed"

/-- The whole message. -/
def message (e : Error) : String := e.code ++ ": " ++ e.detail

/-- Whether the same call may succeed later: room may be made, and versions come out of use. -/
def retriable : Error → Bool
  | cannotGrow .. => true
  | versionsExhausted .. => true
  | _ => false

end Error

/-! ### Violations -/

/-- Misuse of a board. -/
inductive Violation where
  /-- The mapping is closed. -/
  | accessAfterClose
  /-- A word that is not on an 8-byte boundary. -/
  | misaligned (offset : Nat)
  /-- A word that is not inside the mapping. -/
  | beyondMapping (offset size : Nat)
  /-- Bytes that are not inside the mapping. -/
  | byteRange
  /-- A slot that is not inside the mapping. -/
  | slotBeyondCapacity (index capacity : Nat)
  /-- One reader more than can be counted. -/
  | readerOverflow
  /-- A lock released of a version that is not registered. -/
  | untrackedRelease (mode : LockMode) (partition : Partition) (txn : Txn)
  /-- A read lock released of a version without readers. -/
  | unmatchedRelease (partition : Partition) (txn : Txn)
  /-- A write lock released that no writer holds. -/
  | noWriter (partition : Partition) (txn : Txn)
  /-- A transaction that has no key. -/
  | untrackable (txn : Txn)
  deriving DecidableEq

/-- A version as messages name it. -/
def versionText (p : Partition) (txn : Txn) : String :=
  "[ts=" ++ p.text ++ ", txn=" ++ txn.text ++ "]"

/-- The violation in words. -/
def Violation.message : Violation → String
  | accessAfterClose => "scoreboard region accessed after close"
  | misaligned offset => s!"misaligned scoreboard offset {offset}"
  | beyondMapping offset size => s!"scoreboard offset {offset} beyond mapped size {size}"
  | byteRange => "range"
  | slotBeyondCapacity index capacity => s!"slot {index} beyond mapped capacity {capacity}"
  | readerOverflow => "reader counter overflow"
  | untrackedRelease mode p txn => mode.name ++ " lock released for untracked version " ++ versionText p txn
  | unmatchedRelease p txn => "read lock released without a matching acquire " ++ versionText p txn
  | noWriter p txn => "write lock released but not held " ++ versionText p txn
  | untrackable txn => let t := txn.text; s!"txn {t} cannot be tracked"

/-! ### Waiting -/

/-- What a call waits for. Nothing that the call itself does can bring it about. -/
inductive Wait where
  /-- The lock word at `offset` becomes free. -/
  | lockWord (offset : Nat)
  /-- The file's advisory lock becomes free. -/
  | advisoryLock
  /-- An entry of the slot comes out of use. -/
  | freeEntry (slot : Nat)
  /-- The entry's new version is registered. -/
  | reassignment (slot : Nat) (entry : EntryIndex)
  /-- The partition or the version has gone from where it was found, and is looked for again. -/
  | anotherLook
  deriving DecidableEq

/-- How a call ends without an answer. -/
inductive Halt where
  /-- With an error. -/
  | failed (error : Error)
  /-- With a violation. -/
  | violated (violation : Violation)
  /-- Not at all: it waits. -/
  | waits (wait : Wait)
  deriving DecidableEq

end VersionBoard
