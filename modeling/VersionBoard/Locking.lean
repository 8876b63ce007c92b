import VersionBoard.Table

/-!
# Read and write locks

Locks on versions, and questions about them. A lock operation never takes the
header lock: it looks the version's entry up, registering the version if its
partition is tracked, changes the lock word, and then makes sure that the entry
still belongs to the version. If the entry changed hands in between, the change
is undone and the operation looks again.
-/

namespace VersionBoard

variable [Processor]

namespace Table

/-! ### Finding the entry -/

/-- The entry of a version, which is registered if its partition is tracked. -/
def findOrRegister (m : Mapping) (p : Partition) (txn : Txn) : Act Image (Option (Nat × EntryIndex)) := do
  let some i ← slotOf m p | return none
  if let some e ← entryOf m i txn then return some (i, e)
  match ← register m i p txn with
  | .known e => return some (i, e)
  | .fresh e => return some (i, e)
  | .gone => .wait .anotherLook

/-- The entry of a version that is registered. -/
def find (m : Mapping) (p : Partition) (txn : Txn) : Act Image (Option (Nat × EntryIndex)) := do
  let some i ← slotOf m p | return none
  return (← entryOf m i txn).map (i, ·)

/-- Whether an entry that was found under the stamp `seen` still belongs to the version. If the
stamp has not moved, nothing has changed hands. -/
def stillBelongs (m : Mapping) (seen : UInt64) (i : Nat) (e : EntryIndex) (p : Partition) (txn : Txn) :
    Act Image Bool := do
  if (← stamp m) = seen then return true
  if ← isSlotOf m i p then isEntryOf m i e txn else return false

/-! ### Read locks -/

/-- Become a reader of a version. Refused if its partition is not tracked or a writer holds it. -/
def acquireRead (m : Mapping) (p : Partition) (txn : Txn) : Act Image Bool := do
  let seen ← stamp m
  let some (i, e) ← findOrRegister m p txn | return false
  match LockWord.addReader (← m.exchange (Cell.lock i e).offset fun w => (LockWord.addReader w).after?) with
  | .reserved => .wait (.reassignment i e)
  | .writer => return false
  | .overflow => .violate .readerOverflow
  | .added _ =>
    if ← stillBelongs m seen i e p txn then
      m.alter .readLocks (· + 1)
      return true
    else
      m.alter (.lock i e) (· - 1)
      .wait .anotherLook

/-- Stop being a reader of a version. -/
def releaseRead (m : Mapping) (p : Partition) (txn : Txn) : Act Image Unit := do
  let some (i, e) ← find m p txn | .violate (.untrackedRelease .read p txn)
  match LockWord.removeReader? (← m.exchange (Cell.lock i e).offset LockWord.removeReader?) with
  | none => .violate (.unmatchedRelease p txn)
  | some _ => m.alter .readLocks (· - 1)

/-! ### Write locks -/

/-- Become the writer of a version. Refused if its partition is not tracked or anyone holds it. -/
def acquireWrite (m : Mapping) (p : Partition) (txn : Txn) : Act Image Bool := do
  let seen ← stamp m
  let some (i, e) ← findOrRegister m p txn | return false
  match LockWord.addWriter (← m.get (.lock i e)) with
  | .reserved => .wait (.reassignment i e)
  | .busy => return false
  | .acquired w =>
    m.put (.lock i e) w
    if ← stillBelongs m seen i e p txn then
      return true
    else
      m.alter (.lock i e) LockWord.removeWriter
      .wait .anotherLook

/-- Stop being the writer of a version. -/
def releaseWrite (m : Mapping) (p : Partition) (txn : Txn) : Act Image Unit := do
  let some (i, e) ← find m p txn | .violate (.untrackedRelease .write p txn)
  let w ← m.get (.lock i e)
  m.put (.lock i e) (LockWord.removeWriter w)
  if !LockWord.hasWriter w then .violate (.noWriter p txn)

/-! ### Questions -/

/-- How many readers hold a version. -/
def readerCount (m : Mapping) (p : Partition) (txn : Txn) : Act Image UInt64 := do
  let some (i, e) ← find m p txn | return 0
  return LockWord.readers (← m.get (.lock i e))

/-- How many read locks are held on the whole board. -/
def readLocks (m : Mapping) : Act Image UInt64 := m.get .readLocks

/-- The slot of a version that is registered. -/
def slotOfVersion (m : Mapping) (p : Partition) (txn : Txn) : Act Image (Option Nat) := do
  return (← find m p txn).map (·.1)

/-- Whether a writer holds a version. -/
def hasWriter (m : Mapping) (p : Partition) (txn : Txn) : Act Image Bool := do
  let some (i, e) ← find m p txn | return false
  return LockWord.hasWriter (← m.get (.lock i e))

/-- The registered versions of a partition, in the order of their entries. -/
def versions (m : Mapping) (p : Partition) : Act Image (List EntryState) := do
  let some i ← slotOf m p | return []
  return (← entryIndices.mapM (entryState m i)).filter (·.txn?.isSome)

end Table

end VersionBoard
