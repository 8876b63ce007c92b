import VersionBoard.Config
import VersionBoard.Region
import VersionBoard.TableCall

/-!
# Boards

The calls that the rest of a storage engine makes. Opening sets a blank file up,
under the advisory lock, and signs it last; a file that is signed is only
checked. Structural changes run under the header lock and make the file longer
when a new slot needs it. Every other call works through the mapping as it is,
unless another handle has since put slots beyond it; then the mapping catches up
first, without a lock.
-/

namespace VersionBoard

variable [Processor]

namespace Board

open Region

/-! ### Opening -/

/-- Zero all mapped bytes. -/
def wipe : Act Scene Unit :=
  onTable fun m => m.writeBytes 0 (List.replicate m.size 0)

/-- Give a table that is not split its one partition. -/
def seed (policy : Policy) : Act Scene Unit := do
  if policy.initialPartitions = 0 then return
  reach (sizeFor policy.initialPartitions)
  holdingHeader do
    let _ ← onTable fun m => Table.track m Partition.whole ⟨0⟩

/-- Sign the file: whoever finds the signature finds a board that is set up. -/
def sign : Act Scene Unit :=
  onTable fun m => m.writeBytes 0 Signature.current.toBytes

/-- Set a blank file up, or check a signed one. What a blank file holds behind its signature was
left by someone who never finished, and is wiped. -/
def setUpLocked (policy : Policy) : Act Scene Unit := do
  let path ← pathOf
  match Signature.ofBytes (← onTable fun m => m.readBytes 0 signatureSize) with
  | .error fault => .fail (.corrupt path (.signature fault))
  | .ok signature =>
    if signature.isBlank then
      wipe
      seed policy
      sign
    else if let some fault := signature.fault? then
      .fail (.corrupt path (.signature fault))

/-- The same with the file's advisory lock held, so that only one sets the file up. -/
def setUp (policy : Policy) : Act Scene Unit := holdingFile (setUpLocked policy)

/-- Map all used slots. -/
def catchUp : Act Scene Unit := do
  let used ← onTable Table.usedSlots
  reach (sizeFor used.toNat)

/-- Get a file that was just opened ready for calls. The answer is how much is mapped. -/
def start (config : Config) : Act Scene Nat := do
  mapWhole headerSize
  setUp config.policy
  catchUp
  return (← currentMapping).size

/-! ### Calls -/

/-- Do `f` through a mapping that holds every used slot. -/
def onWholeTable {α : Type} (f : Mapping → Act Image α) : Act Scene α := do
  requireOpen
  let used ← onTable Table.usedSlots
  if (← currentMapping).capacity < used.toNat then catchUp
  onTable f

/-- Track version `txn` of `p`. The answer says whether it was not tracked before. -/
def add (p : Partition) (txn : Txn) : Act Scene Bool := do
  requireOpen
  holdingHeader do
    catchUp
    match ← onTable fun m => Table.slotOf m p with
    | some i =>
      match ← onTable fun m => Table.register m i p txn with
      | .fresh _ => return true
      | .known _ => return false
      | .gone => return false
    | none =>
      let next ← onTable Table.nextSlot
      reach (sizeFor (next + 1))
      let _ ← onTable fun m => Table.track m p txn
      return true

/-- Make room for `slots` slots and track `p` in a new one, all under the header lock. The answer
is the header lock word in between, how much is mapped, and the slot. -/
def trackWithRoom (slots : Nat) (p : Partition) (txn : Txn) : Act Scene (UInt64 × Nat × Nat) :=
  holdingHeader do
    let word ← onTable (·.get .headerLock)
    reach (sizeFor slots)
    let i ← onTable fun m => Table.track m p txn
    return (word, (← currentMapping).size, i)

/-- Stop tracking version `txn` of `p`. The answer says whether that was done; a version that is
in use stays. -/
def remove (p : Partition) (txn : Txn) : Act Scene Bool := do
  requireOpen
  holdingHeader do
    catchUp
    onTable fun m => Table.untrack m p txn

end Board

/-- The calls on an open board. -/
inductive BoardCall where
  /-- A call without a structural change. -/
  | table (call : TableCall)
  /-- Track a version. -/
  | add (p : Partition) (txn : Txn)
  /-- Stop tracking a version. -/
  | remove (p : Partition) (txn : Txn)
  deriving DecidableEq

/-- Run a call. -/
def BoardCall.run : BoardCall → Act Scene Answer
  | table call => Board.onWholeTable fun m => call.run m
  | add p txn => .flag <$> Board.add p txn
  | remove p txn => .flag <$> Board.remove p txn

end VersionBoard
