import VersionBoard.LockWord
import VersionBoard.Mapping

/-!
# The slot table

One slot a partition, seen through one mapping. Slots never move: a partition
that goes leaves its slot retired, and a partition that comes takes the first
retired slot or the next new one. Whenever a slot or an entry is given to
someone else the generation stamp moves, so that who looked up an entry can tell
whether it may have changed hands since.

A mapping may be older than the table. Every search stops at its end, and only
slots inside it can be named.
-/

namespace VersionBoard

variable [Processor]

/-! ### What the state word of a slot can say -/

namespace SlotState

/-- Never used. -/
def free : UInt64 := 0

/-- Tracking a partition. -/
def live : UInt64 := 1

/-- Left by its partition. -/
def retired : UInt64 := 2

end SlotState

/-- Who holds a version, as its entry shows it. -/
structure EntryState where
  /-- The version's transaction, if the entry is registered. -/
  txn? : Option Txn
  /-- How many readers hold it. -/
  readers : UInt64
  /-- Whether a writer holds it. -/
  hasWriter : Bool
  deriving DecidableEq

/-- A slot with all its entries. -/
structure SlotView where
  /-- The slot's place in the table. -/
  index : Nat
  /-- Its state word. -/
  state : UInt64
  /-- The partition that it was last given to. -/
  partition : Partition
  /-- Whether no entry is registered. -/
  vacant : Bool
  /-- The entries, lowest first. -/
  entries : List EntryState
  deriving DecidableEq

/-- What comes of registering a version in a slot. -/
inductive Registration where
  /-- It was registered already. -/
  | known (e : EntryIndex)
  /-- It is registered now. -/
  | fresh (e : EntryIndex)
  /-- The slot is not the partition's. -/
  | gone
  deriving DecidableEq

namespace Table

/-! ### Counters -/

/-- How many partitions are tracked. -/
def liveSlots (m : Mapping) : Act Image UInt64 := m.get .liveSlots

/-- How many slots have been in use, live or retired. -/
def usedSlots (m : Mapping) : Act Image UInt64 := m.get .usedSlots

/-- The generation stamp. -/
def stamp (m : Mapping) : Act Image UInt64 := m.get .stamp

/-- Move the generation stamp. -/
def moveStamp (m : Mapping) : Act Image Unit := m.alter .stamp (· + 1)

/-- The used slots that the mapping holds. -/
def visibleSlots (m : Mapping) : Act Image (List Nat) := do
  return List.range (min (← usedSlots m).toNat m.capacity)

/-! ### One slot -/

/-- Do `body`, which works on slot `i`, if the slot lies inside the mapping. -/
def inSlot {α : Type} (m : Mapping) (i : Nat) (body : Act Image α) : Act Image α :=
  if i < m.capacity then body else .violate (.slotBeyondCapacity i m.capacity)

/-- Whether slot `i` tracks `p`. -/
def isSlotOf (m : Mapping) (i : Nat) (p : Partition) : Act Image Bool := do
  let state ← m.get (.state i)
  let word ← m.get (.partition i)
  return state = SlotState.live ∧ Partition.ofWord word = p

/-- The key of `txn`, which must have one. -/
def keyOf (txn : Txn) : Act Image UInt64 :=
  match txn.key? with
  | some k => pure k
  | none => .violate (.untrackable txn)

/-- The lowest entry of slot `i` that is registered for `txn`. -/
def entryOf (m : Mapping) (i : Nat) (txn : Txn) : Act Image (Option EntryIndex) := do
  let k ← keyOf txn
  entryIndices.findM? fun e => do return (← m.get (.key i e)) = k

/-- Whether entry `e` of slot `i` is registered for `txn`. -/
def isEntryOf (m : Mapping) (i : Nat) (e : EntryIndex) (txn : Txn) : Act Image Bool := do
  let k ← m.get (.key i e)
  return k = (← keyOf txn)

/-- Whether no entry of slot `i` is registered. -/
def isVacant (m : Mapping) (i : Nat) : Act Image Bool :=
  entryIndices.allM fun e => do return (← m.get (.key i e)) = 0

/-- Who holds the version in entry `e` of slot `i`. -/
def entryState (m : Mapping) (i : Nat) (e : EntryIndex) : Act Image EntryState := do
  let k ← m.get (.key i e)
  let w ← m.get (.lock i e)
  return ⟨Txn.ofKey? k, LockWord.readers w, LockWord.hasWriter w⟩

/-- Slot `i` with all its entries. -/
def view (m : Mapping) (i : Nat) : Act Image SlotView := do
  let state ← m.get (.state i)
  let word ← m.get (.partition i)
  let vacant ← isVacant m i
  let entries ← entryIndices.mapM (entryState m i)
  return ⟨i, state, Partition.ofWord word, vacant, entries⟩

/-! ### Search -/

/-- The slot that tracks `p`. -/
def slotOf (m : Mapping) (p : Partition) : Act Image (Option Nat) := do
  (← visibleSlots m).findM? fun i => isSlotOf m i p

/-- The slot for the next new partition: the first retired one, or the one after all used ones. -/
def nextSlot (m : Mapping) : Act Image Nat := do
  let retired ← (← visibleSlots m).findM? fun i => do return (← m.get (.state i)) = SlotState.retired
  return retired.getD (← usedSlots m).toNat

/-! ### Giving entries to versions -/

/-- Mark an entry that nobody holds as being between two versions. -/
def reserve (m : Mapping) (i : Nat) (e : EntryIndex) : Act Image Bool := do
  if (← m.get (.lock i e)) = 0 then
    m.put (.lock i e) LockWord.reservedBit
    return true
  else
    return false

/-- Give a reserved entry to the version with key `k`; key zero frees it. -/
def give (m : Mapping) (i : Nat) (e : EntryIndex) (k : UInt64) : Act Image Unit := do
  m.put (.key i e) k
  m.put (.lock i e) 0

/-- Reserve the lowest free entry of slot `i`. A free entry with a lock word that is not zero is
passed over: an attempt on its last version has not undone itself yet. -/
def takeFree (m : Mapping) (i : Nat) : Act Image (Option EntryIndex) :=
  entryIndices.findM? fun e => do
    if (← m.get (.key i e)) = 0 then reserve m i e else return false

/-- Reserve the lowest registered entry of slot `i` that nobody holds. -/
def takeIdle (m : Mapping) (i : Nat) : Act Image (Option EntryIndex) :=
  entryIndices.findM? fun e => do
    if (← m.get (.key i e)) = 0 then return false else reserve m i e

/-- Do `body` with the lock of slot `i` taken. The slot must lie inside the mapping. -/
def holdingSlot {α : Type} (m : Mapping) (i : Nat) (body : Act Image α) : Act Image α :=
  inSlot m i (m.holding (Cell.slotLock i).offset body)

/-- Register `txn` in slot `i`, which was found for `p`: in a free entry if there is one, else in
the place of a version that nobody holds. -/
def register (m : Mapping) (i : Nat) (p : Partition) (txn : Txn) : Act Image Registration :=
  holdingSlot m i do
    if !(← isSlotOf m i p) then return .gone
    if let some e ← entryOf m i txn then return .known e
    let k ← keyOf txn
    if let some e ← takeFree m i then
      give m i e k
      return .fresh e
    if let some e ← takeIdle m i then
      moveStamp m
      give m i e k
      return .fresh e
    let full ← entryIndices.allM fun e => do return (← m.get (.key i e)) ≠ 0
    if full then .fail (.versionsExhausted p entriesPerSlot) else .wait (.freeEntry i)

/-! ### Partitions that come and go -/

/-- Track `p` in a new slot, with `txn` as its first version. The header lock must be held. -/
def track (m : Mapping) (p : Partition) (txn : Txn) : Act Image Nat := do
  let i ← nextSlot m
  holdingSlot m i do
    m.put (.partition i) p.word
    match ← takeFree m i with
    | none => .wait (.freeEntry i)
    | some e =>
      give m i e (← keyOf txn)
      m.put (.state i) SlotState.live
      if i = (← usedSlots m).toNat then m.put .usedSlots (UInt64.ofNat (i + 1))
      m.alter .liveSlots (· + 1)
      moveStamp m
      return i

/-- Remove version `txn` of `p` if nobody holds it; the slot retires with its last version.
The header lock must be held. -/
def untrack (m : Mapping) (p : Partition) (txn : Txn) : Act Image Bool := do
  let some i ← slotOf m p | return false
  holdingSlot m i do
    let some e ← entryOf m i txn | return false
    if !(← reserve m i e) then return false
    moveStamp m
    give m i e 0
    if ← isVacant m i then
      m.put (.state i) SlotState.retired
      m.alter .liveSlots (· - 1)
      moveStamp m
    return true

end Table

end VersionBoard
