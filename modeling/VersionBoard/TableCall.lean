import VersionBoard.Locking

/-!
# Calls on a table, as data

Lock operations and questions, so that a history of calls can be written down,
and their answers in one type, so that two histories can be compared.
-/

namespace VersionBoard

variable [Processor]

/-- What can be asked of a table without a structural change. -/
inductive TableCall where
  /-- Become a reader. -/
  | acquireRead (p : Partition) (txn : Txn)
  /-- Stop being a reader. -/
  | releaseRead (p : Partition) (txn : Txn)
  /-- Become the writer. -/
  | acquireWrite (p : Partition) (txn : Txn)
  /-- Stop being the writer. -/
  | releaseWrite (p : Partition) (txn : Txn)
  /-- How many readers a version has. -/
  | readerCount (p : Partition) (txn : Txn)
  /-- Whether a version has a writer. -/
  | hasWriter (p : Partition) (txn : Txn)
  /-- The slot of a version. -/
  | slotOfVersion (p : Partition) (txn : Txn)
  /-- The versions of a partition. -/
  | versions (p : Partition)
  /-- How many read locks are held. -/
  | readLocks
  /-- How many partitions are tracked. -/
  | partitionCount
  /-- The generation stamp. -/
  | stamp
  deriving DecidableEq

/-- An answer. -/
inductive Answer where
  /-- It is done. -/
  | done
  /-- Yes or no. -/
  | flag (b : Bool)
  /-- A word. -/
  | count (n : UInt64)
  /-- A size in bytes. -/
  | size (n : Nat)
  /-- A slot, if there is one. -/
  | slot (i : Option Nat)
  /-- Versions and who holds them. -/
  | versions (vs : List EntryState)
  deriving DecidableEq

/-- Run a call through a mapping. -/
def TableCall.run (m : Mapping) : TableCall → Act Image Answer
  | acquireRead p txn => .flag <$> Table.acquireRead m p txn
  | releaseRead p txn => (fun _ => .done) <$> Table.releaseRead m p txn
  | acquireWrite p txn => .flag <$> Table.acquireWrite m p txn
  | releaseWrite p txn => (fun _ => .done) <$> Table.releaseWrite m p txn
  | readerCount p txn => .count <$> Table.readerCount m p txn
  | hasWriter p txn => .flag <$> Table.hasWriter m p txn
  | slotOfVersion p txn => .slot <$> Table.slotOfVersion m p txn
  | versions p => .versions <$> Table.versions m p
  | readLocks => .count <$> Table.readLocks m
  | partitionCount => .count <$> Table.liveSlots m
  | stamp => .count <$> Table.stamp m

end VersionBoard
