import VersionBoard.Store

/-!
# Workloads

A job makes the same kind of call many times through one handle, and ends early
if a call ends without an answer; what it did before stays done. Jobs on one
board do not depend on each other's order as long as each gives back what it
takes, so they run one after another here, and all of them run, whatever became
of the earlier ones.
-/

namespace VersionBoard

variable [Processor]

/-- What a job does again and again. -/
inductive JobKind where
  /-- Acquire a read lock. -/
  | reads
  /-- Release a read lock. -/
  | unreads
  /-- Track a partition, each time a later one. -/
  | adds
  /-- Stop tracking a partition, each time a later one. -/
  | removes
  /-- Acquire a read lock and release it if it was granted. -/
  | readPairs
  /-- Acquire a write lock and release it if it was granted. -/
  | writePairs
  /-- Stop tracking a version, and track it again if that was done. -/
  | vacuum
  deriving DecidableEq

namespace JobKind

/-- All kinds of jobs. -/
def all : List JobKind := [reads, unreads, adds, removes, readPairs, writePairs, vacuum]

/-- The name of a kind. -/
def name : JobKind → String
  | reads => "reads"
  | unreads => "unreads"
  | adds => "adds"
  | removes => "removes"
  | readPairs => "read_pairs"
  | writePairs => "write_pairs"
  | vacuum => "vacuum"

/-- The kind of that name. -/
def ofName? (s : String) : Option JobKind := all.find? (·.name = s)

/-- Whether the number of granted calls is the job's result. -/
def counts : JobKind → Bool
  | reads => true
  | adds => true
  | removes => true
  | _ => false

end JobKind

/-- A job. -/
structure Job where
  /-- The handle that it goes through. -/
  handle : String
  /-- What it does. -/
  kind : JobKind
  /-- The partition, or the first of them. -/
  partition : Partition
  /-- The transaction. -/
  txn : Txn
  /-- How many times it does it. -/
  times : Nat

namespace Job

/-- The job's turn number `k`. The answer is whether it was granted. -/
def turn (j : Job) (k : Nat) : Act Scene Bool :=
  match j.kind with
  | .reads => Board.onWholeTable fun m => Table.acquireRead m j.partition j.txn
  | .unreads => do
    Board.onWholeTable fun m => Table.releaseRead m j.partition j.txn
    return true
  | .adds => Board.add (j.partition.later k) j.txn
  | .removes => Board.remove (j.partition.later k) j.txn
  | .readPairs => do
    let got ← Board.onWholeTable fun m => Table.acquireRead m j.partition j.txn
    if got then Board.onWholeTable fun m => Table.releaseRead m j.partition j.txn
    return got
  | .writePairs => do
    let got ← Board.onWholeTable fun m => Table.acquireWrite m j.partition j.txn
    if got then Board.onWholeTable fun m => Table.releaseWrite m j.partition j.txn
    return got
  | .vacuum => do
    let done ← Board.remove j.partition j.txn
    if done then
      let _ ← Board.add j.partition j.txn
    return done

/-- All turns. The answer is how many were granted, if the job counts them. -/
def run (j : Job) : Act Scene (Option Nat) := do
  let granted ← (List.range j.times).mapM j.turn
  return if j.kind.counts then some (granted.countP id) else none

end Job

namespace Store

/-- Jobs one after another, each with its outcome. There is none if a job names no handle. -/
def runJobs (st : Store) : List Job → Option (List (Except Halt (Option Nat)) × Store)
  | [] => some ([], st)
  | j :: js => do
    let (reply, st) ← st.act j.handle fun _ => some j.run
    let (outcomes, st) ← st.runJobs js
    return (reply.outcome :: outcomes, st)

/-- A workload. If some jobs end early, it ends as the first of them does. -/
def work (st : Store) (js : List Job) : Option (Except Halt (List (Option Nat)) × Store) := do
  let (outcomes, st) ← st.runJobs js
  return (outcomes.mapM id, st)

end Store

end VersionBoard
