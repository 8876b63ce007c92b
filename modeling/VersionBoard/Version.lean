/-!
# Versions of partitions

A table is split into partitions, each named by the start of its time interval.
Whenever a partition is written anew there is a new version of it, tagged with
the transaction that committed it. In a file a transaction is kept as its *key*,
one more than its number, so that zero can say "no version".
-/

namespace VersionBoard

/-- A partition, named by the start of its time interval. -/
structure Partition where
  /-- Where the interval starts. -/
  start : Int64
  deriving DecidableEq, Inhabited

namespace Partition

/-- The only partition of a table that is not split. -/
def whole : Partition := ⟨0⟩

/-- The word that a file keeps for the partition: its start in two's complement. -/
def word (p : Partition) : UInt64 := p.start.toUInt64

/-- The partition that a word stands for. -/
def ofWord (w : UInt64) : Partition := ⟨w.toInt64⟩

/-- The start, in decimal. -/
def text (p : Partition) : String := toString p.start.toInt

/-- The partition that starts `k` later. -/
def later (p : Partition) (k : Nat) : Partition := ⟨p.start + Int64.ofNat k⟩

@[simp] theorem ofWord_word (p : Partition) : ofWord p.word = p := by
  simp [ofWord, word]

theorem word_inj {p q : Partition} (h : p.word = q.word) : p = q := by
  rw [← ofWord_word p, h, ofWord_word]

end Partition

/-- The number of the transaction that committed a version. -/
structure Txn where
  /-- The sequence number. -/
  number : UInt64
  deriving DecidableEq, Inhabited

namespace Txn

/-- The largest transaction that has a key. -/
def max : Txn := ⟨0xFFFFFFFFFFFFFFFE⟩

/-- The key of a transaction; the largest number of all has none. -/
def key? (t : Txn) : Option UInt64 := if t.number ≤ max.number then some (t.number + 1) else none

/-- The transaction that has key `k`; no one has key zero. -/
def ofKey? (k : UInt64) : Option Txn := if k = 0 then none else some ⟨k - 1⟩

/-- The number, in decimal. -/
def text (t : Txn) : String := toString t.number.toNat

end Txn

end VersionBoard
