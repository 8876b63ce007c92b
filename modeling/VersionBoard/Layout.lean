/-!
# Where things are in a file

A file starts with a header of 64 bytes and goes on with slots of 256 bytes, one
slot a partition. The first 16 bytes are the signature; all else are words on
8-byte boundaries, and `Cell` names each of them. A slot has three words of its
own and, from byte 32 on, fourteen entries of two words.
-/

namespace VersionBoard

/-- Bytes before the first slot. -/
def headerSize : Nat := 64

/-- Bytes of the signature, at the start of the header. -/
def signatureSize : Nat := 16

/-- Bytes of a slot. -/
def slotSize : Nat := 256

/-- Bytes of a slot before its first entry. -/
def entriesStart : Nat := 32

/-- Bytes of an entry. -/
def entrySize : Nat := 16

/-- How many versions of one partition can be registered at a time. -/
def entriesPerSlot : Nat := 14

/-- The place of an entry in its slot. -/
abbrev EntryIndex := Fin entriesPerSlot

/-- All entries of a slot, lowest first. -/
def entryIndices : List EntryIndex := List.finRange entriesPerSlot

/-- The first byte of slot `i`. -/
def slotStart (i : Nat) : Nat := headerSize + i * slotSize

/-- The first byte of entry `e` of slot `i`. -/
def entryStart (i e : Nat) : Nat := slotStart i + entriesStart + e * entrySize

/-- The first byte of the lock word of entry `e` of slot `i`. -/
def lockStart (i e : Nat) : Nat := entryStart i e + 8

/-- Bytes that a file with `n` slots needs. -/
def sizeFor (n : Nat) : Nat := slotStart n

/-- How many whole slots `b` bytes hold. -/
def slotsIn (b : Nat) : Nat := (b - headerSize) / slotSize

/-- The words of a file after its signature. -/
inductive Cell where
  /-- How many slots are live. -/
  | liveSlots
  /-- How many slots have ever been in use, live or retired. -/
  | usedSlots
  /-- Whether a structural change is going on. -/
  | headerLock
  /-- The stamp of the assignment of slots and entries; a change of it moves the stamp. -/
  | stamp
  /-- How many read locks are held. -/
  | readLocks
  /-- Whether slot `i` is free, live or retired. -/
  | state (i : Nat)
  /-- The partition that slot `i` was last given to. -/
  | partition (i : Nat)
  /-- Whether an entry of slot `i` is being given to a version. -/
  | slotLock (i : Nat)
  /-- The key of the version that has entry `e` of slot `i`. -/
  | key (i : Nat) (e : EntryIndex)
  /-- Who holds that version. -/
  | lock (i : Nat) (e : EntryIndex)
  deriving DecidableEq

/-- The first byte of a word. -/
def Cell.offset : Cell → Nat
  | liveSlots => 16
  | usedSlots => 24
  | headerLock => 32
  | stamp => 40
  | readLocks => 48
  | state i => slotStart i
  | partition i => slotStart i + 8
  | slotLock i => slotStart i + 16
  | key i e => entryStart i e
  | lock i e => lockStart i e

/-- Every word is on an 8-byte boundary. -/
theorem Cell.offset_mod (c : Cell) : c.offset % 8 = 0 := by
  cases c <;> simp only [offset, lockStart, entryStart, slotStart, headerSize, slotSize, entriesStart, entrySize] <;> omega

/-- Two words never share a byte. -/
theorem Cell.offset_disjoint {c d : Cell} (h : c ≠ d) : c.offset + 8 ≤ d.offset ∨ d.offset + 8 ≤ c.offset := by
  cases c <;> cases d <;>
    simp only [offset, lockStart, entryStart, slotStart, headerSize, slotSize, entriesStart, entrySize,
      ne_eq, not_true_eq_false, reduceCtorEq, not_false_eq_true, state.injEq, partition.injEq,
      slotLock.injEq, key.injEq, lock.injEq, not_and, Fin.ext_iff] at h ⊢ <;>
    grind [entriesPerSlot]

end VersionBoard
