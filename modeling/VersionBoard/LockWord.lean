/-!
# Lock words

The lock word of a version entry says who holds the version: the lowest 48 bits
count its readers, bit 62 is set while a writer holds it, and bit 63 while the
entry is being given to another version. Zero means that nobody holds it.
-/

namespace VersionBoard

/-- The lock word of an entry. -/
abbrev LockWord := UInt64

namespace LockWord

/-- The bits that count readers. -/
def readerMask : LockWord := 0x0000FFFFFFFFFFFF

/-- The bit that marks a writer. -/
def writeBit : LockWord := 0x4000000000000000

/-- The bit that marks an entry between two versions. -/
def reservedBit : LockWord := 0x8000000000000000

/-- How many readers hold the version. -/
def readers (w : LockWord) : UInt64 := w &&& readerMask

/-- Whether a writer holds the version. -/
def hasWriter (w : LockWord) : Bool := w &&& writeBit ≠ 0

/-- Whether the entry is between two versions. -/
def isReserved (w : LockWord) : Bool := w &&& reservedBit ≠ 0

/-- What comes of one attempt to add a reader. -/
inductive ReaderAttempt where
  /-- There is one reader more. -/
  | added (after : LockWord)
  /-- A writer holds the version. -/
  | writer
  /-- The entry is between two versions. -/
  | reserved
  /-- No more readers can be counted. -/
  | overflow

/-- The word that an attempt is to leave, if it changes it. -/
def ReaderAttempt.after? : ReaderAttempt → Option LockWord
  | added after => some after
  | _ => none

/-- One reader more. -/
def addReader (w : LockWord) : ReaderAttempt :=
  if isReserved w then .reserved
  else if hasWriter w then .writer
  else if readers w < readerMask then .added (w + 1)
  else .overflow

/-- One reader less, if there is one. -/
def removeReader? (w : LockWord) : Option LockWord := if readers w = 0 then none else some (w - 1)

/-- What comes of one attempt to set the writer's mark. -/
inductive WriterAttempt where
  /-- The mark is set. -/
  | acquired (after : LockWord)
  /-- Someone else holds the version. -/
  | busy
  /-- The entry is between two versions. -/
  | reserved

/-- A writer, where nobody is. -/
def addWriter (w : LockWord) : WriterAttempt :=
  if w = 0 then .acquired writeBit
  else if isReserved w then .reserved
  else .busy

/-- No writer. -/
def removeWriter (w : LockWord) : LockWord := w &&& ~~~writeBit

end LockWord

end VersionBoard
