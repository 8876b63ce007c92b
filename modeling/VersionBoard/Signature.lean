import VersionBoard.Image
import VersionBoard.Layout

/-!
# The signature of a file

The first sixteen bytes say that a file is a board and in which layout: a magic
number, a layout version and the number of entries in a slot. All zeros mean
that no one has finished setting the file up.
-/

namespace VersionBoard

/-- What the first sixteen bytes of a file say. -/
structure Signature where
  /-- The number that marks a board. -/
  magic : UInt64
  /-- The version of the layout. -/
  version : UInt32
  /-- Entries in a slot. -/
  entriesPerSlot : UInt32
  deriving DecidableEq, Inhabited

namespace Signature

/-- The magic number of a board: its bytes spell `SCOREBRD`. -/
def boardMagic : UInt64 := 0x44524245524F4353

/-- The version of the layout described in this library. -/
def layoutVersion : UInt32 := 1

/-- The signature of a board in this layout. -/
def current : Signature := ⟨boardMagic, layoutVersion, UInt32.ofNat VersionBoard.entriesPerSlot⟩

/-- What can be wrong with a signature. -/
inductive Fault where
  /-- There are fewer bytes than a signature has. -/
  | tooShort
  /-- The file is not a board. -/
  | badMagic
  /-- The board has another layout. -/
  | unsupportedVersion
  /-- The board's slots have another number of entries. -/
  | mismatchedEntries
  deriving DecidableEq

/-- The fault in words. -/
def Fault.message : Fault → String
  | tooShort => "Buffer too small for header"
  | badMagic => "Invalid magic number"
  | unsupportedVersion => "Unsupported scoreboard layout version"
  | mismatchedEntries => "Mismatched version entries per slot"

/-- The sixteen bytes of a signature. -/
def toBytes (s : Signature) : List UInt8 :=
  LittleEndian.ofNat 8 s.magic.toNat ++ LittleEndian.ofNat 4 s.version.toNat ++
    LittleEndian.ofNat 4 s.entriesPerSlot.toNat

/-- The signature that `bs` starts with. -/
def ofBytes (bs : List UInt8) : Except Fault Signature :=
  if bs.length < signatureSize then .error .tooShort
  else .ok {
    magic := .ofNat (LittleEndian.toNat (bs.take 8))
    version := .ofNat (LittleEndian.toNat ((bs.drop 8).take 4))
    entriesPerSlot := .ofNat (LittleEndian.toNat ((bs.drop 12).take 4)) }

/-- Whether nothing has been signed yet. -/
def isBlank (s : Signature) : Bool := s.magic = 0 ∧ s.version = 0 ∧ s.entriesPerSlot = 0

/-- What keeps the file from being a board in this layout, if anything does. -/
def fault? (s : Signature) : Option Fault :=
  if s.magic ≠ current.magic then some .badMagic
  else if s.version ≠ current.version then some .unsupportedVersion
  else if s.entriesPerSlot ≠ current.entriesPerSlot then some .mismatchedEntries
  else none

end Signature

end VersionBoard
