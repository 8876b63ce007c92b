import VersionBoard.Policy

/-!
# Configuration

How a board is opened: under which file name, for a table split by which policy,
and two settings that no answer depends on, the number of busy turns before a
waiting call yields and whether closing flushes the mapping.
-/

namespace VersionBoard

/-- The settings of a board. -/
structure Config where
  /-- The name of the board's file in its directory. -/
  fileName : String := "scoreboard.d"
  /-- How the table is split. It counts only when the file is set up. -/
  policy : Policy := .unsplit
  /-- Busy turns on a lock word before yielding. -/
  spins : UInt32 := 64
  /-- Whether closing flushes the mapping. -/
  flushOnClose : Bool := false
  deriving DecidableEq, Inhabited

namespace Config

/-- The settings of a board for which nothing is set. -/
def default : Config := {}

/-- The settings with another policy. -/
def withPolicy (c : Config) (p : Policy) : Config := { c with policy := p }

/-- The settings with another file name. -/
def withFileName (c : Config) (name : String) : Config := { c with fileName := name }

/-- The settings with another number of busy turns. -/
def withSpins (c : Config) (spins : UInt32) : Config := { c with spins := spins }

/-- The settings with or without a flush at the end. -/
def withFlushOnClose (c : Config) (flush : Bool) : Config := { c with flushOnClose := flush }

end Config

end VersionBoard
