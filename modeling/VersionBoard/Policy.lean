/-!
# How a table is split

The policy by which a table is split into partitions. A board asks only whether
it is split at all: a table that is not has one partition, which a new board
starts with.
-/

namespace VersionBoard

/-- How a table is split into partitions. -/
inductive Policy where
  /-- Not at all. -/
  | unsplit
  /-- One partition an hour. -/
  | hour
  /-- One partition a day. -/
  | day
  /-- One partition a week. -/
  | week
  /-- One partition a month. -/
  | month
  /-- One partition a year. -/
  | year
  deriving DecidableEq, Inhabited

namespace Policy

/-- All policies. -/
def all : List Policy := [unsplit, hour, day, week, month, year]

/-- The policy's name in a configuration. -/
def name : Policy → String
  | unsplit => "none"
  | hour => "hour"
  | day => "day"
  | week => "week"
  | month => "month"
  | year => "year"

/-- The policy's name for people. -/
def title : Policy → String
  | unsplit => "NONE"
  | hour => "HOUR"
  | day => "DAY"
  | week => "WEEK"
  | month => "MONTH"
  | year => "YEAR"

/-- The policy of that name. -/
def ofName? (s : String) : Option Policy := all.find? (·.name = s)

/-- How many partitions a new board starts with. -/
def initialPartitions : Policy → Nat
  | unsplit => 1
  | _ => 0

/-- Whether the table is split. -/
def splits (p : Policy) : Bool := p ≠ unsplit

theorem ofName?_name (p : Policy) : ofName? p.name = some p := by
  cases p <;> rfl

end Policy

end VersionBoard
