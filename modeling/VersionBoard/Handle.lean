import VersionBoard.Board

/-!
# Handles

A handle is one side of a file, kept between calls: of a board, or of the bytes
of a file only. What a call gives is a reply: its outcome, and what it asked its
host for. Opening makes a handle; whatever becomes of it, the file is there from
then on if the host let it be opened.
-/

namespace VersionBoard

variable [Processor]

/-- A handle. -/
inductive Handle where
  /-- On a board. -/
  | board (region : Region) (config : Config)
  /-- On the bytes of a file only. -/
  | bare (region : Region)

namespace Handle

/-- The handle's side of its file. -/
def region : Handle → Region
  | board region _ => region
  | bare region => region

/-- The handle with another side of its file. -/
def withRegion (region : Region) : Handle → Handle
  | board _ config => .board region config
  | bare _ => .bare region

omit [Processor] in
theorem region_withRegion (h : Handle) (region : Region) : (h.withRegion region).region = region := by
  cases h <;> rfl

/-- The settings that a board was opened with. -/
def config? : Handle → Option Config
  | board _ config => some config
  | bare _ => none

/-- A call through the handle. A bare handle does not catch up with its file first, and makes no
structural changes. -/
def call? : Handle → BoardCall → Option (Act Scene Answer)
  | board .., c => some c.run
  | bare _, .table c => some (Region.onTable fun m => c.run m)
  | bare _, _ => none

end Handle

/-! ### Replies -/

/-- How a call ended, and what it asked its host for. -/
structure Reply (α : Type) where
  /-- The answer, or the end without one. -/
  outcome : Except Halt α
  /-- The calls on the host, first one first. -/
  calls : List CallRecord

/-- What a host was asked for since it was as `before`, as far as it tells. -/
def Host.reportSince (after before : Host) : List CallRecord :=
  if after.silent then [] else after.log.drop before.log.length

/-! ### Opening -/

namespace Board

/-- Open the board at a path and do `body` with it. -/
def opening (path : String) (host : Host) (config : Config) (place : Except PathFault (Option File))
    (body : Nat → Act Scene Answer) : Reply Answer × Option Image × Region :=
  let (outcome, file?, region) := Region.enter path host place do body (← start config)
  (⟨outcome, region.host.reportSince host⟩, file?, region)

/-- Open the board at a path to keep it. The answer is how much is mapped. -/
def openAt (path : String) (host : Host) (config : Config) (place : Except PathFault (Option File)) :
    Reply Answer × Option Image × Region :=
  opening path host config place fun size => pure (.size size)

/-- Open the board at a path and close it at once. -/
def createAt (path : String) (host : Host) (config : Config) (place : Except PathFault (Option File)) :
    Reply Answer × Option Image × Region :=
  opening path host config place fun _ => do
    Region.close
    return .done

end Board

namespace Region

/-- Open the file at a path as bytes only, at least `least` of them. The answer is how much is
mapped. -/
def openAt (path : String) (host : Host) (least : Nat) (place : Except PathFault (Option File)) :
    Reply Answer × Option Image × Region :=
  let (outcome, file?, region) := enter path host place do
    mapWhole least
    return .size (← currentMapping).size
  (⟨outcome, region.host.reportSince host⟩, file?, region)

end Region

end VersionBoard
