import VersionBoard.Config
import VersionBoard.Json.Value
import VersionBoard.Version

/-!
# Settings and names as JSON text

What partitions, transactions, policies and settings look like as JSON, written
and read. Settings are written as an object with all four members in order. They
may be read from an object, in which unknown members do not count, known ones
may be missing and none may come twice; or from an array of the first few
values in order.
-/

namespace VersionBoard

open Json (Value)

/-- The integer that a value is. -/
def intOf? : Value → Option Int
  | .number n => n.int?
  | _ => none

/-! ### Partitions and transactions -/

/-- The partition that a text names. -/
def Partition.ofText? (s : String) : Option Partition := do
  let n ← intOf? (← Value.ofText? s)
  if Int64.minValue.toInt ≤ n ∧ n ≤ Int64.maxValue.toInt then some ⟨Int64.ofInt n⟩ else none

/-- The transaction that a text names. -/
def Txn.ofText? (s : String) : Option Txn := do
  let n ← intOf? (← Value.ofText? s)
  if 0 ≤ n ∧ n < UInt64.size then some ⟨UInt64.ofNat n.toNat⟩ else none

/-! ### Policies -/

namespace Policy

/-- The policy as text. -/
def toText (p : Policy) : String := String.ofList (Json.quote p.name.toList)

/-- The policy that a value is: its name, or an object that has nothing under that name. -/
def ofValue? : Value → Option Policy
  | .string (some s) => ofName? s
  | .object [(some s, .null)] => ofName? s
  | _ => none

/-- The policy that a text names. -/
def ofText? (s : String) : Option Policy := do ofValue? (← Value.ofText? s)

end Policy

/-! ### Settings -/

namespace Config

/-- The four settings. -/
inductive Field where
  /-- The file name. -/
  | fileName
  /-- The policy. -/
  | policy
  /-- Busy turns on a lock word. -/
  | spins
  /-- Whether closing flushes. -/
  | flushOnClose
  deriving DecidableEq

/-- The settings in order. -/
def Field.all : List Field := [fileName, policy, spins, flushOnClose]

/-- The name of a setting. -/
def Field.name : Field → String
  | fileName => "file_name"
  | policy => "partition_by"
  | spins => "header_lock_spins"
  | flushOnClose => "sync_on_close"

/-- The setting of that name. -/
def Field.ofName? (s : String) : Option Field := Field.all.find? (·.name = s)

/-- The text of one setting. -/
def fieldText (c : Config) : Field → List Char
  | .fileName => Json.quote c.fileName.toList
  | .policy => Json.quote c.policy.name.toList
  | .spins => (toString c.spins.toNat).toList
  | .flushOnClose => (toString c.flushOnClose).toList

/-- The settings as text. -/
def toText (c : Config) : String :=
  let members := Field.all.map fun f => Json.quote f.name.toList ++ ':' :: c.fieldText f
  String.ofList ('\x7b' :: [','].intercalate members ++ ['\x7d'])

/-- The settings with the value of one of them. -/
def set? (c : Config) (f : Field) (v : Value) : Option Config :=
  match f, v with
  | .fileName, .string (some s) => some { c with fileName := s }
  | .policy, v => (Policy.ofValue? v).map fun p => { c with policy := p }
  | .spins, v => do
    let n ← intOf? v
    if 0 ≤ n ∧ n < UInt32.size then some { c with spins := UInt32.ofNat n.toNat } else none
  | .flushOnClose, .bool b => some { c with flushOnClose := b }
  | _, _ => none

/-- The settings with the values of some of them, none of which may come twice. -/
def ofFields? (fs : List (Field × Value)) : Option Config :=
  if (fs.map (·.1)).Nodup then fs.foldlM (fun c (f, v) => c.set? f v) default else none

/-- The settings among the members of an object, all of whose names must be texts. -/
def knownFields? (ms : List (Option String × Value)) : Option (List (Field × Value)) := do
  let named ← ms.mapM fun (k, v) => k.map (·, v)
  return named.filterMap fun (k, v) => (Field.ofName? k).map (·, v)

/-- The settings that a value is. -/
def ofValue? : Value → Option Config
  | .object ms => do ofFields? (← knownFields? ms)
  | .array vs => if vs.length ≤ Field.all.length then ofFields? (Field.all.zip vs) else none
  | _ => none

/-- The settings that a text is. -/
def ofText? (s : String) : Option Config := do ofValue? (← Value.ofText? s)

end Config

end VersionBoard
