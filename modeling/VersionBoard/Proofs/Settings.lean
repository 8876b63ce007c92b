import VersionBoard.Config.Text
import VersionBoard.Proofs.Spelling

/-!
# Settings and names come back from their texts

What a configuration, a partition, a transaction or a policy is written as is
read as that very value: for every file name, every number of its type and
every policy. The four settings are read one at a time, each from what was
written for it (`set?_fieldValue`), whatever the others are.
-/

namespace VersionBoard

open Json (Number Value)
open Json.Value (Spells spells_string spells_int spells_nat spells_bool spells_object)

/-! ### Numbers of a fixed width -/

theorem intOf?_ofInt (i : Int) : intOf? (.number (.ofInt i)) = some i := Number.int?_ofInt i

theorem Partition.ofText?_text (p : Partition) : Partition.ofText? p.text = some p := by
  have hv : Value.ofText? p.text = some (.number (.ofInt p.start.toInt)) := (spells_int p.start.toInt).ofText?
  have hrange : Int64.minValue.toInt ≤ p.start.toInt ∧ p.start.toInt ≤ Int64.maxValue.toInt :=
    ⟨Int64.minValue_le_toInt p.start, Int64.toInt_le p.start⟩
  rw [Partition.ofText?, hv, Option.bind_eq_bind, Option.bind_eq_bind, Option.bind_some, intOf?_ofInt,
    Option.bind_some, if_pos hrange, Int64.ofInt_toInt]

theorem Txn.ofText?_text (t : Txn) : Txn.ofText? t.text = some t := by
  have hv : Value.ofText? t.text = some (.number (.ofInt t.number.toNat)) := (spells_nat t.number.toNat).ofText?
  have hrange : (0 : Int) ≤ t.number.toNat ∧ (t.number.toNat : Int) < UInt64.size :=
    ⟨Int.natCast_nonneg _, Int.ofNat_lt.mpr t.number.toNat_lt_size⟩
  rw [Txn.ofText?, hv, Option.bind_eq_bind, Option.bind_eq_bind, Option.bind_some, intOf?_ofInt, Option.bind_some,
    if_pos hrange, Int.toNat_natCast, UInt64.ofNat_toNat]

/-! ### Policies -/

theorem Policy.ofText?_toText (p : Policy) : Policy.ofText? p.toText = some p := by
  have hv : Value.ofText? p.toText = some (.string (some p.name)) :=
    Spells.ofText? (by rw [Policy.toText, String.toList_ofList]; exact spells_string p.name)
  simp only [Policy.ofText?, hv, Option.bind_eq_bind, Option.bind_some, Policy.ofValue?, Policy.ofName?_name]

/-! ### Settings -/

namespace Config

/-- The value of a setting. -/
def fieldValue (c : Config) : Field → Value
  | .fileName => .string (some c.fileName)
  | .policy => .string (some c.policy.name)
  | .spins => .number (.ofInt c.spins.toNat)
  | .flushOnClose => .bool c.flushOnClose

/-- The settings with one of them as in `c`. -/
def copyField (c d : Config) : Field → Config
  | .fileName => { d with fileName := c.fileName }
  | .policy => { d with policy := c.policy }
  | .spins => { d with spins := c.spins }
  | .flushOnClose => { d with flushOnClose := c.flushOnClose }

theorem Field.ofName?_name (f : Field) : Field.ofName? f.name = some f := by
  cases f <;> rfl

theorem spells_fieldText (c : Config) (f : Field) : Spells (c.fieldText f) (c.fieldValue f) := by
  cases f with
  | fileName => exact spells_string _
  | policy => exact spells_string _
  | spins => exact spells_nat _
  | flushOnClose => exact spells_bool _

/-- A setting is read back from its value. -/
theorem set?_fieldValue (c d : Config) (f : Field) : d.set? f (c.fieldValue f) = some (c.copyField d f) := by
  cases f with
  | fileName => rfl
  | policy => rw [set?, fieldValue, Policy.ofValue?, Policy.ofName?_name]; rfl
  | spins =>
    have hrange : (0 : Int) ≤ c.spins.toNat ∧ (c.spins.toNat : Int) < UInt32.size :=
      ⟨Int.natCast_nonneg _, Int.ofNat_lt.mpr c.spins.toNat_lt_size⟩
    rw [set?, fieldValue, intOf?_ofInt, Option.bind_eq_bind, Option.bind_some, if_pos hrange, Int.toNat_natCast,
      UInt32.ofNat_toNat]
    rfl
  | flushOnClose => rfl

theorem foldlM_set?_fieldValue (c d : Config) (fs : List Field) :
    (fs.map fun f => (f, c.fieldValue f)).foldlM (fun d (f, v) => d.set? f v) d = some (fs.foldl c.copyField d) := by
  induction fs generalizing d with
  | nil => rfl
  | cons f fs ih =>
    simp only [List.map_cons, List.foldlM_cons, List.foldl_cons, set?_fieldValue, Option.bind_eq_bind,
      Option.bind_some, ih]

/-- The settings are read back from the values of all of them. -/
theorem ofFields?_fieldValue (c : Config) : ofFields? (Field.all.map fun f => (f, c.fieldValue f)) = some c := by
  have hnodup : ((Field.all.map fun f => (f, c.fieldValue f)).map (·.1)).Nodup := by
    rw [List.map_map]
    exact (by decide : Field.all.Nodup)
  rw [ofFields?, if_pos hnodup, foldlM_set?_fieldValue]
  rfl

/-- Members with names of settings are known. -/
theorem knownFields?_member (fs : List Field) (value : Field → Value) :
    knownFields? (fs.map (Value.member Field.name value)) = some (fs.map fun f => (f, value f)) := by
  have hknown : (fun f => (Field.ofName? f.name).map (·, value f)) = fun f => some (f, value f) := by
    simp only [Field.ofName?_name, Option.map_some]
  have hnamed : (fs.mapM fun f => some (f.name, value f)) = some (fs.map fun f => (f.name, value f)) := List.mapM_pure
  simp only [knownFields?, List.mapM_map, Function.comp_def, Value.member, Option.map_some, hnamed,
    Option.bind_eq_bind, Option.bind_some, Option.pure_def, List.filterMap_map, hknown, List.filterMap_eq_map']

theorem ofText?_toText (c : Config) : Config.ofText? c.toText = some c := by
  have hspells : Spells c.toText.toList (.object (Field.all.map (Value.member Field.name c.fieldValue))) := by
    rw [toText, String.toList_ofList]
    exact spells_object fun f _ => spells_fieldText c f
  rw [Config.ofText?, hspells.ofText?, Option.bind_eq_bind, Option.bind_some, ofValue?, knownFields?_member,
    Option.bind_eq_bind, Option.bind_some, ofFields?_fieldValue]

/-- Every configuration, partition, transaction and policy is read back from its own text. -/
theorem texts_recovered :
    (∀ c : Config, Config.ofText? c.toText = some c) ∧ (∀ p : Partition, Partition.ofText? p.text = some p) ∧
      (∀ t : Txn, Txn.ofText? t.text = some t) ∧ ∀ p : Policy, Policy.ofText? p.toText = some p :=
  ⟨ofText?_toText, Partition.ofText?_text, Txn.ofText?_text, Policy.ofText?_toText⟩

end Config

end VersionBoard
