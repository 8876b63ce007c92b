import VersionBoard.Act
import VersionBoard.Image
import VersionBoard.Layout

/-!
# Access through a mapping

A handle maps the first bytes of its file and reaches the file only there. Each
access is checked: the mapping must be open, a word must be on an 8-byte
boundary, and all of it must lie inside the mapping. What one mapping stores,
every other mapping of the same bytes sees at once, since the state of these
actions is the file itself.

A lock word is changed by an exchange, in a loop: the word is looked at, and what
it is to become is put in its place if it is still the same. A processor may let
such an exchange fail for no reason, any finite number of times
(`Processor.misses`); the loop then goes round once more, and nothing else comes
of it (`Mapping.exchange_eq`).
-/

namespace VersionBoard

/-- What is up to the processor. -/
class Processor where
  /-- How often in a row the exchange of a word of a file fails though the word is what it was. -/
  misses : (file : Image) → (offset : Nat) → Nat

/-- A processor on which an exchange fails only for a reason. -/
instance Processor.steady : Processor := ⟨fun _ _ => 0⟩

/-- The first bytes of a file, as one handle has them mapped. -/
structure Mapping where
  /-- How many bytes are mapped; a closed mapping has none. -/
  mapped? : Option Nat
  deriving DecidableEq, Inhabited

namespace Mapping

/-- The mapping of nothing. -/
def closed : Mapping := ⟨none⟩

/-- The mapping of the first `n` bytes. -/
def upTo (n : Nat) : Mapping := ⟨some n⟩

/-- Whether anything is mapped, if only no bytes of an empty file. -/
def isOpen (m : Mapping) : Bool := m.mapped?.isSome

/-- How many bytes are mapped. -/
def size (m : Mapping) : Nat := m.mapped?.getD 0

/-- How many whole slots are mapped. -/
def capacity (m : Mapping) : Nat := slotsIn m.size

/-! ### Words -/

/-- The word at `o` can be reached. -/
def check (m : Mapping) (o : Nat) : Act Image Unit :=
  match m.mapped? with
  | none => .violate .accessAfterClose
  | some size =>
    if o % 8 ≠ 0 then .violate (.misaligned o)
    else if size < o + 8 then .violate (.beyondMapping o size)
    else pure ()

/-- The word at `o`. -/
def load (m : Mapping) (o : Nat) : Act Image UInt64 := do
  m.check o
  return (← Act.state).word (o / 8)

/-- The word at `o` becomes `v`. -/
def store (m : Mapping) (o : Nat) (v : UInt64) : Act Image Unit := do
  m.check o
  Act.modify (·.setWord (o / 8) v)

/-- The word at `o` changes by `f`. -/
def update (m : Mapping) (o : Nat) (f : UInt64 → UInt64) : Act Image Unit := do
  m.store o (f (← m.load o))

theorem load_upTo {n o : Nat} (ha : o % 8 = 0) (hn : o + 8 ≤ n) (f : Image) :
    (upTo n).load o f = (.ok (f.word (o / 8)), f) := by
  simp [load, check, upTo, ha, show ¬ n < o + 8 by omega, Act.bind_apply, Act.map_apply, Act.pure_apply, Act.state]

theorem store_upTo {n o : Nat} (ha : o % 8 = 0) (hn : o + 8 ≤ n) (v : UInt64) (f : Image) :
    (upTo n).store o v f = (.ok (), f.setWord (o / 8) v) := by
  simp [store, check, upTo, ha, show ¬ n < o + 8 by omega, Act.bind_apply, Act.pure_apply, Act.modify]

/-! ### Bytes -/

/-- The `n` bytes from `o` on. -/
def readBytes (m : Mapping) (o n : Nat) : Act Image (List UInt8) := do
  match m.mapped? with
  | none => .violate .accessAfterClose
  | some size =>
    if size < o + n then .violate .byteRange
    else return (← Act.state).read o n

/-- The bytes from `o` on become `bs`. Here a closed mapping is an error. -/
def writeBytes (m : Mapping) (o : Nat) (bs : List UInt8) : Act Image Unit :=
  match m.mapped? with
  | none => .fail .closed
  | some size =>
    if size < o + bs.length then .violate .byteRange
    else Act.modify (·.write o bs)

/-! ### Exchanges -/

/-- One attempt to exchange the word at `o`: it becomes `v` if it is `w`, unless the attempt misses. The answer says
whether it was made. -/
def tryExchange (m : Mapping) (o : Nat) (w v : UInt64) (misses : Bool) : Act Image Bool := do
  if (← m.load o) = w ∧ !misses then
    m.store o v
    return true
  else
    return false

/-- Attempts to change the word at `o` as `change` says of the word as it is, if it says so; so many of them miss. The
answer is the word as it was found last. -/
def exchangeAfter (m : Mapping) (o : Nat) (change : UInt64 → Option UInt64) : (misses : Nat) → Act Image UInt64
  | 0 => do
    let w ← m.load o
    if let some v := change w then
      let _ ← m.tryExchange o w v false
    return w
  | misses + 1 => do
    let w ← m.load o
    match change w with
    | none => return w
    | some v => if ← m.tryExchange o w v true then return w else exchangeAfter m o change misses

/-- Change the word at `o` as `change` says, if it says so. The answer is the word as it was. -/
def exchange [Processor] (m : Mapping) (o : Nat) (change : UInt64 → Option UInt64) : Act Image UInt64 := do
  m.exchangeAfter o change (Processor.misses (← Act.state) o)

/-- A word is read as it is, or it cannot be reached, and then it cannot be stored either. -/
theorem load_cases (m : Mapping) (o : Nat) (f : Image) :
    (∃ h, m.load o f = (.error h, f)) ∨
      m.load o f = (.ok (f.word (o / 8)), f) ∧ ∀ v, m.store o v f = (.ok (), f.setWord (o / 8) v) := by
  have hcheck : (∃ h, m.check o f = (.error h, f)) ∨ m.check o f = (.ok (), f) := by
    rcases m with ⟨_ | size⟩
    · exact .inl ⟨_, rfl⟩
    · by_cases ha : o % 8 ≠ 0
      · exact .inl ⟨_, congrFun (if_pos ha) f⟩
      · by_cases hn : size < o + 8
        · exact .inl ⟨_, (congrFun (if_neg ha) f).trans (congrFun (if_pos hn) f)⟩
        · exact .inr ((congrFun (if_neg ha) f).trans (congrFun (if_neg hn) f))
  rcases hcheck with ⟨h, hcheck⟩ | hcheck
  · exact .inl ⟨h, Act.bind_of_error hcheck⟩
  · exact .inr ⟨Act.bind_of_ok hcheck, fun v => Act.bind_of_ok hcheck⟩

theorem tryExchange_of_misses {m : Mapping} {o : Nat} {f : Image} {w : UInt64} (h : m.load o f = (.ok w, f))
    (v : UInt64) : m.tryExchange o w v true f = (.ok false, f) :=
  (Act.bind_of_ok h).trans (by simp [Act.pure_apply])

theorem tryExchange_of_made {m : Mapping} {o : Nat} {f g : Image} {w v : UInt64} (h : m.load o f = (.ok w, f))
    (hstore : m.store o v f = (.ok (), g)) : m.tryExchange o w v false f = (.ok true, g) := by
  refine (Act.bind_of_ok h).trans ?_
  rw [if_pos ⟨rfl, rfl⟩]
  exact Act.bind_of_ok hstore

/-- However many attempts miss, the change is made or it is not, as if none had. -/
theorem exchangeAfter_eq (m : Mapping) (o : Nat) (change : UInt64 → Option UInt64) (misses : Nat) :
    m.exchangeAfter o change misses = do
      let w ← m.load o
      if let some v := change w then m.store o v
      return w := by
  funext f
  rcases m.load_cases o f with ⟨h, hload⟩ | ⟨hload, hstore⟩
  · cases misses <;> exact (Act.bind_of_error hload).trans (Act.bind_of_error hload).symm
  · rw [Act.bind_of_ok hload]
    cases hchange : change (f.word (o / 8)) with
    | none => cases misses <;> simp only [exchangeAfter, Act.bind_of_ok hload, hchange]
    | some v =>
      -- Induction on the attempts that miss: each of them leaves the file as it is.
      induction misses with
      | zero =>
        have hmade := tryExchange_of_made hload (hstore v)
        simp only [exchangeAfter, Act.bind_of_ok hload, hchange, Act.bind_of_ok hmade, Act.bind_of_ok (hstore v)]
      | succ misses ih =>
        have hmissed := tryExchange_of_misses hload v
        simp only [exchangeAfter, Act.bind_of_ok hload, hchange, Act.bind_of_ok hmissed]
        exact ih

theorem exchange_eq [Processor] (m : Mapping) (o : Nat) (change : UInt64 → Option UInt64) :
    m.exchange o change = do
      let w ← m.load o
      if let some v := change w then m.store o v
      return w := by
  funext f
  rw [← exchangeAfter_eq m o change (Processor.misses f o)]
  rfl

/-! ### Lock words -/

/-- What a lock word holds while it is taken. -/
def taken : UInt64 := 1

/-- What becomes of a lock word when it is taken; it is zero when it is free. -/
def take? (w : UInt64) : Option UInt64 := if w = 0 then some taken else none

/-- Take the lock word at `o`. -/
def take [Processor] (m : Mapping) (o : Nat) : Act Image Unit := do
  if (← m.exchange o take?) ≠ 0 then .wait (.lockWord o)

/-- Give the lock word at `o` back. -/
def release (m : Mapping) (o : Nat) : Act Image Unit := m.store o 0

/-- Do `body` with the lock word at `o` taken. -/
def holding [Processor] {α : Type} (m : Mapping) (o : Nat) (body : Act Image α) : Act Image α := do
  m.take o
  body.afterwards (m.release o)

/-! ### Words by name -/

/-- The word `c`. -/
def get (m : Mapping) (c : Cell) : Act Image UInt64 := m.load c.offset

/-- The word `c` becomes `v`. -/
def put (m : Mapping) (c : Cell) (v : UInt64) : Act Image Unit := m.store c.offset v

/-- The word `c` changes by `f`. -/
def alter (m : Mapping) (c : Cell) (f : UInt64 → UInt64) : Act Image Unit := m.update c.offset f

end Mapping

end VersionBoard
