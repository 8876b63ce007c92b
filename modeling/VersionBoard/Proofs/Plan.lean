import VersionBoard.Board
import VersionBoard.Proofs.Words
import Mathlib.Tactic.SplitIfs

/-!
# Edits and plans

What a call does to a table, said without mappings, locks and stamps. A table is
read as `Words`; the searches of a table are searches in these. All that a call
ever changes is one of the ten edits of `Edit`, or two of them in a row when a
version is registered and then locked. The plan of a call says which edits it
makes and how it ends. That the calls themselves follow their plans is shown in
`VersionBoard.Proofs.Follow`; everything else about them is read off the plans.
-/

namespace VersionBoard

namespace Words

/-! ### Searches -/

/-- How many slots have been in use. -/
def used (w : Words) : Nat := (w .usedSlots).toNat

/-- Slot `i` is live. -/
def Live (w : Words) (i : Nat) : Prop := w (.state i) = SlotState.live

/-- Slot `i` tracks `p`. -/
def Tracks (w : Words) (i : Nat) (p : Partition) : Prop := w.Live i ∧ Partition.ofWord (w (.partition i)) = p

instance (w : Words) (i : Nat) : Decidable (w.Live i) := inferInstanceAs (Decidable (_ = _))

instance (w : Words) (i : Nat) (p : Partition) : Decidable (w.Tracks i p) := inferInstanceAs (Decidable (_ ∧ _))

/-- The first of `v` slots that tracks `p`. -/
def slot? (w : Words) (v : Nat) (p : Partition) : Option Nat := (List.range v).find? fun i => w.Tracks i p

/-- The first of `v` slots that is retired, or else the one after all used ones. -/
def next (w : Words) (v : Nat) : Nat :=
  ((List.range v).find? fun i => w (.state i) = SlotState.retired).getD w.used

/-- The lowest entry of slot `i` with key `k`. -/
def entryWith? (w : Words) (i : Nat) (k : UInt64) : Option EntryIndex := entryIndices.find? fun e => w (.key i e) = k

/-- The lowest free entry of slot `i` whose lock word is zero. -/
def free? (w : Words) (i : Nat) : Option EntryIndex :=
  entryIndices.find? fun e => w (.key i e) = 0 ∧ w (.lock i e) = 0

/-- The lowest registered entry of slot `i` that nobody holds. -/
def idle? (w : Words) (i : Nat) : Option EntryIndex :=
  entryIndices.find? fun e => w (.key i e) ≠ 0 ∧ w (.lock i e) = 0

theorem key_of_entryWith? {w : Words} {i : Nat} {k : UInt64} {e : EntryIndex} (h : w.entryWith? i k = some e) :
    w (.key i e) = k := by
  simpa using List.find?_some h

theorem entryWith?_eq_none_iff {w : Words} {i : Nat} {k : UInt64} : w.entryWith? i k = none ↔ ∀ e, w (.key i e) ≠ k := by
  simp [entryWith?, entryIndices, List.mem_finRange]

theorem of_free? {w : Words} {i : Nat} {e : EntryIndex} (h : w.free? i = some e) :
    w (.key i e) = 0 ∧ w (.lock i e) = 0 := by
  simpa using List.find?_some h

theorem free?_set_partition (w : Words) (i j : Nat) (v : UInt64) : (w.set (.partition i) v).free? j = w.free? j := by
  simp [free?, set_apply]

theorem of_idle? {w : Words} {i : Nat} {e : EntryIndex} (h : w.idle? i = some e) :
    w (.key i e) ≠ 0 ∧ w (.lock i e) = 0 := by
  simpa using List.find?_some h

theorem of_slot? {w : Words} {v i : Nat} {p : Partition} (h : w.slot? v p = some i) : i < v ∧ w.Tracks i p := by
  have hp : w.Tracks i p := by simpa using List.find?_some h
  exact ⟨List.mem_range.mp (List.mem_of_find?_eq_some h), hp⟩

theorem slot?_eq_none_iff {w : Words} {v : Nat} {p : Partition} :
    w.slot? v p = none ↔ ∀ i, i < v → ¬ w.Tracks i p := by
  simp [slot?]

/-- Every entry of slot `i` is registered. -/
def Full (w : Words) (i : Nat) : Prop := ∀ e, w (.key i e) ≠ 0

/-- No entry of slot `i` other than `e` is registered. -/
def Alone (w : Words) (i : Nat) (e : EntryIndex) : Prop := ∀ d, d ≠ e → w (.key i d) = 0

instance (w : Words) (i : Nat) : Decidable (w.Full i) := inferInstanceAs (Decidable (∀ _, _))

instance (w : Words) (i : Nat) (e : EntryIndex) : Decidable (w.Alone i e) := inferInstanceAs (Decidable (∀ _, _))

end Words

/-! ### Edits -/

/-- A change that a call makes to a table. -/
inductive Edit where
  /-- One reader more of the version in entry `e` of slot `i`. -/
  | addReader (i : Nat) (e : EntryIndex)
  /-- One reader less. -/
  | dropReader (i : Nat) (e : EntryIndex)
  /-- A writer. -/
  | addWriter (i : Nat) (e : EntryIndex)
  /-- No writer any more. -/
  | dropWriter (i : Nat) (e : EntryIndex)
  /-- A free entry is given to key `k`. -/
  | assign (i : Nat) (e : EntryIndex) (k : UInt64)
  /-- The entry of another version is given to key `k`. -/
  | evict (i : Nat) (e : EntryIndex) (k : UInt64)
  /-- A version goes and leaves others in its slot. -/
  | unregister (i : Nat) (e : EntryIndex)
  /-- The last version of a slot goes, and the slot retires. -/
  | retire (i : Nat) (e : EntryIndex)
  /-- A slot is given to `p`, with key `k` in entry `e`. -/
  | track (i : Nat) (e : EntryIndex) (p : Partition) (k : UInt64)
  /-- A slot is named for `p` and its entry `e` reserved, and there it ends. -/
  | abandon (i : Nat) (e : EntryIndex) (p : Partition)
  deriving DecidableEq

namespace Edit

/-- The slot that is edited. -/
def slot : Edit → Nat
  | addReader i _ => i
  | dropReader i _ => i
  | addWriter i _ => i
  | dropWriter i _ => i
  | assign i _ _ => i
  | evict i _ _ => i
  | unregister i _ => i
  | retire i _ => i
  | track i _ _ _ => i
  | abandon i _ _ => i

/-- The entry that gets another lock word. -/
def locked : Edit → Option (Nat × EntryIndex)
  | addReader i e => some (i, e)
  | dropReader i e => some (i, e)
  | addWriter i e => some (i, e)
  | dropWriter i e => some (i, e)
  | abandon i e _ => some (i, e)
  | _ => none

/-- The slot that gets another partition. -/
def named : Edit → Option (Nat × Partition)
  | track i _ p _ => some (i, p)
  | abandon i _ p => some (i, p)
  | _ => none

/-- Whether the edit leaves its slot as it found it, but for a name and a reserved entry. -/
def abandons : Edit → Bool
  | abandon .. => true
  | _ => false

/-- The words that an edit writes, and what it writes there. -/
def writes (w : Words) : Edit → List (Cell × UInt64)
  | addReader i e => [(.lock i e, w (.lock i e) + 1), (.readLocks, w .readLocks + 1)]
  | dropReader i e => [(.lock i e, w (.lock i e) - 1), (.readLocks, w .readLocks - 1)]
  | addWriter i e => [(.lock i e, LockWord.writeBit)]
  | dropWriter i e => [(.lock i e, LockWord.removeWriter (w (.lock i e)))]
  | assign i e k => [(.key i e, k)]
  | evict i e k => [(.stamp, w .stamp + 1), (.key i e, k)]
  | unregister i e => [(.stamp, w .stamp + 1), (.key i e, 0)]
  | retire i e =>
    [(.key i e, 0), (.state i, SlotState.retired), (.liveSlots, w .liveSlots - 1), (.stamp, w .stamp + 1 + 1)]
  | track i e p k =>
    [(.partition i, p.word), (.key i e, k), (.state i, SlotState.live),
      (.usedSlots, if i = w.used then UInt64.ofNat (i + 1) else w .usedSlots),
      (.liveSlots, w .liveSlots + 1), (.stamp, w .stamp + 1)]
  | abandon i e p => [(.partition i, p.word), (.lock i e, LockWord.reservedBit)]

end Edit

/-- The words after an edit. -/
def Words.edit (w : Words) (ed : Edit) : Words := w.setAll (ed.writes w)

/-- The words after edits in a row. -/
def Words.edits (w : Words) (es : List Edit) : Words := es.foldl Words.edit w

theorem Words.edits_append (w : Words) (es ds : List Edit) : w.edits (es ++ ds) = (w.edits es).edits ds :=
  List.foldl_append ..

/-- A word that none of the edits changes is as it was after all of them. -/
theorem Words.edits_apply {w : Words} {es : List Edit} {c : Cell} (h : ∀ ed ∈ es, ∀ u : Words, u.edit ed c = u c) :
    w.edits es c = w c := by
  induction es generalizing w with
  | nil => rfl
  | cons ed es ih =>
    exact (ih fun d hd => h d (List.mem_cons_of_mem _ hd)).trans (h ed List.mem_cons_self w)

theorem Words.vacant_unregister_iff {w : Words} {i : Nat} {e : EntryIndex} :
    (∀ d, w.edit (.unregister i e) (.key i d) = 0) ↔ w.Alone i e := by
  have hkey : ∀ d, w.edit (.unregister i e) (.key i d) = if d = e then 0 else w (.key i d) := by
    intro d
    simp [Words.edit, Edit.writes, Words.set_apply]
  constructor
  · intro h d hd
    have := h d
    rwa [hkey, if_neg hd] at this
  · intro h d
    rw [hkey]
    split_ifs with hd
    · rfl
    · exact h d hd

/-- The file after an edit. -/
def Image.edit (f : Image) (ed : Edit) : Image := f.setCells (ed.writes f.cells)

/-- The file after edits in a row. -/
def Image.edits (f : Image) (es : List Edit) : Image := es.foldl Image.edit f

@[simp] theorem Image.edits_nil (f : Image) : f.edits [] = f := rfl

@[simp] theorem Image.edits_singleton (f : Image) (ed : Edit) : f.edits [ed] = f.edit ed := rfl

/-! ### Locks of slots and of the header -/

/-- The word is the lock of a slot or of the header. No edit reads or writes it. -/
def Cell.IsGuard (c : Cell) : Prop := c = headerLock ∨ ∃ i, c = slotLock i

theorem Cell.isGuard_headerLock : headerLock.IsGuard := .inl rfl

theorem Cell.isGuard_slotLock (i : Nat) : (slotLock i).IsGuard := .inr ⟨i, rfl⟩

theorem Words.set_guard_apply (w : Words) {g c : Cell} (hg : g.IsGuard) (hc : ¬ c.IsGuard) (v : UInt64) :
    w.set g v c = w c :=
  w.set_of_ne (fun h => hc (by rw [h]; exact hg)) v

namespace Edit

theorem not_isGuard_of_mem_writes {w : Words} {ed : Edit} {x : Cell × UInt64} (hx : x ∈ ed.writes w) :
    ¬ x.1.IsGuard := by
  cases ed <;> simp only [writes, List.mem_cons, List.not_mem_nil, or_false] at hx <;>
    rcases hx with rfl | rfl | rfl | rfl | rfl | rfl <;> simp [Cell.IsGuard]

theorem writes_set_guard (w : Words) {g : Cell} (hg : g.IsGuard) (v : UInt64) (ed : Edit) :
    ed.writes (w.set g v) = ed.writes w := by
  cases ed <;> simp [writes, Words.used, Words.set_guard_apply w hg, Cell.IsGuard]

/-- All that an edit writes lies in its slot or in the header. -/
theorem within_of_mem_writes {w : Words} {ed : Edit} {n : Nat} (hi : ed.slot < n) {x : Cell × UInt64}
    (hx : x ∈ ed.writes w) : x.1.Within n := by
  cases ed <;> simp only [writes, List.mem_cons, List.not_mem_nil, or_false] at hx <;>
    rcases hx with rfl | rfl | rfl | rfl | rfl | rfl <;> trivial

end Edit

namespace Image

theorem size_edit (f : Image) (ed : Edit) : (f.edit ed).size = f.size := size_setCells ..

@[simp] theorem size_edits (f : Image) (es : List Edit) : (f.edits es).size = f.size := by
  induction es generalizing f with
  | nil => rfl
  | cons ed es ih => exact (ih _).trans (size_edit f ed)

/-- The file has a header, and slot `i` lies inside it. -/
def Holds (f : Image) (i : Nat) : Prop := sizeFor (i + 1) ≤ f.size

theorem Holds.offset_add_le {f : Image} {i : Nat} (h : f.Holds i) {c : Cell} (hc : c.Within (i + 1)) :
    c.offset + 8 ≤ f.size := Nat.le_trans hc.offset_add_le h

theorem Holds.offset_add_le_of_writes {f : Image} {ed : Edit} (h : f.Holds ed.slot) {w : Words} :
    ∀ x ∈ ed.writes w, x.1.offset + 8 ≤ f.size :=
  fun _ hx => h.offset_add_le (Edit.within_of_mem_writes (Nat.lt_succ_self _) hx)

theorem cells_edit {f : Image} {ed : Edit} (h : f.Holds ed.slot) : (f.edit ed).cells = f.cells.edit ed :=
  cells_setCells h.offset_add_le_of_writes

theorem cells_edits {f : Image} {es : List Edit} (h : ∀ ed ∈ es, f.Holds ed.slot) :
    (f.edits es).cells = f.cells.edits es := by
  induction es generalizing f with
  | nil => rfl
  | cons ed es ih =>
    have hs : ∀ d ∈ es, (f.edit ed).Holds d.slot := by
      intro d hd
      rw [Holds, size_edit]
      exact h d (List.mem_cons_of_mem _ hd)
    rw [edits, List.foldl_cons, ← edits, ih hs, cells_edit (h ed List.mem_cons_self)]
    rfl

/-- Edits change no byte outside of words. -/
theorem byte_edits_of_no_cell (f : Image) (es : List Edit) {b : Nat}
    (hb : ∀ c : Cell, b < c.offset ∨ c.offset + 8 ≤ b) : (f.edits es).byte b = f.byte b := by
  induction es generalizing f with
  | nil => rfl
  | cons ed es ih => exact (ih (f.edit ed)).trans (byte_setCells f fun x _ => hb x.1)

end Image

/-! ### Edits between taking a lock and giving it back -/

namespace Image

variable {f : Image} {g : Cell}

theorem setCell_edit (hg : g.IsGuard) (hin : g.offset + 8 ≤ f.size) {ed : Edit} (hed : f.Holds ed.slot) (v : UInt64) :
    (f.setCell g v).edit ed = (f.edit ed).setCell g v := by
  have hw : ed.writes (f.setCell g v).cells = ed.writes f.cells := by
    rw [cells_setCell hin, Edit.writes_set_guard _ hg]
  have hne : ∀ x ∈ ed.writes f.cells, x.1 ≠ g := fun x hx h => Edit.not_isGuard_of_mem_writes hx (by rw [h]; exact hg)
  calc (f.setCell g v).edit ed
      = f.setCells ((g, v) :: ed.writes f.cells) := by rw [edit, hw]; rfl
    _ = f.setCells (ed.writes f.cells ++ [(g, v)]) := by
      apply setCells_congr
      · rintro x (_ | ⟨_, hx⟩)
        · exact hin
        · exact hed.offset_add_le_of_writes x hx
      · intro x hx
        rcases List.mem_append.mp hx with hx | hx
        · exact hed.offset_add_le_of_writes x hx
        · rw [List.mem_singleton.mp hx]
          exact hin
      · rw [Words.setAll_cons, Words.setAll_set_comm _ hne, Words.setAll_append]
        rfl
    _ = (f.edit ed).setCell g v := by rw [setCells_append]; rfl

theorem setCell_edits (hg : g.IsGuard) (hin : g.offset + 8 ≤ f.size) {es : List Edit} (hes : ∀ ed ∈ es, f.Holds ed.slot)
    (v : UInt64) : (f.setCell g v).edits es = (f.edits es).setCell g v := by
  induction es generalizing f with
  | nil => rfl
  | cons ed es ih =>
    have hed := hes ed List.mem_cons_self
    rw [edits, List.foldl_cons, setCell_edit hg hin hed]
    refine ih ?_ fun d hd => ?_
    · rw [size_edit]
      exact hin
    · rw [Holds, size_edit]
      exact hes d (List.mem_cons_of_mem _ hd)

theorem cells_edits_guard (hg : g.IsGuard) {es : List Edit} (hes : ∀ ed ∈ es, f.Holds ed.slot) :
    (f.edits es).cells g = f.cells g := by
  rw [cells_edits hes]
  refine Words.edits_apply fun ed _ u => ?_
  exact Words.setAll_of_notMem u fun x hx h => Edit.not_isGuard_of_mem_writes hx (by rw [h]; exact hg)

/-- A lock that was free leaves no trace of having been held. -/
theorem release_edits (hg : g.IsGuard) (hin : g.offset + 8 ≤ f.size) (h0 : f.cells g = 0) {es : List Edit}
    (hes : ∀ ed ∈ es, f.Holds ed.slot) (v : UInt64) : ((f.setCell g v).edits es).setCell g 0 = f.edits es := by
  rw [setCell_edits hg hin hes, setCell_setCell, ← h0, ← cells_edits_guard hg hes, setCell_cells]

end Image

/-! ### Plans -/

/-- How a call ends and the edits that it makes. -/
abbrev Plan (α : Type) : Type := Except Halt α × List Edit

namespace Plan

variable {α β : Type}

/-- The plan does not end in waiting. -/
def Ends (plan : Plan α) : Prop := ∀ w, plan.1 ≠ .error (.waits w)

/-- The plan with another answer. -/
def map (f : α → β) (plan : Plan α) : Plan β := (plan.1.map f, plan.2)

/-- A plan, and then what its answer calls for. -/
def andThen (plan : Plan α) (f : α → Plan β) : Plan β :=
  match plan.1 with
  | .ok a => ((f a).1, plan.2 ++ (f a).2)
  | .error h => (.error h, plan.2)

/-- Answer and change nothing. -/
def answer (a : α) : Plan α := (.ok a, [])

/-- End without an answer and change nothing. -/
def stop (h : Halt) : Plan α := (.error h, [])

theorem map_eq_andThen (f : α → β) (plan : Plan α) : plan.map f = plan.andThen fun a => .answer (f a) := by
  rcases plan with ⟨_ | a, es⟩
  · rfl
  · simp [map, andThen, answer, Except.map]

theorem map_map {γ : Type} (f : α → β) (g : β → γ) (plan : Plan α) : (plan.map f).map g = plan.map fun a => g (f a) := by
  rcases plan with ⟨_ | a, es⟩ <;> rfl

end Plan

namespace Words

/-- Do something with the key of `txn`, which must have one. -/
def withKey {α : Type} (txn : Txn) (f : UInt64 → Plan α) : Plan α :=
  match txn.key? with
  | some k => f k
  | none => .stop (.violated (.untrackable txn))

/-- Give an entry of slot `i`, which tracks `p`, to key `k`. -/
def claim (w : Words) (i : Nat) (p : Partition) (k : UInt64) : Plan EntryIndex :=
  match w.free? i with
  | some e => (.ok e, [.assign i e k])
  | none =>
    match w.idle? i with
    | some e => (.ok e, [.evict i e k])
    | none =>
      .stop (if w.Full i then .failed (.versionsExhausted p entriesPerSlot) else .waits (.freeEntry i))

/-- Register `txn` in slot `i`, which was found for `p`. -/
def register (w : Words) (i : Nat) (p : Partition) (txn : Txn) : Plan Registration :=
  if w.Tracks i p then
    withKey txn fun k =>
      match w.entryWith? i k with
      | some e => .answer (.known e)
      | none => (w.claim i p k).map .fresh
  else .answer .gone

/-- Track `p` in the next slot. -/
def track (w : Words) (v : Nat) (p : Partition) (txn : Txn) : Plan Nat :=
  match w.free? (w.next v) with
  | none => .stop (.waits (.freeEntry (w.next v)))
  | some e =>
    match txn.key? with
    | some k => (.ok (w.next v), [.track (w.next v) e p k])
    | none => (.error (.violated (.untrackable txn)), [.abandon (w.next v) e p])

/-- Remove version `txn` from slot `i`. -/
def unregister (w : Words) (i : Nat) (txn : Txn) : Plan Bool :=
  withKey txn fun k =>
    match w.entryWith? i k with
    | none => .answer false
    | some e =>
      if w (.lock i e) = 0 then (.ok true, [if w.Alone i e then .retire i e else .unregister i e])
      else .answer false

/-- Remove version `txn` of `p`. -/
def untrack (w : Words) (v : Nat) (p : Partition) (txn : Txn) : Plan Bool :=
  match w.slot? v p with
  | none => .answer false
  | some i => w.unregister i txn

/-- The entry of a version, which is registered if its partition is tracked. -/
def findOrRegister (w : Words) (v : Nat) (p : Partition) (txn : Txn) : Plan (Option (Nat × EntryIndex)) :=
  match w.slot? v p with
  | none => .answer none
  | some i =>
    withKey txn fun k =>
      match w.entryWith? i k with
      | some e => .answer (some (i, e))
      | none => (w.claim i p k).map fun e => some (i, e)

/-- The entry of a version that is registered. -/
def find (w : Words) (v : Nat) (p : Partition) (txn : Txn) : Plan (Option (Nat × EntryIndex)) :=
  match w.slot? v p with
  | none => .answer none
  | some i => withKey txn fun k => .answer ((w.entryWith? i k).map (i, ·))

/-- Become a reader. -/
def acquireRead (w : Words) (v : Nat) (p : Partition) (txn : Txn) : Plan Bool :=
  (w.findOrRegister v p txn).andThen fun
    | none => .answer false
    | some (i, e) =>
      match LockWord.addReader (w (.lock i e)) with
      | .reserved => .stop (.waits (.reassignment i e))
      | .writer => .answer false
      | .overflow => .stop (.violated .readerOverflow)
      | .added _ => (.ok true, [.addReader i e])

/-- Stop being a reader. -/
def releaseRead (w : Words) (v : Nat) (p : Partition) (txn : Txn) : Plan Unit :=
  (w.find v p txn).andThen fun
    | none => .stop (.violated (.untrackedRelease .read p txn))
    | some (i, e) =>
      match LockWord.removeReader? (w (.lock i e)) with
      | none => .stop (.violated (.unmatchedRelease p txn))
      | some _ => (.ok (), [.dropReader i e])

/-- Become the writer. -/
def acquireWrite (w : Words) (v : Nat) (p : Partition) (txn : Txn) : Plan Bool :=
  (w.findOrRegister v p txn).andThen fun
    | none => .answer false
    | some (i, e) =>
      match LockWord.addWriter (w (.lock i e)) with
      | .reserved => .stop (.waits (.reassignment i e))
      | .busy => .answer false
      | .acquired _ => (.ok true, [.addWriter i e])

/-- Stop being the writer. -/
def releaseWrite (w : Words) (v : Nat) (p : Partition) (txn : Txn) : Plan Unit :=
  (w.find v p txn).andThen fun
    | none => .stop (.violated (.untrackedRelease .write p txn))
    | some (i, e) =>
      if LockWord.hasWriter (w (.lock i e)) then (.ok (), [.dropWriter i e])
      else .stop (.violated (.noWriter p txn))

/-- Who holds the version in entry `e` of slot `i`. -/
def entryState (w : Words) (i : Nat) (e : EntryIndex) : EntryState :=
  ⟨Txn.ofKey? (w (.key i e)), LockWord.readers (w (.lock i e)), LockWord.hasWriter (w (.lock i e))⟩

/-- The registered versions of a partition. -/
def versions (w : Words) (v : Nat) (p : Partition) : List EntryState :=
  match w.slot? v p with
  | none => []
  | some i => (entryIndices.map (w.entryState i)).filter (·.txn?.isSome)

/-! ### What the plans do not depend on -/

section Guards

variable {w : Words} {g : Cell} (hg : g.IsGuard) (u : UInt64)

include hg

theorem used_set_guard : (w.set g u).used = w.used := by
  simp [used, set_guard_apply w hg, Cell.IsGuard]

theorem tracks_set_guard (i : Nat) (p : Partition) : (w.set g u).Tracks i p ↔ w.Tracks i p := by
  simp [Tracks, Live, set_guard_apply w hg, Cell.IsGuard]

theorem slot?_set_guard (v : Nat) (p : Partition) : (w.set g u).slot? v p = w.slot? v p := by
  simp only [slot?, tracks_set_guard hg]

theorem next_set_guard (v : Nat) : (w.set g u).next v = w.next v := by
  simp [next, used, set_guard_apply w hg, Cell.IsGuard]

theorem entryWith?_set_guard (i : Nat) (k : UInt64) : (w.set g u).entryWith? i k = w.entryWith? i k := by
  simp [entryWith?, set_guard_apply w hg, Cell.IsGuard]

theorem free?_set_guard (i : Nat) : (w.set g u).free? i = w.free? i := by
  simp [free?, set_guard_apply w hg, Cell.IsGuard]

theorem idle?_set_guard (i : Nat) : (w.set g u).idle? i = w.idle? i := by
  simp [idle?, set_guard_apply w hg, Cell.IsGuard]

theorem full_set_guard (i : Nat) : (w.set g u).Full i ↔ w.Full i := by
  simp [Full, set_guard_apply w hg, Cell.IsGuard]

theorem alone_set_guard (i : Nat) (e : EntryIndex) : (w.set g u).Alone i e ↔ w.Alone i e := by
  simp [Alone, set_guard_apply w hg, Cell.IsGuard]

theorem register_set_guard (i : Nat) (p : Partition) (txn : Txn) :
    (w.set g u).register i p txn = w.register i p txn := by
  simp only [register, claim, tracks_set_guard hg, entryWith?_set_guard hg, free?_set_guard hg, idle?_set_guard hg,
    full_set_guard hg]

theorem track_set_guard (v : Nat) (p : Partition) (txn : Txn) : (w.set g u).track v p txn = w.track v p txn := by
  simp only [track, next_set_guard hg, free?_set_guard hg]

theorem unregister_set_guard (i : Nat) (txn : Txn) : (w.set g u).unregister i txn = w.unregister i txn := by
  have hl : ∀ e, w.set g u (.lock i e) = w (.lock i e) := fun e => set_guard_apply w hg (by simp [Cell.IsGuard]) u
  simp only [unregister, entryWith?_set_guard hg, alone_set_guard hg, hl]

theorem untrack_set_guard (v : Nat) (p : Partition) (txn : Txn) : (w.set g u).untrack v p txn = w.untrack v p txn := by
  simp only [untrack, slot?_set_guard hg, unregister_set_guard hg]

end Guards

end Words

/-- The plan of a call through a mapping that holds `v` used slots. -/
def TableCall.plan (w : Words) (v : Nat) : TableCall → Plan Answer
  | acquireRead p txn => (w.acquireRead v p txn).map .flag
  | releaseRead p txn => (w.releaseRead v p txn).map fun _ => .done
  | acquireWrite p txn => (w.acquireWrite v p txn).map .flag
  | releaseWrite p txn => (w.releaseWrite v p txn).map fun _ => .done
  | readerCount p txn =>
    (w.find v p txn).map fun at? => .count (at?.elim 0 fun (i, e) => LockWord.readers (w (.lock i e)))
  | hasWriter p txn =>
    (w.find v p txn).map fun at? => .flag (at?.elim false fun (i, e) => LockWord.hasWriter (w (.lock i e)))
  | slotOfVersion p txn => (w.find v p txn).map fun at? => .slot (at?.map (·.1))
  | versions p => .answer (.versions (w.versions v p))
  | readLocks => .answer (.count (w .readLocks))
  | partitionCount => .answer (.count (w .liveSlots))
  | stamp => .answer (.count (w .stamp))

/-- Whether a version is registered now that was not before. -/
def Registration.isFresh : Registration → Bool
  | fresh _ => true
  | _ => false

/-- Track a version. A slot that no file can hold is not to be had. -/
def Words.add (w : Words) (p : Partition) (txn : Txn) : Plan Bool :=
  match w.slot? w.used p with
  | some i => (w.register i p txn).map (·.isFresh)
  | none =>
    if sizeFor (w.next w.used + 1) ≤ Region.maxSize then (w.track w.used p txn).map fun _ => true
    else .stop (.violated (.slotBeyondCapacity (w.next w.used) (slotsIn Region.maxSize)))

theorem Words.add_set_guard {w : Words} {g : Cell} (hg : g.IsGuard) (u : UInt64) (p : Partition) (txn : Txn) :
    (w.set g u).add p txn = w.add p txn := by
  simp only [add, used_set_guard hg, slot?_set_guard hg, next_set_guard hg, register_set_guard hg, track_set_guard hg]

/-- The plan of a call on a whole table. -/
def BoardCall.plan (w : Words) : BoardCall → Plan Answer
  | table c => c.plan w w.used
  | add p txn => (w.add p txn).map .flag
  | remove p txn => (w.untrack w.used p txn).map .flag

end VersionBoard
