import VersionBoard.Proofs.Holding

/-!
# The same row in another slot

A row is what the entries of a slot hold: their keys and lock words. What a call
does with a partition depends on nothing but the row of the partition's slot. If
two tables track a partition with the same row, then a call about it has the same
outcome on both, up to the slot's number, and makes the same edits, each in the
slot of its table (`BoardCall.relocates_plan`). So the rows stay the same
(`Words.SameRow.edits`).
-/

namespace VersionBoard

/-- The edit in slot `j`. -/
def Edit.relocate (j : Nat) : Edit → Edit
  | addReader _ e => addReader j e
  | dropReader _ e => dropReader j e
  | addWriter _ e => addWriter j e
  | dropWriter _ e => dropWriter j e
  | assign _ e k => assign j e k
  | evict _ e k => evict j e k
  | unregister _ e => unregister j e
  | retire _ e => retire j e
  | track _ e p k => track j e p k
  | abandon _ e p => abandon j e p

namespace Words

/-- Slot `i` of one table and slot `j` of another one have the same keys and lock words. -/
structure SameRow (w : Words) (i : Nat) (u : Words) (j : Nat) : Prop where
  key : ∀ e, u (.key j e) = w (.key i e)
  lock : ∀ e, u (.lock j e) = w (.lock i e)

variable {w u : Words} {i j : Nat}

namespace SameRow

theorem symm (h : w.SameRow i u j) : u.SameRow j w i := ⟨fun e => (h.key e).symm, fun e => (h.lock e).symm⟩

theorem trans {v : Words} {k : Nat} (h : w.SameRow i u j) (h' : u.SameRow j v k) : w.SameRow i v k :=
  ⟨fun e => (h'.key e).trans (h.key e), fun e => (h'.lock e).trans (h.lock e)⟩

/-! ### Searches -/

theorem entryWith?_eq (h : w.SameRow i u j) (k : UInt64) : u.entryWith? j k = w.entryWith? i k := by
  simp only [entryWith?, h.key]

theorem free?_eq (h : w.SameRow i u j) : u.free? j = w.free? i := by
  simp only [free?, h.key, h.lock]

theorem idle?_eq (h : w.SameRow i u j) : u.idle? j = w.idle? i := by
  simp only [idle?, h.key, h.lock]

theorem full_iff (h : w.SameRow i u j) : u.Full j ↔ w.Full i := by
  simp only [Full, h.key]

theorem alone_iff (h : w.SameRow i u j) (e : EntryIndex) : u.Alone j e ↔ w.Alone i e := by
  simp only [Alone, h.key]

theorem entryState_eq (h : w.SameRow i u j) (e : EntryIndex) : u.entryState j e = w.entryState i e := by
  simp only [entryState, h.key, h.lock]

/-! ### Edits -/

/-- The same edit in both slots leaves them with the same row. -/
theorem edit (h : w.SameRow i u j) {ed : Edit} (hed : ed.slot = i) :
    (w.edit ed).SameRow i (u.edit (ed.relocate j)) j := by
  subst hed
  have hkey := h.key
  have hlock := h.lock
  cases ed <;> constructor <;> intro d <;>
    simp_all [Edit.slot, Edit.relocate, Words.edit, Edit.writes, set_apply]

theorem edits (h : w.SameRow i u j) {es : List Edit} (hes : ∀ ed ∈ es, ed.slot = i) :
    (w.edits es).SameRow i (u.edits (es.map (Edit.relocate j))) j := by
  induction es generalizing w u with
  | nil => exact h
  | cons ed es ih =>
    exact ih (h.edit (hes ed List.mem_cons_self)) fun d hd => hes d (List.mem_cons_of_mem _ hd)

end SameRow

end Words

/-! ### Plans -/

/-- The plan with all its edits in slot `j`. -/
def Plan.relocate {α : Type} (j : Nat) (plan : Plan α) : Plan α := (plan.1, plan.2.map (Edit.relocate j))

theorem Plan.relocate_map {α β : Type} (j : Nat) (f : α → β) (plan : Plan α) :
    (plan.map f).relocate j = (plan.relocate j).map f := rfl

namespace Words

variable {w u : Words} {i j v v' : Nat} {p : Partition}

/-- The entry for `txn` in slot `i`, which tracks `p`. -/
def entryFor (w : Words) (i : Nat) (p : Partition) (txn : Txn) : Plan EntryIndex :=
  withKey txn fun k =>
    match w.entryWith? i k with
    | some e => .answer e
    | none => w.claim i p k

theorem findOrRegister_of_slot? (hp : w.slot? v p = some i) (txn : Txn) :
    w.findOrRegister v p txn = (w.entryFor i p txn).map fun e => some (i, e) := by
  simp only [findOrRegister, hp, entryFor, withKey]
  cases txn.key? with
  | none => rfl
  | some k =>
    dsimp only
    cases w.entryWith? i k <;> rfl

theorem withKey_relocate {α : Type} {txn : Txn} {f g : UInt64 → Plan α} (h : ∀ k, g k = (f k).relocate j) :
    withKey txn g = (withKey txn f).relocate j := by
  simp only [withKey]
  cases txn.key? with
  | none => rfl
  | some k => exact h k

namespace SameRow

variable (h : w.SameRow i u j) (hidle : ∀ i e, w (.key i e) = 0 → w (.lock i e) = 0)

include h

include hidle in
theorem claim (p : Partition) (k : UInt64) : u.claim j p k = (w.claim i p k).relocate j := by
  unfold Words.claim
  rw [h.free?_eq, h.idle?_eq]
  cases hf : w.free? i with
  | some e => rfl
  | none =>
    cases w.idle? i with
    | some e => rfl
    | none =>
      have hfull := (free?_eq_none_iff hidle).mp hf
      dsimp only
      rw [if_pos hfull, if_pos (h.full_iff.mpr hfull)]
      rfl

include hidle in
theorem entryFor (p : Partition) (txn : Txn) : u.entryFor j p txn = (w.entryFor i p txn).relocate j := by
  refine withKey_relocate fun k => ?_
  rw [h.entryWith?_eq]
  cases w.entryWith? i k with
  | some e => rfl
  | none => exact h.claim hidle p k

include hidle in
theorem register (hp : w.Tracks i p) (hq : u.Tracks j p) (txn : Txn) :
    u.register j p txn = (w.register i p txn).relocate j := by
  rw [Words.register, if_pos hq, Words.register, if_pos hp]
  refine withKey_relocate fun k => ?_
  rw [h.entryWith?_eq]
  cases w.entryWith? i k with
  | some e => rfl
  | none =>
    dsimp only
    rw [h.claim hidle, Plan.relocate_map]

theorem unregister (txn : Txn) : u.unregister j txn = (w.unregister i txn).relocate j := by
  refine withKey_relocate fun k => ?_
  rw [h.entryWith?_eq]
  cases w.entryWith? i k with
  | none => rfl
  | some e =>
    simp only [h.lock, h.alone_iff]
    split_ifs <;> rfl

section Locks

variable (hproper : ∀ e, LockWord.Proper (w (.lock i e))) (hp : w.slot? v p = some i) (hq : u.slot? v' p = some j)

include hp hq

include hidle hproper in
theorem acquireRead (txn : Txn) : u.acquireRead v' p txn = (w.acquireRead v p txn).relocate j := by
  simp only [Words.acquireRead, findOrRegister_of_slot? hp, findOrRegister_of_slot? hq, h.entryFor hidle]
  rcases w.entryFor i p txn with ⟨x | e, es⟩
  · rfl
  · simp only [Plan.relocate, Plan.map, Plan.andThen, Except.map, h.lock]
    cases ha : LockWord.addReader (w (.lock i e)) with
    | added => simp [Edit.relocate]
    | writer => simp [Plan.answer]
    | overflow => simp [Plan.stop]
    | reserved => exact absurd ha (hproper e).addReader_ne_reserved

include hidle hproper in
theorem acquireWrite (txn : Txn) : u.acquireWrite v' p txn = (w.acquireWrite v p txn).relocate j := by
  simp only [Words.acquireWrite, findOrRegister_of_slot? hp, findOrRegister_of_slot? hq, h.entryFor hidle]
  rcases w.entryFor i p txn with ⟨x | e, es⟩
  · rfl
  · simp only [Plan.relocate, Plan.map, Plan.andThen, Except.map, h.lock]
    cases ha : LockWord.addWriter (w (.lock i e)) with
    | acquired => simp [Edit.relocate]
    | busy => simp [Plan.answer]
    | reserved => exact absurd ha (hproper e).addWriter_ne_reserved

/-- What is found in one slot is found in the other. -/
theorem find_cases (txn : Txn) : (∃ x, w.find v p txn = .stop x ∧ u.find v' p txn = .stop x) ∨
    ∃ e? : Option EntryIndex, w.find v p txn = .answer (e?.map (i, ·)) ∧ u.find v' p txn = .answer (e?.map (j, ·)) := by
  simp only [find, hp, hq, withKey, h.entryWith?_eq]
  cases txn.key? with
  | none => exact .inl ⟨_, rfl, rfl⟩
  | some k => exact .inr ⟨_, rfl, rfl⟩

theorem releaseRead (txn : Txn) : u.releaseRead v' p txn = (w.releaseRead v p txn).relocate j := by
  simp only [Words.releaseRead]
  rcases h.find_cases hp hq txn with ⟨x, hfind, hfind'⟩ | ⟨_ | e, hfind, hfind'⟩ <;> rw [hfind, hfind']
  · rfl
  · rfl
  · simp only [Option.map_some, Plan.answer, Plan.andThen, h.lock]
    cases LockWord.removeReader? (w (.lock i e)) <;> rfl

theorem releaseWrite (txn : Txn) : u.releaseWrite v' p txn = (w.releaseWrite v p txn).relocate j := by
  simp only [Words.releaseWrite]
  rcases h.find_cases hp hq txn with ⟨x, hfind, hfind'⟩ | ⟨_ | e, hfind, hfind'⟩ <;> rw [hfind, hfind']
  · rfl
  · rfl
  · simp only [Option.map_some, Plan.answer, Plan.andThen, h.lock]
    split_ifs <;> rfl

/-- What is asked about the lock word of a version has the same answer in both slots. -/
theorem find_lock {α β : Type} (txn : Txn) (a : α) (f : LockWord → α) (g : α → β) :
    (u.find v' p txn).map (fun at? => g (at?.elim a fun (j, e) => f (u (.lock j e)))) =
      ((w.find v p txn).map fun at? => g (at?.elim a fun (i, e) => f (w (.lock i e)))).relocate j := by
  rcases h.find_cases hp hq txn with ⟨x, hfind, hfind'⟩ | ⟨_ | e, hfind, hfind'⟩ <;> rw [hfind, hfind']
  · rfl
  · rfl
  · exact congrArg (fun l => Plan.answer (g (f l))) (h.lock e)

theorem versions_eq : u.versions v' p = w.versions v p := by
  simp only [Words.versions, hp, hq, funext h.entryState_eq]

end Locks

end SameRow

end Words

/-! ### Calls -/

/-- The answer without the place of a slot. -/
def Answer.unplaced : Answer → Answer
  | slot i? => flag i?.isSome
  | a => a

theorem BoardCall.relocates_plan {w u : Words} {i j : Nat} {p : Partition} (hrow : w.SameRow i u j) (hw : w.Coherent)
    (hidle : ∀ i e, w (.key i e) = 0 → w (.lock i e) = 0) (hu : u.Coherent) (hi : w.Tracks i p) (hj : u.Tracks j p)
    {c : BoardCall} (hc : c.partition? = some p) :
    (c.plan u).1.map Answer.unplaced = (c.plan w).1.map Answer.unplaced ∧
      (c.plan u).2 = (c.plan w).2.map (Edit.relocate j) := by
  have hslot := hw.slot?_eq_some_iff.mpr hi
  have hslot' := hu.slot?_eq_some_iff.mpr hj
  have hproper := Words.proper_lock hw hidle i
  have of_eq : c.plan u = (c.plan w).relocate j → (c.plan u).1.map Answer.unplaced = (c.plan w).1.map Answer.unplaced ∧
      (c.plan u).2 = (c.plan w).2.map (Edit.relocate j) := by
    intro h
    rw [h]
    exact ⟨rfl, rfl⟩
  cases c with
  | add q txn =>
    obtain rfl : q = p := Option.some.inj hc
    refine of_eq ?_
    simp only [plan, Words.add, hslot, hslot', hrow.register hidle hi hj, Plan.relocate_map]
  | remove q txn =>
    obtain rfl : q = p := Option.some.inj hc
    refine of_eq ?_
    simp only [plan, Words.untrack, hslot, hslot', hrow.unregister, Plan.relocate_map]
  | table c =>
    cases c with
    | acquireRead q txn =>
      obtain rfl : q = p := Option.some.inj hc
      exact of_eq (congrArg (Plan.map Answer.flag) (hrow.acquireRead hidle hproper hslot hslot' txn))
    | acquireWrite q txn =>
      obtain rfl : q = p := Option.some.inj hc
      exact of_eq (congrArg (Plan.map Answer.flag) (hrow.acquireWrite hidle hproper hslot hslot' txn))
    | releaseRead q txn =>
      obtain rfl : q = p := Option.some.inj hc
      exact of_eq (congrArg (Plan.map fun _ => Answer.done) (hrow.releaseRead hslot hslot' txn))
    | releaseWrite q txn =>
      obtain rfl : q = p := Option.some.inj hc
      exact of_eq (congrArg (Plan.map fun _ => Answer.done) (hrow.releaseWrite hslot hslot' txn))
    | readerCount q txn =>
      obtain rfl : q = p := Option.some.inj hc
      exact of_eq (hrow.find_lock hslot hslot' txn 0 LockWord.readers Answer.count)
    | hasWriter q txn =>
      obtain rfl : q = p := Option.some.inj hc
      exact of_eq (hrow.find_lock hslot hslot' txn false LockWord.hasWriter Answer.flag)
    | slotOfVersion q txn =>
      obtain rfl : q = p := Option.some.inj hc
      simp only [plan, TableCall.plan]
      rcases hrow.find_cases hslot hslot' txn with ⟨x, hfind, hfind'⟩ | ⟨_ | e, hfind, hfind'⟩ <;> rw [hfind, hfind']
      · exact ⟨rfl, rfl⟩
      · exact ⟨rfl, rfl⟩
      · exact ⟨rfl, rfl⟩
    | versions q =>
      obtain rfl : q = p := Option.some.inj hc
      exact of_eq (congrArg (fun vs => Plan.answer (Answer.versions vs)) (hrow.versions_eq hslot hslot'))
    | _ => cases hc

end VersionBoard
