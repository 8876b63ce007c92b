import VersionBoard.Proofs.Grants

/-!
# Adding and removing versions

Between whole calls the table says what comes of adding a version and of removing
one. A version that is registered is not added again; a new one gets its seat in
the slot of its partition, or there is no place for it; and if its partition is
not tracked, it is alone in a slot that was retired or never used
(`Words.Adds`). A version is removed if it is registered and nobody holds it, and
its partition is tracked on just if it has other versions (`Words.Removes`).
Either call leaves all other partitions as they are, and without a success it
leaves the file as it is (`Shared.changes_exact`).
-/

namespace VersionBoard

namespace Words

variable {w v : Words} {p q : Partition} {txn t : Txn} {i j : Nat} {d e : EntryIndex} {c : BoardCall}

/-! ### Other partitions -/

/-- Nothing becomes of any partition but `p`: the slots of the others, their versions and the locks on these are the
same in `v` as in `w`. Nor are there more read locks, or fewer. -/
structure Spares (w : Words) (p : Partition) (v : Words) : Prop where
  tracks : ∀ q, q ≠ p → ∀ j, v.Tracks j q ↔ w.Tracks j q
  row : ∀ q, q ≠ p → ∀ j, w.Tracks j q → w.SameRow j v j
  readLocks : v .readLocks = w .readLocks

theorem Spares.refl (w : Words) (p : Partition) : w.Spares p w :=
  ⟨fun _ _ _ => .rfl, fun _ _ _ _ => ⟨fun _ => rfl, fun _ => rfl⟩, rfl⟩

/-- A call about a partition spares the others, if it is not about locks. -/
theorem Coherent.spares_tell (h : w.Coherent) (hc : c.partition? = some p)
    (hlocks : w.tell c .readLocks = w .readLocks) : w.Spares p (w.tell c) where
  tracks _ hq := h.tracks_tell_of_ne fun heq => hq (Option.some.inj (heq.symm.trans hc))
  row _ hq _ := h.sameRow_tell_of_ne fun heq => hq (Option.some.inj (heq.symm.trans hc))
  readLocks := hlocks

/-! ### The next slot -/

/-- Slot `i` is the lowest retired one, or there is none and it is the first one that was never used. -/
def Vacates (w : Words) (i : Nat) : Prop :=
  IsLeast {j | w (.state j) = SlotState.retired} i ∨ (∀ j, w (.state j) ≠ SlotState.retired) ∧ i = w.used

theorem Coherent.vacates_next (h : w.Coherent) : w.Vacates (w.next w.used) := by
  have hretired : ∀ j, w (.state j) = SlotState.retired → j < w.used := by
    intro j hj
    by_contra hle
    rw [h.unused j (by omega)] at hj
    exact absurd hj (by decide)
  rw [next]
  cases hfind : (List.range w.used).find? fun i => w (.state i) = SlotState.retired with
  | none =>
    refine .inr ⟨fun j hj => ?_, rfl⟩
    simpa [hj] using List.find?_eq_none.mp hfind j (List.mem_range.mpr (hretired j hj))
  | some i =>
    obtain ⟨hi, -, hbefore⟩ := List.find?_range_eq_some.mp hfind
    refine .inl ⟨by simpa using hi, fun j hj => ?_⟩
    by_contra hlt
    simpa [show w (.state j) = SlotState.retired from hj] using hbefore j (by simpa using hlt)

/-! ### Adding a version -/

/-- Where a version goes that is added: `v` are the words once it has entry `e` of slot `i`. -/
inductive Places (w : Words) (p : Partition) (txn : Txn) (i : Nat) (e : EntryIndex) : Words → Prop
  /-- In the slot of its partition it gets its seat. -/
  | seat {v : Words} (hseats : w.Seats p txn i e v) : w.Places p txn i e v
  /-- If the partition is not tracked, it gets the next slot. -/
  | slot (hp : ∀ j, ¬ w.Tracks j p) (hi : w.Vacates i) : w.Places p txn i e (w.edit (.track i e p (txn.number + 1)))

/-- What adding version `txn` of `p` comes to: the outcome `o`, and the words `v` where there were `w`. -/
structure Adds (w : Words) (p : Partition) (txn : Txn) (o : Except Halt Answer) (v : Words) : Prop where
  /-- It is not added just if it is registered. -/
  known : o = .ok (.flag false) ↔ w.Registered p txn
  /-- It fails just if there is no place for it. -/
  exhausted : o = .error (.failed (.versionsExhausted p entriesPerSlot)) ↔ w.Crowded p txn
  /-- These are all outcomes without a success, and they change nothing. -/
  unchanged : o ≠ .ok (.flag true) →
    v = w ∧ o ∈ [.ok (.flag false), .error (.failed (.versionsExhausted p entriesPerSlot))]
  /-- Else it is registered and nobody holds it. If its partition was not tracked, it is the only version. -/
  added : o = .ok (.flag true) → ∃ i e, w.Places p txn i e v ∧ v.RegisteredAt p txn i e ∧ v (.lock i e) = 0 ∧
    ((∀ j, ¬ w.Tracks j p) → ∀ t, v.Registered p t → t = txn)
  /-- Other partitions stay as they are. -/
  spares : w.Spares p v

/-- A version that is alone in its slot is the only one of its partition. -/
theorem Coherent.eq_of_alone (h : w.Coherent) (hat : w.RegisteredAt p txn i e) (halone : w.Alone i e)
    (hat' : w.RegisteredAt p t j d) : j = i ∧ d = e ∧ t = txn := by
  obtain rfl := h.unique j i p hat'.1 hat.1
  obtain rfl : d = e := by
    by_contra hne
    exact Txn.ne_zero_of_key? hat'.2 (halone d hne)
  exact ⟨rfl, rfl, (hat.version_inj hat').2⟩

section Adding

variable (h : w.Calm) (htxn : txn.number ≤ Txn.max.number)

include h

theorem Calm.plan_add_of_registered (hat : w.RegisteredAt p txn i e) :
    (BoardCall.add p txn).plan w = .answer (.flag false) := by
  have hentry := (h.entryWith?_eq_some_iff (Txn.ne_zero_of_key? hat.2) (i := i) (e := e)).mpr rfl
  simp only [BoardCall.plan, Words.add, h.slot?_eq_some_iff.mpr hat.1, register, if_pos hat.1, withKey, hat.2, hentry]
  rfl

/-- A registered version is not added again. -/
theorem Calm.adds_of_registered (hat : w.RegisteredAt p txn i e) :
    w.Adds p txn ((BoardCall.add p txn).plan w).1 (w.tell (.add p txn)) := by
  have hplan := h.plan_add_of_registered hat
  have htell : w.tell (.add p txn) = w := by
    rw [Words.tell, hplan]
    rfl
  rw [htell, hplan]
  exact {
    known := iff_of_true rfl ⟨i, e, hat⟩
    exhausted := iff_of_false (by simp [Plan.answer]) fun hcrowded => hcrowded.1 ⟨i, e, hat⟩
    unchanged := fun _ => ⟨rfl, .head _⟩
    added := by simp [Plan.answer]
    spares := .refl w p }

/-- In the next slot a version is alone. -/
theorem Calm.alone_track (e : EntryIndex) (p : Partition) (k : UInt64) :
    (w.edit (.track (w.next w.used) e p k)).Alone (w.next w.used) e := by
  intro d hd
  rw [key_edit_of_ne fun k hk => hd (by simp_all [Edit.keyed])]
  exact (h.next_empty d).1

include htxn

theorem Calm.plan_add_of_tracks (hi : w.Tracks i p) (hnew : ¬ w.Registered p txn) :
    (BoardCall.add p txn).plan w = (w.claim i p (txn.number + 1)).map fun _ => .flag true := by
  have hk := Txn.key?_of_le htxn
  simp only [BoardCall.plan, Words.add, h.slot?_eq_some_iff.mpr hi, register, if_pos hi, withKey, hk,
    entryWith?_eq_none hi hnew hk, Plan.map_map]
  rfl

/-- A new version of a partition with a slot gets its seat there, or there is no place for it. -/
theorem Calm.adds_of_tracks (hi : w.Tracks i p) (hnew : ¬ w.Registered p txn) :
    w.Adds p txn ((BoardCall.add p txn).plan w).1 (w.tell (.add p txn)) := by
  have hplan := h.plan_add_of_tracks htxn hi hnew
  rcases h.claim_cases hi hnew with ⟨e, u, hseats, hok, hedits⟩ | ⟨hcrowded, hstop⟩
  · have htell : w.tell (.add p txn) = u := by
      rw [Words.tell, hplan]
      exact hedits
    have hout : ((BoardCall.add p txn).plan w).1 = .ok (.flag true) := by
      rw [hplan, Plan.map, hok]
      rfl
    have hspares := h.spares_tell (c := .add p txn) rfl (by rw [htell]; exact hseats.apply_of_ne (by simp) (by simp))
    rw [htell] at hspares
    rw [htell, hout]
    exact {
      known := iff_of_false (by simp) hnew
      exhausted := iff_of_false (by simp) (hseats.not_crowded h)
      unchanged := fun hne => absurd rfl hne
      added := fun _ => ⟨i, e, .seat hseats, hseats.registeredAt htxn,
        (hseats.lock_eq i e).trans (hseats.lock_eq_zero h), fun hnone => absurd hi (hnone i)⟩
      spares := hspares }
  · rw [hstop] at hplan
    have htell : w.tell (.add p txn) = w := by
      rw [Words.tell, hplan]
      rfl
    rw [htell, hplan]
    exact {
      known := iff_of_false (by simp [Plan.stop, Plan.map, Except.map]) hnew
      exhausted := iff_of_true rfl hcrowded
      unchanged := fun _ => ⟨rfl, .tail _ (.head _)⟩
      added := by simp [Plan.stop, Plan.map, Except.map]
      spares := .refl w p }

/-- A partition without a slot gets the next one, and the new version is the only one there. -/
theorem Calm.adds_of_untracked (hnone : ∀ j, ¬ w.Tracks j p) (hroom : sizeFor (w.used + 1) ≤ Region.maxSize) :
    w.Adds p txn ((BoardCall.add p txn).plan w).1 (w.tell (.add p txn)) := by
  have hk := Txn.key?_of_le htxn
  obtain ⟨e, hfree, hplan⟩ := h.plan_add (slot?_eq_none_iff.mpr fun i _ => hnone i) hroom hk
  have htell : w.tell (.add p txn) = w.edit (.track (w.next w.used) e p (txn.number + 1)) := by
    rw [Words.tell, hplan]
    rfl
  have hspares := h.spares_tell (c := .add p txn) rfl (by rw [htell]; exact readLocks_edit_of_still rfl)
  have hcoherent := h.toCoherent.tell (.add p txn)
  rw [htell] at hspares hcoherent
  have hat : (w.edit (.track (w.next w.used) e p (txn.number + 1))).RegisteredAt p txn (w.next w.used) e :=
    ⟨tracks_edit_track .., by rw [key_edit_of_keyed rfl]; exact hk⟩
  rw [htell, hplan]
  refine {
    known := iff_of_false (by simp) (not_registered_of_untracked hnone)
    exhausted := iff_of_false (by simp) (not_crowded_of_untracked hnone)
    unchanged := fun hne => absurd rfl hne
    added := fun _ => ⟨w.next w.used, e, .slot hnone h.vacates_next, hat, ?_, fun _ t ht => ?_⟩
    spares := hspares }
  · rw [lock_edit_of_ne (by simp [Edit.locked])]
    exact (h.next_empty e).2
  · obtain ⟨j, d, hat'⟩ := ht
    exact (hcoherent.eq_of_alone hat (h.alone_track e p _) hat').2.2

/-- Adding a version comes to what it must. -/
theorem Calm.adds (hroom : sizeFor (w.used + 1) ≤ Region.maxSize) :
    w.Adds p txn ((BoardCall.add p txn).plan w).1 (w.tell (.add p txn)) := by
  by_cases hreg : w.Registered p txn
  · obtain ⟨i, e, hat⟩ := hreg
    exact h.adds_of_registered hat
  by_cases hp : ∃ i, w.Tracks i p
  · obtain ⟨i, hi⟩ := hp
    exact h.adds_of_tracks htxn hi hreg
  · exact h.adds_of_untracked htxn (not_exists.mp hp) hroom

end Adding

/-! ### Removing a version -/

/-- What removing version `txn` of `p` comes to: the outcome `o`, and the words `v` where there were `w`. -/
structure Removes (w : Words) (p : Partition) (txn : Txn) (o : Except Halt Answer) (v : Words) : Prop where
  /-- It is removed just if it is registered and nobody holds it. -/
  removed : o = .ok (.flag true) ↔ ∃ i e, w.RegisteredAt p txn i e ∧ ¬ LockWord.InUse (w (.lock i e))
  /-- Else it is not, and nothing changes. -/
  unchanged : o ≠ .ok (.flag true) → v = w ∧ o = .ok (.flag false)
  /-- Once it is removed, its partition has all versions but this one, in the entries where they were. -/
  others : o = .ok (.flag true) → ∀ t i e, v.RegisteredAt p t i e ↔ w.RegisteredAt p t i e ∧ t ≠ txn
  /-- It is tracked on just if there was another version. -/
  tracked : o = .ok (.flag true) → ((∃ i, v.Tracks i p) ↔ ∃ t, w.Registered p t ∧ t ≠ txn)
  /-- Nobody gets a lock or gives it back. -/
  locks : ∀ i e, v (.lock i e) = w (.lock i e)
  /-- Other partitions stay as they are. -/
  spares : w.Spares p v

/-- A partition is tracked just if it has a version. -/
theorem Coherent.tracked_iff (h : w.Coherent) : (∃ i, w.Tracks i p) ↔ ∃ t, w.Registered p t := by
  constructor
  · rintro ⟨i, hi⟩
    obtain ⟨e, he⟩ := (h.peopled i).mp hi.1
    obtain ⟨q, t, hat⟩ := h.exists_registeredAt he
    obtain rfl : q = p := hat.1.2.symm.trans hi.2
    exact ⟨t, i, e, hat⟩
  · rintro ⟨t, i, e, hat⟩
    exact ⟨i, hat.1⟩

/-- The edit that removes a version takes it out of its entry and leaves the partition its other versions. -/
theorem Coherent.registeredAt_unregister (h : w.Coherent) (hat : w.RegisteredAt p txn i e) (j : Nat) (d : EntryIndex) :
    (w.edit (if w.Alone i e then .retire i e else .unregister i e)).RegisteredAt p t j d ↔
      w.RegisteredAt p t j d ∧ t ≠ txn := by
  split_ifs with halone
  · refine iff_of_false (fun hat' => ?_) fun hother => hother.2 (h.eq_of_alone hat halone hother.1).2.2
    have htracks := hat'.1
    have hj : j ≠ i := by
      rintro rfl
      rw [Tracks, Live, state_edit_of_stated rfl] at htracks
      exact absurd htracks.1 (by decide)
    rw [Tracks, Live, state_edit_of_slot_ne hj, partition_edit_of_slot_ne hj] at htracks
    exact hj (h.unique j i p htracks hat.1)
  · rw [RegisteredAt, Tracks, Live, state_edit_of_ne (by simp [Edit.stated]), partition_edit_of_ne (by simp [Edit.named])]
    by_cases hsame : j = i ∧ d = e
    · obtain ⟨rfl, rfl⟩ := hsame
      rw [key_edit_of_keyed rfl]
      exact iff_of_false (fun hat' => Txn.ne_zero_of_key? hat'.2 rfl) fun hother => hother.2 (hat.version_inj hother.1).2
    · rw [key_edit_of_ne fun k hk => hsame (by simp_all [Edit.keyed])]
      refine ⟨fun hat' => ⟨hat', ?_⟩, And.left⟩
      rintro rfl
      exact hsame (h.registeredAt_unique hat hat')

section Removing

variable (h : w.Calm)

include h

theorem Calm.plan_remove_of_registered (hat : w.RegisteredAt p txn i e) : (BoardCall.remove p txn).plan w =
    if w (.lock i e) = 0 then (.ok (.flag true), [if w.Alone i e then .retire i e else .unregister i e])
    else Plan.answer (.flag false) := by
  have hentry := (h.entryWith?_eq_some_iff (Txn.ne_zero_of_key? hat.2) (i := i) (e := e)).mpr rfl
  simp only [BoardCall.plan, untrack, h.slot?_eq_some_iff.mpr hat.1, unregister, withKey, hat.2, hentry]
  split_ifs <;> rfl

theorem Calm.plan_remove_of_unregistered (hnew : ¬ w.Registered p txn) (htxn : txn.number ≤ Txn.max.number) :
    (BoardCall.remove p txn).plan w = .answer (.flag false) := by
  cases hslot : w.slot? w.used p with
  | none =>
    simp only [BoardCall.plan, untrack, hslot]
    rfl
  | some i =>
    have hk := Txn.key?_of_le htxn
    have hentry := entryWith?_eq_none (h.slot?_eq_some_iff.mp hslot) hnew hk
    simp only [BoardCall.plan, untrack, hslot, unregister, withKey, hk, hentry]
    rfl

/-- A version that nobody holds is removed. -/
theorem Calm.removes_of_free (hat : w.RegisteredAt p txn i e) (hlock : w (.lock i e) = 0) :
    w.Removes p txn ((BoardCall.remove p txn).plan w).1 (w.tell (.remove p txn)) := by
  have hplan := h.plan_remove_of_registered hat
  rw [if_pos hlock] at hplan
  have htell : w.tell (.remove p txn) = w.edit (if w.Alone i e then .retire i e else .unregister i e) := by
    rw [Words.tell, hplan]
    rfl
  have hlocked : (if w.Alone i e then Edit.retire i e else .unregister i e).locked = none := by
    split_ifs <;> rfl
  have hspares := h.spares_tell (c := .remove p txn) rfl (by rw [htell]; exact readLocks_edit_of_still hlocked)
  have hcoherent := h.toCoherent.tell (.remove p txn)
  have hothers : ∀ t j d, (w.tell (.remove p txn)).RegisteredAt p t j d ↔ w.RegisteredAt p t j d ∧ t ≠ txn := by
    rw [htell]
    exact fun t => h.registeredAt_unregister hat
  rw [hplan]
  refine {
    removed := iff_of_true rfl ⟨i, e, hat, by rw [hlock]; exact LockWord.not_inUse_zero⟩
    unchanged := fun hne => absurd rfl hne
    others := fun _ => hothers
    tracked := fun _ => ?_
    locks := fun j d => ?_
    spares := hspares }
  · rw [hcoherent.tracked_iff]
    simp only [Registered, hothers]
    exact exists_congr fun t => by simp
  · rw [htell, lock_edit_of_ne (by simp [hlocked])]

/-- Without a version that nobody holds, nothing changes. -/
theorem Calm.removes_of_not_free (htxn : txn.number ≤ Txn.max.number)
    (hheld : ¬ ∃ i e, w.RegisteredAt p txn i e ∧ ¬ LockWord.InUse (w (.lock i e))) :
    w.Removes p txn ((BoardCall.remove p txn).plan w).1 (w.tell (.remove p txn)) := by
  have hplan : (BoardCall.remove p txn).plan w = .answer (.flag false) := by
    by_cases hreg : w.Registered p txn
    · obtain ⟨i, e, hat⟩ := hreg
      have hlock : w (.lock i e) ≠ 0 := fun hlock =>
        hheld ⟨i, e, hat, by rw [hlock]; exact LockWord.not_inUse_zero⟩
      rw [h.plan_remove_of_registered hat, if_neg hlock]
    · exact h.plan_remove_of_unregistered hreg htxn
  have htell : w.tell (.remove p txn) = w := by
    rw [Words.tell, hplan]
    rfl
  rw [htell, hplan]
  exact {
    removed := iff_of_false (by simp [Plan.answer]) hheld
    unchanged := fun _ => ⟨rfl, rfl⟩
    others := by simp [Plan.answer]
    tracked := by simp [Plan.answer]
    locks := fun _ _ => rfl
    spares := .refl w p }

/-- Removing a version comes to what it must. -/
theorem Calm.removes (htxn : txn.number ≤ Txn.max.number) :
    w.Removes p txn ((BoardCall.remove p txn).plan w).1 (w.tell (.remove p txn)) := by
  by_cases hheld : ∃ i e, w.RegisteredAt p txn i e ∧ ¬ LockWord.InUse (w (.lock i e))
  · obtain ⟨i, e, hat, hfree⟩ := hheld
    -- while no call is under way, a lock word that is not in use is zero
    refine h.removes_of_free hat (not_not.mp fun hne => hfree ?_)
    exact (proper_lock h.toCoherent h.idle i e).inUse_iff.mpr hne
  · exact h.removes_of_not_free htxn hheld

end Removing

end Words

/-! ### Requests -/

namespace Image

variable {f : Image} {p : Partition}

/-- A call that needs no more than the file has leaves it as long as it is. -/
theorem size_tell_of_le {c : BoardCall} (h : Board.need f.cells c ≤ f.size) : (f.tell c).size = f.size := by
  rw [tell, size_edits, Region.roomFor_of_le h, size_grow, Nat.max_self]

/-- So does adding a version to a partition that is tracked. -/
theorem size_tell_add (h : f.Coherent) (hp : ∃ i, f.cells.Tracks i p) (txn : Txn) : (f.tell (.add p txn)).size = f.size := by
  obtain ⟨i, hi⟩ := hp
  refine size_tell_of_le ?_
  rw [Board.need, h.table.slot?_eq_some_iff.mpr hi, if_neg (Option.some_ne_none i)]
  exact h.fits

end Image

namespace Shared

variable {s : Shared} {name : String} {h : Handle}

/-- By way of an open handle whose host refuses nothing, adding a version and removing it come to what the table says.
Without a success they leave the file as it was. -/
theorem changes_exact [Processor] (hs : s.Reached) (hget : s.handles.get? name = some h) (hopen : h.isOpen = true)
    (hw : h.region.host.Willing) (hsize : ∀ f ∈ s.file?, f.size < 2 ^ 63) (p : Partition)
    (txn : Txn) (htxn : txn.number ≤ Txn.max.number) :
    (∃ f o g, s.CarriesOut name (.add p txn) f o g ∧ f.cells.Adds p txn o g.cells ∧ (o ≠ .ok (.flag true) → g = f)) ∧
      ∃ f o g, s.CarriesOut name (.remove p txn) f o g ∧ f.cells.Removes p txn o g.cells ∧ g.size = f.size ∧
        (o ≠ .ok (.flag true) → g = f) := by
  have hkeys : ∀ t ∈ some txn, t.number ≤ Txn.max.number := fun t ht => Option.some.inj ht ▸ htxn
  constructor
  · obtain ⟨f, hsound, hcall, hcells⟩ := hs.carriesOut (c := .add p txn) hget hopen hw hkeys
    have hadds := Words.Calm.adds (p := p) ⟨hsound.table, hsound.idle⟩ htxn (hsound.room (hsize _ hcall.before))
    rw [← hcells] at hadds
    refine ⟨f, _, _, hcall, hadds, fun hne => hcall.eq (Image.size_tell_add hsound.toCoherent ?_ txn) (hadds.unchanged hne).1⟩
    obtain ⟨-, hout⟩ := hadds.unchanged hne
    rcases List.mem_cons.mp hout with hknown | hout
    · obtain ⟨i, e, hat⟩ := hadds.known.mp hknown
      exact ⟨i, hat.1⟩
    · obtain ⟨-, i, hi, -⟩ := hadds.exhausted.mp (List.mem_singleton.mp hout)
      exact ⟨i, hi⟩
  · obtain ⟨f, hsound, hcall, hcells⟩ := hs.carriesOut (c := .remove p txn) hget hopen hw hkeys
    have hremoves := Words.Calm.removes (p := p) ⟨hsound.table, hsound.idle⟩ htxn
    have hlength : (f.tell (.remove p txn)).size = f.size := Image.size_tell_of_le hsound.fits
    rw [← hcells] at hremoves
    exact ⟨f, _, _, hcall, hremoves, hlength, fun hne => hcall.eq hlength (hremoves.unchanged hne).1⟩

/-- The slot that one of two partitions has left is the next one for a third, of which there is nothing to remove yet. -/
theorem changes_exact_of_retired_slot :
    let add (p : Int64) : Request := .call "a" (.add ⟨p⟩ ⟨7⟩)
    let rs : List Request := [.openBoard "a" "board" .willing .default, add 5, add 6, .call "a" (.remove ⟨5⟩ ⟨7⟩)]
    ∃ f g, (created.run rs).2.CarriesOut "a" (.add ⟨9⟩ ⟨7⟩) f (.ok (.flag true)) g ∧
      f.cells.Adds ⟨9⟩ ⟨7⟩ (.ok (.flag true)) g.cells ∧ g.cells.RegisteredAt ⟨9⟩ ⟨7⟩ 0 ⟨0, by decide⟩ ∧
      (created.run rs).2.CarriesOut "a" (.remove ⟨9⟩ ⟨7⟩) f (.ok (.flag false)) f := by
  intro add rs
  have hkeys : ∀ r ∈ rs, r.Trackable := by decide
  have hwilling : ∀ r ∈ rs, r.Willing := by simp [rs, add, Request.Willing, Host.willing_willing]
  have hw := reached_created.willing_run willing_created fun r hr => ⟨hkeys r hr, hwilling r hr⟩
  have hrun : ((created.run rs).2.handles.get? "a").map Handle.isOpen = some true ∧
      (∀ f ∈ (created.run rs).2.file?, f.size < 2 ^ 63) ∧
      ((created.run rs).2.step (.call "a" (.add ⟨9⟩ ⟨7⟩))).1.map (·.outcome) = some (.ok (.flag true)) ∧
      (∀ g ∈ ((created.run rs).2.step (.call "a" (.add ⟨9⟩ ⟨7⟩))).2.file?,
        g.cells.RegisteredAt ⟨9⟩ ⟨7⟩ 0 ⟨0, by decide⟩) ∧
      ((created.run rs).2.step (.call "a" (.remove ⟨9⟩ ⟨7⟩))).1.map (·.outcome) = some (.ok (.flag false)) := by
    decide +kernel
  obtain ⟨hhas, hsize, hadded, hat, hnone⟩ := hrun
  obtain ⟨h, hget, hopen⟩ := Option.map_eq_some_iff.mp hhas
  obtain ⟨⟨f, o, g, hcall, hadds, -⟩, f', o', g', hcall', -, -, hsame⟩ :=
    changes_exact (reached_created.run hkeys) hget hopen (hw "a" h hget) hsize ⟨9⟩ ⟨7⟩ (by decide)
  obtain rfl : o = .ok (.flag true) := Option.some.inj (hcall.outcome.symm.trans hadded)
  obtain rfl : o' = .ok (.flag false) := Option.some.inj (hcall'.outcome.symm.trans hnone)
  obtain rfl : f' = f := Option.some.inj (hcall'.before.symm.trans hcall.before)
  obtain rfl := hsame (by simp)
  exact ⟨g', g, hcall, hadds, hat _ hcall.after, hcall'⟩

end Shared

end VersionBoard
