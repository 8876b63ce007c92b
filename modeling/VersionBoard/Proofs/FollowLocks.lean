import VersionBoard.Proofs.Follow

/-!
# Lock operations and questions follow their plans

The calls of `TableCall`, through a mapping of the first `n` bytes
(`TableCall.run_follows`). An operation that registers a version may move the
stamp by that itself; the second look then finds the entry where it was left,
so that no operation ever undoes itself when no other call is in between.
-/

namespace VersionBoard

/-- Where a version is that was registered in slot `i`. -/
def Registration.place (i : Nat) : Registration → Plan (Option (Nat × EntryIndex))
  | known e => .answer (some (i, e))
  | fresh e => .answer (some (i, e))
  | gone => .stop (.waits .anotherLook)

theorem Words.map_claim_eq_place (w : Words) (i : Nat) (p : Partition) (k : UInt64) :
    (w.claim i p k).map (fun e => some (i, e)) = ((w.claim i p k).map .fresh).andThen (Registration.place i) := by
  rcases w.claim i p k with ⟨_ | e, es⟩
  · rfl
  · simp [Plan.map, Plan.andThen, Registration.place, Plan.answer, Except.map]

namespace Table

open Mapping (upTo get_apply put_apply alter_apply exchange_of_none exchange_of_some)

variable {n : Nat} {f : Image}

/-! ### Finding the entry -/

theorem find_follows (hn : headerSize ≤ n) (p : Partition) (txn : Txn) :
    (find (upTo n) p txn).Follows f (f.cells.find (min f.cells.used (slotsIn n)) p txn) := by
  rw [Words.find]
  refine .after (slotOf_apply hn p) ?_
  cases hp : f.cells.slot? (min f.cells.used (slotsIn n)) p with
  | none => exact .pure _ f
  | some i =>
    have hi : i < slotsIn n := by
      have := (Words.of_slot? hp).1
      omega
    dsimp only [Words.withKey]
    cases hk : txn.key? with
    | none => exact .of_eq (Act.bind_of_error (entryOf_of_no_key hk))
    | some k => exact .after (entryOf_of_key hn hi hk) (.pure _ f)

theorem findOrRegister_follows [Processor] (hn : headerSize ≤ n) (hs : n ≤ f.size) (hl : ∀ i, f.cells (.slotLock i) = 0)
    (p : Partition) (txn : Txn) :
    (findOrRegister (upTo n) p txn).Follows f (f.cells.findOrRegister (min f.cells.used (slotsIn n)) p txn) := by
  rw [Words.findOrRegister]
  refine .after (slotOf_apply hn p) ?_
  cases hp : f.cells.slot? (min f.cells.used (slotsIn n)) p with
  | none => exact .pure _ f
  | some i =>
    obtain ⟨hv, htracks⟩ := Words.of_slot? hp
    have hi : i < slotsIn n := by omega
    dsimp only [Words.withKey]
    cases hk : txn.key? with
    | none => exact .of_eq (Act.bind_of_error (entryOf_of_no_key hk))
    | some k =>
      refine .after (entryOf_of_key hn hi hk) ?_
      cases he : f.cells.entryWith? i k with
      | some e => simpa only [he] using .pure _ f
      | none =>
        have hregister := register_follows hn hs hi (hl i) p txn
        have hplan : f.cells.register i p txn = (f.cells.claim i p k).map .fresh := by
          rw [Words.register, if_pos htracks, Words.withKey, hk]
          simp only [he]
        rw [hplan] at hregister
        simp only [he]
        rw [Words.map_claim_eq_place]
        refine hregister.bind ?_
        intro r _
        cases r with
        | known e => exact .pure _ _
        | fresh e => exact .pure _ _
        | gone => exact .of_eq rfl

/-- An entry that has not changed hands is found to belong to its version, whatever the stamp says. -/
theorem stillBelongs_apply (hn : headerSize ≤ n) {i : Nat} (hi : i < slotsIn n) {p : Partition} {e : EntryIndex}
    {txn : Txn} (hp : f.cells.Tracks i p) (hk : txn.key? = some (f.cells (.key i e))) (seen : UInt64) :
    stillBelongs (upTo n) seen i e p txn f = (.ok true, f) := by
  rw [stillBelongs, Act.bind_of_ok (stamp_apply hn)]
  split_ifs
  · rfl
  · refine Act.bind_of_ok (isSlotOf_apply hn hi p) |>.trans ?_
    rw [decide_eq_true hp, if_pos rfl, isEntryOf, Act.bind_of_ok (get_apply hn (.key i e) hi f),
      Act.bind_of_ok (keyOf_of_key hk), decide_eq_true rfl]
    rfl

/-! ### Taking locks -/

/-- An operation follows its plan if it does so from the entry on that it found or registered. -/
theorem locking_follows [Processor] {g : Option (Nat × EntryIndex) → Act Image Bool}
    {plan : Option (Nat × EntryIndex) → Plan Bool}
    (hn : headerSize ≤ n) (hs : n ≤ f.size) (hl : ∀ i, f.cells (.slotLock i) = 0) (p : Partition) (txn : Txn)
    (hnone : ∀ t, (g none).Follows t (plan none))
    (hsome : ∀ t : Image, n ≤ t.size → ∀ i e, i < slotsIn n → t.cells.Tracks i p →
      txn.key? = some (t.cells (.key i e)) → t.cells (.lock i e) = f.cells (.lock i e) →
      (g (some (i, e))).Follows t (plan (some (i, e)))) :
    (findOrRegister (upTo n) p txn >>= g).Follows f
      ((f.cells.findOrRegister (min f.cells.used (slotsIn n)) p txn).andThen plan) := by
  refine (findOrRegister_follows hn hs hl p txn).bind ?_
  intro r hr
  cases r with
  | none => exact hnone _
  | some x =>
    obtain ⟨i, e⟩ := x
    obtain ⟨hi, htracks, hkey, hlock⟩ := Words.of_findOrRegister hr
    have hcells : (f.edits (f.cells.findOrRegister (min f.cells.used (slotsIn n)) p txn).2).cells =
        f.cells.edits (f.cells.findOrRegister (min f.cells.used (slotsIn n)) p txn).2 := by
      refine Image.cells_edits fun ed hed => holds_of_lt_slotsIn hn hs ?_
      have := (Words.of_mem_findOrRegister hed).1
      omega
    refine hsome _ (by rw [Image.size_edits]; exact hs) i e (by omega) ?_ ?_ ?_
    · rwa [hcells]
    · rwa [hcells]
    · rw [hcells, hlock]

/-- Between the change of a lock word and the answer nothing happens: the entry still belongs to the version. -/
theorem stillBelongs_setCell (hn : headerSize ≤ n) (hs : n ≤ f.size) {i : Nat} (hi : i < slotsIn n) {p : Partition}
    {e : EntryIndex} {txn : Txn} (hp : f.cells.Tracks i p) (hk : txn.key? = some (f.cells (.key i e))) (w seen : UInt64) :
    stillBelongs (upTo n) seen i e p txn (f.setCell (.lock i e) w) = (.ok true, f.setCell (.lock i e) w) := by
  have hcells := Image.cells_setCell ((holds_of_lt_slotsIn hn hs hi).offset_add_le (c := .lock i e) (Nat.lt_succ_self i)) w
  refine stillBelongs_apply hn hi ?_ ?_ seen
  · rw [hcells]
    simpa [Words.Tracks, Words.Live, Words.set_apply] using hp
  · rw [hcells]
    simpa [Words.set_apply] using hk

theorem acquireRead_follows [Processor] (hn : headerSize ≤ n) (hs : n ≤ f.size) (hl : ∀ i, f.cells (.slotLock i) = 0)
    (p : Partition) (txn : Txn) :
    (acquireRead (upTo n) p txn).Follows f (f.cells.acquireRead (min f.cells.used (slotsIn n)) p txn) := by
  refine .after (stamp_apply hn) ?_
  refine locking_follows hn hs hl p txn (fun t => .pure _ t) fun t ht i e hi hp hk hlock => ?_
  simp only [← hlock]
  have hkept (h : (LockWord.addReader (t.cells (.lock i e))).after? = none) :=
    exchange_of_none hn (.lock i e) hi (fun w => (LockWord.addReader w).after?) h
  cases ha : LockWord.addReader (t.cells (.lock i e)) with
  | reserved =>
    refine .after (hkept (by rw [ha]; rfl)) ?_
    simpa only [ha] using .of_eq rfl
  | writer =>
    refine .after (hkept (by rw [ha]; rfl)) ?_
    simpa only [ha] using .pure _ t
  | overflow =>
    refine .after (hkept (by rw [ha]; rfl)) ?_
    simpa only [ha] using .of_eq rfl
  | added w =>
    have hadded := exchange_of_some hn (.lock i e) hi (fun w => (LockWord.addReader w).after?)
      (f := t) (v := w) (by rw [ha]; rfl)
    obtain ⟨rfl, -⟩ := LockWord.addReader_eq_added ha
    have hf := holds_of_lt_slotsIn hn ht hi
    have hcount := alter_written hn .readLocks trivial (· + 1) hf [(.lock i e, t.cells (.lock i e) + 1)]
      (by simp [Cell.Within])
    refine .of_eq (Act.bind_of_ok hadded |>.trans ?_)
    rw [ha]
    refine Act.bind_of_ok (stillBelongs_setCell hn ht hi hp hk _ _) |>.trans (Act.bind_of_ok hcount |>.trans ?_)
    rfl

theorem acquireWrite_follows [Processor] (hn : headerSize ≤ n) (hs : n ≤ f.size) (hl : ∀ i, f.cells (.slotLock i) = 0)
    (p : Partition) (txn : Txn) :
    (acquireWrite (upTo n) p txn).Follows f (f.cells.acquireWrite (min f.cells.used (slotsIn n)) p txn) := by
  refine .after (stamp_apply hn) ?_
  refine locking_follows hn hs hl p txn (fun t => .pure _ t) fun t ht i e hi hp hk hlock => ?_
  refine .after (get_apply hn (.lock i e) hi t) ?_
  simp only [← hlock]
  cases ha : LockWord.addWriter (t.cells (.lock i e)) with
  | reserved => exact .of_eq rfl
  | busy => exact .pure _ t
  | acquired w =>
    obtain ⟨rfl, -⟩ := LockWord.addWriter_eq_acquired ha
    dsimp only
    refine .of_eq (Act.bind_of_ok (put_apply hn (.lock i e) hi _ t) |>.trans
      (Act.bind_of_ok (stillBelongs_setCell hn ht hi hp hk _ _) |>.trans ?_))
    rfl

/-! ### Giving locks back -/

/-- An operation on a registered version follows its plan if it does so from its entry on. -/
theorem releasing_follows {α : Type} {g : Option (Nat × EntryIndex) → Act Image α}
    {plan : Option (Nat × EntryIndex) → Plan α} (hn : headerSize ≤ n) (p : Partition) (txn : Txn)
    (hnone : (g none).Follows f (plan none)) (hsome : ∀ i e, i < slotsIn n → (g (some (i, e))).Follows f (plan (some (i, e)))) :
    (find (upTo n) p txn >>= g).Follows f ((f.cells.find (min f.cells.used (slotsIn n)) p txn).andThen plan) := by
  refine (find_follows hn p txn).bind ?_
  intro r hr
  rw [Words.edits_find, Image.edits_nil]
  cases r with
  | none => exact hnone
  | some x =>
    have := (Words.of_find hr).1
    exact hsome x.1 x.2 (by omega)

theorem releaseRead_follows [Processor] (hn : headerSize ≤ n) (hs : n ≤ f.size) (p : Partition) (txn : Txn) :
    (releaseRead (upTo n) p txn).Follows f (f.cells.releaseRead (min f.cells.used (slotsIn n)) p txn) := by
  refine releasing_follows hn p txn (.of_eq rfl) ?_
  intro i e hi
  dsimp only
  cases hr : LockWord.removeReader? (f.cells (.lock i e)) with
  | none =>
    refine .after (exchange_of_none hn (.lock i e) hi LockWord.removeReader? hr) ?_
    simpa only [hr] using .of_eq rfl
  | some w =>
    have hdropped := exchange_of_some hn (.lock i e) hi LockWord.removeReader? hr
    obtain ⟨rfl, -⟩ := LockWord.removeReader?_eq_some hr
    have hf := holds_of_lt_slotsIn hn hs hi
    have hcount := alter_written hn .readLocks trivial (· - 1) hf [(.lock i e, f.cells (.lock i e) - 1)]
      (by simp [Cell.Within])
    refine .of_eq (Act.bind_of_ok hdropped |>.trans ?_)
    rw [hr]
    exact hcount

theorem releaseWrite_follows (hn : headerSize ≤ n) (p : Partition) (txn : Txn) :
    (releaseWrite (upTo n) p txn).Follows f (f.cells.releaseWrite (min f.cells.used (slotsIn n)) p txn) := by
  refine releasing_follows hn p txn (.of_eq rfl) ?_
  intro i e hi
  refine .after (get_apply hn (.lock i e) hi f) ?_
  have hput := put_apply hn (.lock i e) hi (LockWord.removeWriter (f.cells (.lock i e))) f
  cases hw : LockWord.hasWriter (f.cells (.lock i e)) with
  | true =>
    simp only [hw, if_true]
    refine .of_eq (Act.bind_of_ok hput |>.trans ?_)
    rfl
  | false =>
    rw [LockWord.removeWriter_of_not_hasWriter hw, Image.setCell_cells] at hput
    simp only [hw, Bool.false_eq_true, if_false]
    refine .of_eq (Act.bind_of_ok (LockWord.removeWriter_of_not_hasWriter hw ▸ hput) |>.trans ?_)
    rfl

/-! ### Questions -/

theorem readerCount_follows (hn : headerSize ≤ n) (p : Partition) (txn : Txn) :
    (readerCount (upTo n) p txn).Follows f ((f.cells.find (min f.cells.used (slotsIn n)) p txn).map fun at? =>
      at?.elim 0 fun (i, e) => LockWord.readers (f.cells (.lock i e))) := by
  rw [Plan.map_eq_andThen]
  refine releasing_follows hn p txn (.pure _ f) ?_
  intro i e hi
  exact .after (get_apply hn (.lock i e) hi f) (.pure _ f)

theorem hasWriter_follows (hn : headerSize ≤ n) (p : Partition) (txn : Txn) :
    (hasWriter (upTo n) p txn).Follows f ((f.cells.find (min f.cells.used (slotsIn n)) p txn).map fun at? =>
      at?.elim false fun (i, e) => LockWord.hasWriter (f.cells (.lock i e))) := by
  rw [Plan.map_eq_andThen]
  refine releasing_follows hn p txn (.pure _ f) ?_
  intro i e hi
  exact .after (get_apply hn (.lock i e) hi f) (.pure _ f)

theorem slotOfVersion_follows (hn : headerSize ≤ n) (p : Partition) (txn : Txn) :
    (slotOfVersion (upTo n) p txn).Follows f
      ((f.cells.find (min f.cells.used (slotsIn n)) p txn).map fun at? => at?.map (·.1)) := by
  rw [Plan.map_eq_andThen]
  exact releasing_follows hn p txn (.pure _ f) fun i e _ => .pure _ f

theorem versions_follows (hn : headerSize ≤ n) (p : Partition) :
    (versions (upTo n) p).Follows f (.answer (f.cells.versions (min f.cells.used (slotsIn n)) p)) := by
  refine .after (slotOf_apply hn p) ?_
  rw [Words.versions]
  cases hp : f.cells.slot? (min f.cells.used (slotsIn n)) p with
  | none => exact .pure _ f
  | some i =>
    have hi : i < slotsIn n := by
      have := (Words.of_slot? hp).1
      omega
    exact .after (Act.mapM_query fun e => entryState_apply hn hi e) (.pure _ f)

end Table

/-- Through a mapping of the first bytes, every call does what its plan says. -/
theorem TableCall.run_follows [Processor] {n : Nat} {f : Image} (hn : headerSize ≤ n) (hs : n ≤ f.size)
    (hl : ∀ i, f.cells (.slotLock i) = 0) (c : TableCall) :
    (c.run (Mapping.upTo n)).Follows f (c.plan f.cells (min f.cells.used (slotsIn n))) := by
  cases c with
  | acquireRead p txn => exact (Table.acquireRead_follows hn hs hl p txn).map _
  | releaseRead p txn => exact (Table.releaseRead_follows hn hs p txn).map _
  | acquireWrite p txn => exact (Table.acquireWrite_follows hn hs hl p txn).map _
  | releaseWrite p txn => exact (Table.releaseWrite_follows hn p txn).map _
  | readerCount p txn =>
    have h := (Table.readerCount_follows (f := f) hn p txn).map Answer.count
    rwa [Plan.map_map] at h
  | hasWriter p txn =>
    have h := (Table.hasWriter_follows (f := f) hn p txn).map Answer.flag
    rwa [Plan.map_map] at h
  | slotOfVersion p txn =>
    have h := (Table.slotOfVersion_follows (f := f) hn p txn).map Answer.slot
    rwa [Plan.map_map] at h
  | versions p => exact (Table.versions_follows hn p).map _
  | readLocks => exact .after (Mapping.get_apply hn .readLocks trivial f) (.pure _ f)
  | partitionCount => exact .after (Mapping.get_apply hn .liveSlots trivial f) (.pure _ f)
  | stamp => exact .after (Table.stamp_apply hn) (.pure _ f)

end VersionBoard
