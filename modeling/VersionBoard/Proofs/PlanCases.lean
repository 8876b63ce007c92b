import VersionBoard.Proofs.LockWords
import VersionBoard.Proofs.Plan

/-!
# What plans can be

What a plan of each kind can come to, and so where it edits. To add or remove a
version makes one edit at most (`Words.add_cases`, `Words.register_cases`,
`Words.track_cases`, `Words.untrack_cases`). A lock operation ends without a
change of the lock word, or it changes the lock word of the version's entry and
that is the last thing it does (`LockMode.acquire_cases`,
`LockMode.release_cases`). A plan without an answer makes no edits, unless it
abandons a slot (`BoardCall.edits_of_error`).
-/

namespace VersionBoard

/-- What a plan answers with a place in slot `i` was found in that slot. -/
theorem Plan.of_map_eq_ok {plan : Plan EntryIndex} {i j : Nat} {e : EntryIndex}
    (h : (plan.map fun d => some (i, d)).1 = .ok (some (j, e))) : plan.1 = .ok e ∧ i = j := by
  rcases plan with ⟨_ | d, es⟩
  · cases h
  · cases h
    exact ⟨rfl, rfl⟩

namespace Words

variable {w : Words}

/-! ### Structural plans -/

/-- Giving an entry away changes no lock word and no slot's partition. -/
theorem of_mem_claim {i : Nat} {p : Partition} {k : UInt64} {ed : Edit} (h : ed ∈ (w.claim i p k).2) :
    ed.slot = i ∧ ed.locked = none ∧ ed.named = none := by
  rw [claim] at h
  cases hf : w.free? i with
  | some e =>
    simp only [hf, List.mem_singleton] at h
    rw [h]
    exact ⟨rfl, rfl, rfl⟩
  | none =>
    cases hi : w.idle? i with
    | some e =>
      simp only [hf, hi, List.mem_singleton] at h
      rw [h]
      exact ⟨rfl, rfl, rfl⟩
    | none => simp [hf, hi, Plan.stop] at h

/-- To register a version in a slot makes no edits, or it is to give an entry of the slot to the version's key. -/
theorem register_cases (w : Words) (i : Nat) (p : Partition) (txn : Txn) :
    (w.register i p txn).2 = [] ∨
      w.Tracks i p ∧ ∃ k, txn.key? = some k ∧ w.entryWith? i k = none ∧
        w.register i p txn = (w.claim i p k).map .fresh := by
  rw [register]
  split_ifs with hp
  · rw [withKey]
    cases hk : txn.key? with
    | none => exact .inl rfl
    | some k =>
      dsimp only
      cases he : w.entryWith? i k with
      | some e => exact .inl rfl
      | none => exact .inr ⟨hp, k, rfl, he, rfl⟩
  · exact .inl rfl

/-- To remove a version from a slot makes no edits and does not succeed, or the version's entry, which nobody holds, is
taken from it. -/
theorem unregister_cases (w : Words) (i : Nat) (txn : Txn) :
    (∃ o, w.unregister i txn = (o, []) ∧ o ≠ .ok true) ∨
      ∃ k e, txn.key? = some k ∧ w (.key i e) = k ∧ w (.lock i e) = 0 ∧
        w.unregister i txn = (.ok true, [if w.Alone i e then .retire i e else .unregister i e]) := by
  rw [unregister, withKey]
  cases hk : txn.key? with
  | none => exact .inl ⟨_, rfl, by simp⟩
  | some k =>
    dsimp only
    cases he : w.entryWith? i k with
    | none => exact .inl ⟨_, rfl, by simp⟩
    | some e =>
      by_cases hlock : w (.lock i e) = 0
      · exact .inr ⟨k, e, rfl, key_of_entryWith? he, hlock, if_pos hlock⟩
      · exact .inl ⟨_, if_neg hlock, by simp⟩

/-- To remove a version makes no edits and does not succeed, or it is to remove it from the slot of its partition. -/
theorem untrack_cases (w : Words) (v : Nat) (p : Partition) (txn : Txn) :
    (∃ o, w.untrack v p txn = (o, []) ∧ o ≠ .ok true) ∨
      ∃ i k e, w.slot? v p = some i ∧ txn.key? = some k ∧ w (.key i e) = k ∧ w (.lock i e) = 0 ∧
        w.untrack v p txn = (.ok true, [if w.Alone i e then .retire i e else .unregister i e]) := by
  rw [untrack]
  cases hp : w.slot? v p with
  | none => exact .inl ⟨_, rfl, by simp⟩
  | some i =>
    refine (w.unregister_cases i txn).imp id ?_
    rintro ⟨k, e, h⟩
    exact ⟨i, k, e, rfl, h⟩

/-- To track a partition in the next slot is to take an entry of the slot, if one is to be had, and then to put the
version into it; a version without a key is given up together with the slot. -/
theorem track_cases (w : Words) (v : Nat) (p : Partition) (txn : Txn) :
    w.free? (w.next v) = none ∧ w.track v p txn = .stop (.waits (.freeEntry (w.next v))) ∨
      ∃ e, w.free? (w.next v) = some e ∧
        ((∃ k, txn.key? = some k ∧ w.track v p txn = (.ok (w.next v), [.track (w.next v) e p k])) ∨
          txn.key? = none ∧ w.track v p txn = (.error (.violated (.untrackable txn)), [.abandon (w.next v) e p])) := by
  rw [track]
  cases hf : w.free? (w.next v) with
  | none => exact .inl ⟨rfl, rfl⟩
  | some e =>
    cases hk : txn.key? with
    | some k => exact .inr ⟨e, rfl, .inl ⟨k, rfl, rfl⟩⟩
    | none => exact .inr ⟨e, rfl, .inr ⟨rfl, rfl⟩⟩

/-- To add a version is to register it in the slot of its partition, or to track the partition if it is new and a file
can hold the next slot. -/
theorem add_cases (w : Words) (p : Partition) (txn : Txn) :
    (∃ i, w.slot? w.used p = some i ∧ w.add p txn = (w.register i p txn).map (·.isFresh)) ∨
      w.slot? w.used p = none ∧
        (sizeFor (w.next w.used + 1) ≤ Region.maxSize ∧ w.add p txn = (w.track w.used p txn).map (fun _ => true) ∨
          ¬ sizeFor (w.next w.used + 1) ≤ Region.maxSize ∧
            w.add p txn = .stop (.violated (.slotBeyondCapacity (w.next w.used) (slotsIn Region.maxSize)))) := by
  rw [add]
  cases hp : w.slot? w.used p with
  | some i => exact .inl ⟨i, rfl, rfl⟩
  | none =>
    by_cases hroom : sizeFor (w.next w.used + 1) ≤ Region.maxSize
    · exact .inr ⟨rfl, .inl ⟨hroom, if_pos hroom⟩⟩
    · exact .inr ⟨rfl, .inr ⟨hroom, if_neg hroom⟩⟩

theorem of_mem_register {i : Nat} {p : Partition} {txn : Txn} {ed : Edit} (h : ed ∈ (w.register i p txn).2) :
    ed.slot = i ∧ ed.locked = none ∧ ed.named = none := by
  rcases w.register_cases i p txn with hnil | ⟨-, k, -, -, heq⟩
  · rw [hnil] at h
    cases h
  · rw [heq] at h
    exact of_mem_claim h

theorem of_mem_unregister {i : Nat} {txn : Txn} {ed : Edit} (h : ed ∈ (w.unregister i txn).2) :
    ed.slot = i ∧ ed.locked = none ∧ ed.named = none := by
  rcases w.unregister_cases i txn with ⟨o, heq, -⟩ | ⟨k, e, -, -, -, heq⟩
  · rw [heq] at h
    cases h
  · rw [heq] at h
    rw [List.mem_singleton.mp h]
    split_ifs <;> exact ⟨rfl, rfl, rfl⟩

theorem of_mem_untrack {v : Nat} {p : Partition} {txn : Txn} {ed : Edit} (h : ed ∈ (w.untrack v p txn).2) :
    w.slot? v p = some ed.slot ∧ ed.locked = none ∧ ed.named = none := by
  rcases w.untrack_cases v p txn with ⟨o, heq, -⟩ | ⟨i, k, e, hp, -, -, -, heq⟩
  · rw [heq] at h
    cases h
  · rw [heq] at h
    rw [List.mem_singleton.mp h]
    split_ifs <;> exact ⟨hp, rfl, rfl⟩

/-- Only a transaction without a key leaves an entry reserved. -/
theorem of_mem_track {v : Nat} {p : Partition} {txn : Txn} {ed : Edit} (h : ed ∈ (w.track v p txn).2) :
    ed.slot = w.next v ∧ (ed.locked = none ∨ txn.key? = none) ∧ ed.named = some (w.next v, p) := by
  rcases w.track_cases v p txn with ⟨-, heq⟩ | ⟨e, -, ⟨k, -, heq⟩ | ⟨hk, heq⟩⟩ <;> rw [heq] at h
  · cases h
  · rw [List.mem_singleton.mp h]
    exact ⟨rfl, .inl rfl, rfl⟩
  · rw [List.mem_singleton.mp h]
    exact ⟨rfl, .inr hk, rfl⟩

/-! ### What registering leaves alone -/

theorem tracks_edit_claim {i : Nat} {p q : Partition} {k : UInt64} (h : w.Tracks i q) :
    (w.edits (w.claim i p k).2).Tracks i q := by
  obtain ⟨h1, h2⟩ := h
  unfold claim
  cases w.free? i with
  | some e => exact ⟨h1, h2⟩
  | none =>
    cases w.idle? i with
    | some e => exact ⟨h1, h2⟩
    | none => exact ⟨h1, h2⟩

theorem lock_edits_claim (i : Nat) (p : Partition) (k : UInt64) (j : Nat) (d : EntryIndex) :
    w.edits (w.claim i p k).2 (.lock j d) = w (.lock j d) := by
  unfold claim
  cases w.free? i with
  | some e => rfl
  | none =>
    cases w.idle? i with
    | some e => rfl
    | none => rfl

theorem key_edits_claim {i : Nat} {p : Partition} {k : UInt64} {e : EntryIndex} (h : (w.claim i p k).1 = .ok e) :
    w.edits (w.claim i p k).2 (.key i e) = k := by
  rw [claim] at h ⊢
  cases hf : w.free? i with
  | some d =>
    simp only [hf, Except.ok.injEq] at h
    subst h
    exact set_self ..
  | none =>
    cases hi : w.idle? i with
    | some d =>
      simp only [hf, hi, Except.ok.injEq] at h
      subst h
      exact set_self ..
    | none => simp [hf, hi, Plan.stop] at h

/-- To find a version or register it makes no edits, and then the version, if there is an answer, has its entry already;
or it is to give an entry of its partition's slot to its key. -/
theorem findOrRegister_cases (w : Words) (v : Nat) (p : Partition) (txn : Txn) :
    (∃ o, w.findOrRegister v p txn = (o, []) ∧
        ∀ i e, o = .ok (some (i, e)) → w.slot? v p = some i ∧ txn.key? = some (w (.key i e))) ∨
      ∃ i k, w.slot? v p = some i ∧ txn.key? = some k ∧ w.entryWith? i k = none ∧
        w.findOrRegister v p txn = (w.claim i p k).map fun e => some (i, e) := by
  rw [findOrRegister]
  cases hp : w.slot? v p with
  | none => exact .inl ⟨_, rfl, by simp⟩
  | some i =>
    dsimp only
    rw [withKey]
    cases hk : txn.key? with
    | none => exact .inl ⟨_, rfl, by simp⟩
    | some k =>
      dsimp only
      cases he : w.entryWith? i k with
      | some e =>
        refine .inl ⟨_, rfl, ?_⟩
        rintro _ _ ⟨⟩
        exact ⟨rfl, congrArg some (key_of_entryWith? he).symm⟩
      | none => exact .inr ⟨i, k, rfl, rfl, he, rfl⟩

/-- A version that was found or registered is where it was found, and its lock word is as it was. -/
theorem of_findOrRegister {v i : Nat} {p : Partition} {txn : Txn} {e : EntryIndex}
    (h : (w.findOrRegister v p txn).1 = .ok (some (i, e))) :
    i < v ∧ (w.edits (w.findOrRegister v p txn).2).Tracks i p ∧
      txn.key? = some (w.edits (w.findOrRegister v p txn).2 (.key i e)) ∧
      w.edits (w.findOrRegister v p txn).2 (.lock i e) = w (.lock i e) := by
  rcases w.findOrRegister_cases v p txn with ⟨o, heq, hfound⟩ | ⟨j, k, hp, hk, -, heq⟩
  · rw [heq] at h ⊢
    obtain ⟨hp, hk⟩ := hfound i e h
    obtain ⟨hi, htracks⟩ := of_slot? hp
    exact ⟨hi, htracks, hk, rfl⟩
  · rw [heq] at h ⊢
    obtain ⟨hc, rfl⟩ := Plan.of_map_eq_ok h
    obtain ⟨hi, htracks⟩ := of_slot? hp
    exact ⟨hi, tracks_edit_claim htracks, by rw [hk]; exact congrArg some (key_edits_claim hc).symm, lock_edits_claim ..⟩

theorem of_mem_findOrRegister {v : Nat} {p : Partition} {txn : Txn} {ed : Edit}
    (h : ed ∈ (w.findOrRegister v p txn).2) :
    ed.slot < v ∧ w.Tracks ed.slot p ∧ ed.locked = none ∧ ed.named = none := by
  rcases w.findOrRegister_cases v p txn with ⟨o, heq, -⟩ | ⟨i, k, hp, -, -, heq⟩
  · rw [heq] at h
    cases h
  · rw [heq] at h
    obtain ⟨rfl, hlocked, hnamed⟩ := of_mem_claim h
    exact ⟨(of_slot? hp).1, (of_slot? hp).2, hlocked, hnamed⟩

/-- A version is looked for and registered in the slot of its partition only. -/
theorem slot?_of_findOrRegister {v i : Nat} {p : Partition} {txn : Txn} {e : EntryIndex}
    (h : (w.findOrRegister v p txn).1 = .ok (some (i, e))) : w.slot? v p = some i := by
  rcases w.findOrRegister_cases v p txn with ⟨o, heq, hfound⟩ | ⟨j, k, hp, -, -, heq⟩
  · rw [heq] at h
    exact (hfound i e h).1
  · rw [heq] at h
    obtain ⟨-, rfl⟩ := Plan.of_map_eq_ok h
    exact hp

theorem of_find {v i : Nat} {p : Partition} {txn : Txn} {e : EntryIndex}
    (h : (w.find v p txn).1 = .ok (some (i, e))) : i < v ∧ w.Tracks i p ∧ txn.key? = some (w (.key i e)) := by
  cases hp : w.slot? v p with
  | none => simp [find, hp, Plan.answer] at h
  | some j =>
    obtain ⟨hj, htracks⟩ := of_slot? hp
    cases hk : txn.key? with
    | none => simp [find, withKey, hp, hk, Plan.stop] at h
    | some k =>
      obtain ⟨d, hd, rfl, rfl⟩ : ∃ d, w.entryWith? j k = some d ∧ j = i ∧ d = e := by
        simpa [find, withKey, hp, hk, Plan.answer] using h
      exact ⟨hj, htracks, by rw [key_of_entryWith? hd]⟩

@[simp] theorem edits_find (v : Nat) (p : Partition) (txn : Txn) : (w.find v p txn).2 = [] := by
  cases hp : w.slot? v p with
  | none => rw [find, hp]; rfl
  | some i => cases hk : txn.key? <;> simp [find, hp, withKey, hk, Plan.stop, Plan.answer]

/-- To add a version changes no lock word, unless the version is the first of its partition and has no key. -/
theorem unlocked_or_abandons_add (w : Words) (p : Partition) (txn : Txn) :
    (∀ ed ∈ (w.add p txn).2, ed.locked = none) ∨
      ∃ e, w.slot? w.used p = none ∧ txn.key? = none ∧ sizeFor (w.next w.used + 1) ≤ Region.maxSize ∧
        w.add p txn = (.error (.violated (.untrackable txn)), [.abandon (w.next w.used) e p]) := by
  rcases w.add_cases p txn with ⟨i, -, heq⟩ | ⟨hp, ⟨hroom, heq⟩ | ⟨-, heq⟩⟩ <;> rw [heq]
  · exact .inl fun ed hed => (of_mem_register hed).2.1
  · rcases w.track_cases w.used p txn with ⟨-, htrack⟩ | ⟨e, -, ⟨k, -, htrack⟩ | ⟨hk, htrack⟩⟩ <;> rw [htrack]
    · exact .inl (List.forall_mem_nil _)
    · exact .inl (List.forall_mem_singleton.mpr rfl)
    · exact .inr ⟨e, hp, hk, hroom, rfl⟩
  · exact .inl (List.forall_mem_nil _)

/-! ### Lock operations -/

/-- To become a reader is to find or register the version and then, perhaps, to be added. -/
theorem acquireRead_cases (w : Words) (v : Nat) (p : Partition) (txn : Txn) :
    (∃ o, w.acquireRead v p txn = (o, (w.findOrRegister v p txn).2) ∧ o ≠ .ok true ∧
        ∀ i e, (w.findOrRegister v p txn).1 = .ok (some (i, e)) → w (.lock i e) ≠ 0) ∨
      ∃ i e u, (w.findOrRegister v p txn).1 = .ok (some (i, e)) ∧ LockWord.addReader (w (.lock i e)) = .added u ∧
        w.acquireRead v p txn = (.ok true, (w.findOrRegister v p txn).2 ++ [.addReader i e]) := by
  unfold acquireRead
  rcases w.findOrRegister v p txn with ⟨o | _ | ⟨i, e⟩, es⟩
  · exact .inl ⟨.error o, rfl, by simp, by simp⟩
  · exact .inl ⟨.ok false, congrArg (Prod.mk _) (List.append_nil es), by simp, by simp⟩
  · have hlock : LockWord.addReader (w (.lock i e)) ≠ .added 1 → ∀ j d, some (i, e) = some (j, d) → w (.lock j d) ≠ 0 := by
      rintro ha j d ⟨⟩ h0
      exact ha (by rw [h0]; rfl)
    simp only [Plan.andThen, Except.ok.injEq]
    cases ha : LockWord.addReader (w (.lock i e)) with
    | added u => exact .inr ⟨i, e, u, rfl, ha, rfl⟩
    | writer => exact .inl ⟨.ok false, congrArg (Prod.mk _) (List.append_nil es), by simp, hlock (by simp [ha])⟩
    | reserved => exact .inl ⟨_, congrArg (Prod.mk _) (List.append_nil es), by simp [Plan.stop], hlock (by simp [ha])⟩
    | overflow => exact .inl ⟨_, congrArg (Prod.mk _) (List.append_nil es), by simp [Plan.stop], hlock (by simp [ha])⟩

theorem acquireWrite_cases (w : Words) (v : Nat) (p : Partition) (txn : Txn) :
    (∃ o, w.acquireWrite v p txn = (o, (w.findOrRegister v p txn).2) ∧ o ≠ .ok true ∧
        ∀ i e, (w.findOrRegister v p txn).1 = .ok (some (i, e)) → w (.lock i e) ≠ 0) ∨
      ∃ i e, (w.findOrRegister v p txn).1 = .ok (some (i, e)) ∧ w (.lock i e) = 0 ∧
        w.acquireWrite v p txn = (.ok true, (w.findOrRegister v p txn).2 ++ [.addWriter i e]) := by
  unfold acquireWrite
  rcases w.findOrRegister v p txn with ⟨o | _ | ⟨i, e⟩, es⟩
  · exact .inl ⟨.error o, rfl, by simp, by simp⟩
  · exact .inl ⟨.ok false, congrArg (Prod.mk _) (List.append_nil es), by simp, by simp⟩
  · have hlock : LockWord.addWriter (w (.lock i e)) ≠ .acquired LockWord.writeBit →
        ∀ j d, some (i, e) = some (j, d) → w (.lock j d) ≠ 0 := by
      rintro ha j d ⟨⟩ h0
      exact ha (by rw [h0]; rfl)
    simp only [Plan.andThen, Except.ok.injEq]
    cases ha : LockWord.addWriter (w (.lock i e)) with
    | acquired u => exact .inr ⟨i, e, rfl, (LockWord.addWriter_eq_acquired ha).2, rfl⟩
    | busy => exact .inl ⟨.ok false, congrArg (Prod.mk _) (List.append_nil es), by simp, hlock (by simp [ha])⟩
    | reserved => exact .inl ⟨_, congrArg (Prod.mk _) (List.append_nil es), by simp [Plan.stop], hlock (by simp [ha])⟩

/-- Looking for a version ends with an answer, if the transaction has a key. -/
theorem find_cases (w : Words) (v : Nat) (p : Partition) (txn : Txn) :
    (∃ at?, w.find v p txn = .answer at?) ∨
      w.find v p txn = .stop (.violated (.untrackable txn)) ∧ txn.key? = none := by
  cases hp : w.slot? v p with
  | none => exact .inl ⟨none, by rw [find, hp]⟩
  | some i =>
    cases hk : txn.key? with
    | none => exact .inr ⟨by simp [find, hp, withKey, hk], rfl⟩
    | some k => exact .inl ⟨(w.entryWith? i k).map (i, ·), by simp [find, hp, withKey, hk]⟩

/-- To stop being a reader is to find the version with a reader and to be taken away, or a violation. -/
theorem releaseRead_cases (w : Words) (v : Nat) (p : Partition) (txn : Txn) :
    (∃ x, w.releaseRead v p txn = .stop (.violated x) ∧
        ∀ i e, (w.find v p txn).1 = .ok (some (i, e)) → LockWord.readers (w (.lock i e)) = 0) ∨
      ∃ i e, (w.find v p txn).1 = .ok (some (i, e)) ∧ LockWord.readers (w (.lock i e)) ≠ 0 ∧
        w.releaseRead v p txn = (.ok (), [.dropReader i e]) := by
  unfold releaseRead
  rcases find_cases w v p txn with ⟨_ | ⟨i, e⟩, h⟩ | ⟨h, -⟩
  · rw [h]
    exact .inl ⟨_, rfl, by simp [Plan.answer]⟩
  · rw [h]
    simp only [Plan.andThen, Plan.answer]
    cases hr : LockWord.removeReader? (w (.lock i e)) with
    | some u => exact .inr ⟨i, e, rfl, (LockWord.removeReader?_eq_some hr).2, rfl⟩
    | none =>
      refine .inl ⟨_, rfl, ?_⟩
      intro j d hjd
      obtain ⟨rfl, rfl⟩ : i = j ∧ e = d := by simpa using hjd
      by_contra hne
      rw [LockWord.removeReader?, if_neg hne] at hr
      cases hr
  · rw [h]
    exact .inl ⟨_, rfl, by simp [Plan.stop]⟩

theorem releaseWrite_cases (w : Words) (v : Nat) (p : Partition) (txn : Txn) :
    (∃ x, w.releaseWrite v p txn = .stop (.violated x) ∧
        ∀ i e, (w.find v p txn).1 = .ok (some (i, e)) → LockWord.hasWriter (w (.lock i e)) = false) ∨
      ∃ i e, (w.find v p txn).1 = .ok (some (i, e)) ∧ LockWord.hasWriter (w (.lock i e)) = true ∧
        w.releaseWrite v p txn = (.ok (), [.dropWriter i e]) := by
  unfold releaseWrite
  rcases find_cases w v p txn with ⟨_ | ⟨i, e⟩, h⟩ | ⟨h, -⟩
  · rw [h]
    exact .inl ⟨_, rfl, by simp [Plan.answer]⟩
  · rw [h]
    simp only [Plan.andThen, Plan.answer]
    cases hw : LockWord.hasWriter (w (.lock i e)) with
    | true => exact .inr ⟨i, e, rfl, hw, rfl⟩
    | false =>
      refine .inl ⟨_, rfl, ?_⟩
      intro j d hjd
      obtain ⟨rfl, rfl⟩ : i = j ∧ e = d := by simpa using hjd
      exact hw
  · rw [h]
    exact .inl ⟨_, rfl, by simp [Plan.stop]⟩

end Words

/-! ### Lock operations of either mode -/

/-- How many hold a lock by what its word says. -/
def LockWord.held : LockMode → LockWord → Nat
  | .read, u => (readers u).toNat
  | .write, u => if hasWriter u then 1 else 0

theorem LockWord.held_zero (mode : LockMode) : held mode 0 = 0 := by
  cases mode <;> decide

namespace LockMode

/-- The call that acquires a lock. -/
def acquire : LockMode → Partition → Txn → TableCall
  | read => .acquireRead
  | write => .acquireWrite

/-- The call that releases a lock. -/
def release : LockMode → Partition → Txn → TableCall
  | read => .releaseRead
  | write => .releaseWrite

theorem acquire_inj {a b : LockMode} {p q : Partition} {t u : Txn} (h : a.acquire p t = b.acquire q u) :
    a = b ∧ p = q ∧ t = u := by
  cases a <;> cases b <;> simp_all [acquire]

theorem release_inj {a b : LockMode} {p q : Partition} {t u : Txn} (h : a.release p t = b.release q u) :
    a = b ∧ p = q ∧ t = u := by
  cases a <;> cases b <;> simp_all [release]

theorem acquire_ne_release (a b : LockMode) (p q : Partition) (t u : Txn) : a.acquire p t ≠ b.release q u := by
  cases a <;> cases b <;> nofun

/-- A lock word to which a holder can be added. -/
def Admits : LockMode → LockWord → Prop
  | read, u => ∃ v, LockWord.addReader u = .added v
  | write, u => u = 0

/-- The edit that adds a holder to the version in an entry. -/
def gain : LockMode → Nat → EntryIndex → Edit
  | read => .addReader
  | write => .addWriter

/-- The edit that takes a holder from the version in an entry. -/
def lose : LockMode → Nat → EntryIndex → Edit
  | read => .dropReader
  | write => .dropWriter

variable (mode : LockMode) (i : Nat) (e : EntryIndex)

@[simp] theorem slot_gain : (mode.gain i e).slot = i := by
  cases mode <;> rfl

@[simp] theorem slot_lose : (mode.lose i e).slot = i := by
  cases mode <;> rfl

@[simp] theorem locked_gain : (mode.gain i e).locked = some (i, e) := by
  cases mode <;> rfl

@[simp] theorem locked_lose : (mode.lose i e).locked = some (i, e) := by
  cases mode <;> rfl

@[simp] theorem named_gain : (mode.gain i e).named = none := by
  cases mode <;> rfl

@[simp] theorem named_lose : (mode.lose i e).named = none := by
  cases mode <;> rfl

@[simp] theorem abandons_gain : (mode.gain i e).abandons = false := by
  cases mode <;> rfl

@[simp] theorem abandons_lose : (mode.lose i e).abandons = false := by
  cases mode <;> rfl

theorem map_flag_ne {o : Except Halt Bool} (h : o ≠ .ok true) : o.map Answer.flag ≠ .ok (.flag true) := by
  rcases o with x | b
  · exact fun hf => nomatch hf
  · exact fun hf => h (by injection hf with hf; injection hf with hf; rw [hf])

/-- An acquisition finds or registers the version, and if it is granted the version has one holder more. -/
theorem acquire_cases (w : Words) (v : Nat) (p : Partition) (txn : Txn) :
    (∃ o, (mode.acquire p txn).plan w v = (o, (w.findOrRegister v p txn).2) ∧ o ≠ .ok (.flag true) ∧
        ∀ i e, (w.findOrRegister v p txn).1 = .ok (some (i, e)) → w (.lock i e) ≠ 0) ∨
      ∃ i e, (w.findOrRegister v p txn).1 = .ok (some (i, e)) ∧ mode.Admits (w (.lock i e)) ∧
        (mode.acquire p txn).plan w v = (.ok (.flag true), (w.findOrRegister v p txn).2 ++ [mode.gain i e]) := by
  cases mode with
  | read =>
    rcases Words.acquireRead_cases w v p txn with ⟨o, h, ho, hlock⟩ | ⟨i, e, u, hr, hu, h⟩
    · exact .inl ⟨_, congrArg (Plan.map Answer.flag) h, map_flag_ne ho, hlock⟩
    · exact .inr ⟨i, e, hr, ⟨u, hu⟩, congrArg (Plan.map Answer.flag) h⟩
  | write =>
    rcases Words.acquireWrite_cases w v p txn with ⟨o, h, ho, hlock⟩ | ⟨i, e, hr, h0, h⟩
    · exact .inl ⟨_, congrArg (Plan.map Answer.flag) h, map_flag_ne ho, hlock⟩
    · exact .inr ⟨i, e, hr, h0, congrArg (Plan.map Answer.flag) h⟩

/-- A release takes one holder from the version, or it is a violation since there is none. -/
theorem release_cases (w : Words) (v : Nat) (p : Partition) (txn : Txn) :
    (∃ x, (mode.release p txn).plan w v = .stop (.violated x) ∧
        ∀ i e, (w.find v p txn).1 = .ok (some (i, e)) → LockWord.held mode (w (.lock i e)) = 0) ∨
      ∃ i e, (w.find v p txn).1 = .ok (some (i, e)) ∧ LockWord.held mode (w (.lock i e)) ≠ 0 ∧
        (mode.release p txn).plan w v = (.ok .done, [mode.lose i e]) := by
  cases mode with
  | read =>
    rcases Words.releaseRead_cases w v p txn with ⟨x, h, hnone⟩ | ⟨i, e, hr, hne, h⟩
    · refine .inl ⟨x, congrArg (Plan.map fun _ => Answer.done) h, fun i e hie => ?_⟩
      rw [LockWord.held, hnone i e hie]
      rfl
    · refine .inr ⟨i, e, hr, fun h0 => hne ?_, congrArg (Plan.map fun _ => Answer.done) h⟩
      exact UInt64.toNat_inj.mp h0
  | write =>
    rcases Words.releaseWrite_cases w v p txn with ⟨x, h, hnone⟩ | ⟨i, e, hr, hw, h⟩
    · refine .inl ⟨x, congrArg (Plan.map fun _ => Answer.done) h, fun i e hie => ?_⟩
      rw [LockWord.held, hnone i e hie]
      rfl
    · refine .inr ⟨i, e, hr, ?_, congrArg (Plan.map fun _ => Answer.done) h⟩
      rw [LockWord.held, hw]
      decide

end LockMode

/-! ### Calls -/

/-- The call only asks. -/
def TableCall.isQuestion : TableCall → Bool
  | acquireRead .. => false
  | releaseRead .. => false
  | acquireWrite .. => false
  | releaseWrite .. => false
  | _ => true

theorem TableCall.edits_of_isQuestion {c : TableCall} (hc : c.isQuestion = true) (w : Words) (v : Nat) :
    (c.plan w v).2 = [] := by
  cases c with
  | acquireRead => cases hc
  | releaseRead => cases hc
  | acquireWrite => cases hc
  | releaseWrite => cases hc
  | readerCount p txn => exact Words.edits_find v p txn
  | hasWriter p txn => exact Words.edits_find v p txn
  | slotOfVersion p txn => exact Words.edits_find v p txn
  | _ => rfl

/-- A call acquires a lock, releases one or only asks. -/
theorem TableCall.kinds (c : TableCall) : (∃ mode p txn, c = LockMode.acquire mode p txn) ∨
    (∃ mode p txn, c = LockMode.release mode p txn) ∨ c.isQuestion = true := by
  cases c with
  | acquireRead p txn => exact .inl ⟨.read, p, txn, rfl⟩
  | acquireWrite p txn => exact .inl ⟨.write, p, txn, rfl⟩
  | releaseRead p txn => exact .inr (.inl ⟨.read, p, txn, rfl⟩)
  | releaseWrite p txn => exact .inr (.inl ⟨.write, p, txn, rfl⟩)
  | _ => exact .inr (.inr rfl)

/-- A call without a structural change edits used slots, and changes a lock word last if it changes one. -/
theorem TableCall.plan_cases (w : Words) (v : Nat) (c : TableCall) :
    (∀ ed ∈ (c.plan w v).2, ed.slot < v ∧ ed.locked = none) ∨
      ∃ ds ed, (c.plan w v).2 = ds ++ [ed] ∧ (∀ d ∈ ds, d.slot < v ∧ d.locked = none) ∧ ed.slot < v ∧
        ed.abandons = false := by
  rcases c.kinds with ⟨mode, p, txn, rfl⟩ | ⟨mode, p, txn, rfl⟩ | hc
  · have hlook : ∀ ed ∈ (w.findOrRegister v p txn).2, ed.slot < v ∧ ed.locked = none := by
      intro ed hed
      obtain ⟨hslot, -, hlocked, -⟩ := Words.of_mem_findOrRegister hed
      exact ⟨hslot, hlocked⟩
    rcases mode.acquire_cases w v p txn with ⟨o, h, -⟩ | ⟨i, e, hr, -, h⟩
    · rw [h]
      exact .inl hlook
    · rw [h]
      refine .inr ⟨_, mode.gain i e, rfl, hlook, ?_, mode.abandons_gain i e⟩
      rw [mode.slot_gain]
      exact (Words.of_findOrRegister hr).1
  · rcases mode.release_cases w v p txn with ⟨x, h, -⟩ | ⟨i, e, hr, -, h⟩
    · rw [h]
      exact .inl nofun
    · rw [h]
      refine .inr ⟨[], mode.lose i e, rfl, nofun, ?_, mode.abandons_lose i e⟩
      rw [mode.slot_lose]
      exact (Words.of_find hr).1
  · rw [edits_of_isQuestion hc]
    exact .inl nofun

theorem TableCall.slot_of_mem_plan {w : Words} {v : Nat} {c : TableCall} {ed : Edit} (h : ed ∈ (c.plan w v).2) :
    ed.slot < v := by
  rcases c.plan_cases w v with hall | ⟨ds, last, hes, hds, hslot, -⟩
  · exact (hall ed h).1
  · rw [hes] at h
    rcases List.mem_append.mp h with h | h
    · exact (hds ed h).1
    · rw [List.mem_singleton.mp h]
      exact hslot

/-- The call adds the first version of a partition for which there is room, and the version has no key. -/
def BoardCall.Abandons (w : Words) (c : BoardCall) : Prop :=
  ∃ p txn, c = .add p txn ∧ w.slot? w.used p = none ∧ txn.key? = none ∧ sizeFor (w.next w.used + 1) ≤ Region.maxSize

/-- A call changes a lock word last if it changes one, and abandons a slot only for want of a key. -/
theorem BoardCall.plan_cases (w : Words) (c : BoardCall) :
    (∀ ed ∈ (c.plan w).2, ed.locked = none) ∨
      ∃ ds ed, (c.plan w).2 = ds ++ [ed] ∧ (∀ d ∈ ds, d.locked = none) ∧ (ed.abandons = true → c.Abandons w) := by
  cases c with
  | table c =>
    rcases c.plan_cases w w.used with hall | ⟨ds, ed, hes, hds, -, hed⟩
    · exact .inl fun ed hed => (hall ed hed).2
    · exact .inr ⟨ds, ed, hes, fun d hd => (hds d hd).2, fun h => absurd (hed ▸ h) Bool.false_ne_true⟩
  | remove p txn => exact .inl fun ed hed => (Words.of_mem_untrack hed).2.1
  | add p txn =>
    rcases w.unlocked_or_abandons_add p txn with hall | ⟨e, hp, hk, hroom, h⟩
    · exact .inl hall
    · exact .inr ⟨[], .abandon (w.next w.used) e p, congrArg Prod.snd h, nofun, fun _ => ⟨p, txn, rfl, hp, hk, hroom⟩⟩

/-- Only a call that adds a version without a key abandons a slot. -/
theorem BoardCall.abandons_of_mem_plan {w : Words} {c : BoardCall} {ed : Edit} (h : ed ∈ (c.plan w).2)
    (hed : ed.abandons = true) : c.Abandons w := by
  have hlocked : ed.locked ≠ none := by
    cases ed with
    | abandon i e p => nofun
    | _ => cases hed
  rcases c.plan_cases w with hall | ⟨ds, last, hes, hds, hlast⟩
  · exact absurd (hall ed h) hlocked
  · rw [hes] at h
    rcases List.mem_append.mp h with h | h
    · exact absurd (hds ed h) hlocked
    · rw [List.mem_singleton.mp h] at hed
      exact hlast hed

/-- What a call that abandons a slot does, if the slot has a free entry. -/
theorem BoardCall.Abandons.plan_cases {w : Words} {c : BoardCall} (h : c.Abandons w) :
    (∃ u, (c.plan w).1 = .error (.waits u)) ∨
      ∃ i e p, (c.plan w).2 = [.abandon i e p] ∧ w (.lock i e) = 0 := by
  obtain ⟨p, txn, rfl, hp, hk, hroom⟩ := h
  simp only [plan, Words.add, hp, if_pos hroom, Words.track]
  cases hf : w.free? (w.next w.used) with
  | none => exact .inl ⟨_, rfl⟩
  | some e =>
    simp only [hk]
    exact .inr ⟨_, e, p, rfl, (Words.of_free? hf).2⟩

/-! ### Calls without an answer -/

namespace Words

variable {w : Words}

theorem ok_of_mem_claim {i : Nat} {p : Partition} {k : UInt64} {ed : Edit} (h : ed ∈ (w.claim i p k).2) :
    ∃ e, (w.claim i p k).1 = .ok e ∧ w (.lock i e) = 0 := by
  rw [claim] at h ⊢
  cases hf : w.free? i with
  | some e => exact ⟨e, rfl, (of_free? hf).2⟩
  | none =>
    cases hi : w.idle? i with
    | some e => exact ⟨e, rfl, (of_idle? hi).2⟩
    | none => simp [hf, hi, Plan.stop] at h

theorem ok_of_mem_findOrRegister {v : Nat} {p : Partition} {txn : Txn} {ed : Edit}
    (h : ed ∈ (w.findOrRegister v p txn).2) :
    ∃ i e, (w.findOrRegister v p txn).1 = .ok (some (i, e)) ∧ w (.lock i e) = 0 := by
  rcases w.findOrRegister_cases v p txn with ⟨o, heq, -⟩ | ⟨i, k, -, -, -, heq⟩
  · rw [heq] at h
    cases h
  · rw [heq] at h ⊢
    obtain ⟨e, hok, hlock⟩ := ok_of_mem_claim h
    exact ⟨i, e, by rw [Plan.map, hok]; rfl, hlock⟩

theorem ok_of_mem_register {i : Nat} {p : Partition} {txn : Txn} {ed : Edit} (h : ed ∈ (w.register i p txn).2) :
    ∃ a, (w.register i p txn).1 = .ok a := by
  rcases w.register_cases i p txn with hnil | ⟨-, k, -, -, heq⟩
  · rw [hnil] at h
    cases h
  · rw [heq] at h ⊢
    obtain ⟨e, hok, -⟩ := ok_of_mem_claim h
    exact ⟨.fresh e, by rw [Plan.map, hok]; rfl⟩

theorem ok_of_mem_untrack {v : Nat} {p : Partition} {txn : Txn} {ed : Edit} (h : ed ∈ (w.untrack v p txn).2) :
    ∃ b, (w.untrack v p txn).1 = .ok b := by
  rcases w.untrack_cases v p txn with ⟨o, heq, -⟩ | ⟨i, k, e, -, -, -, -, heq⟩
  · rw [heq] at h
    cases h
  · exact ⟨true, congrArg Prod.fst heq⟩

theorem ok_of_mem_track {v : Nat} {p : Partition} {txn : Txn} {ed : Edit} (h : ed ∈ (w.track v p txn).2) :
    (∃ i, (w.track v p txn).1 = .ok i) ∨ ed.abandons = true := by
  rcases w.track_cases v p txn with ⟨-, heq⟩ | ⟨e, -, ⟨k, -, heq⟩ | ⟨-, heq⟩⟩ <;> rw [heq] at h ⊢
  · cases h
  · exact .inl ⟨_, rfl⟩
  · rw [List.mem_singleton.mp h]
    exact .inr rfl

end Words

theorem Plan.ok_map {α β : Type} {plan : Plan α} {f : α → β} (h : ∃ a, plan.1 = .ok a) :
    ∃ b, (plan.map f).1 = .ok b := by
  obtain ⟨a, ha⟩ := h
  exact ⟨f a, by rw [map, ha]; rfl⟩

theorem TableCall.ok_of_mem_plan {w : Words} {v : Nat} {c : TableCall} {ed : Edit} (h : ed ∈ (c.plan w v).2) :
    ∃ a, (c.plan w v).1 = .ok a := by
  rcases c.kinds with ⟨mode, p, txn, rfl⟩ | ⟨mode, p, txn, rfl⟩ | hc
  · rcases mode.acquire_cases w v p txn with ⟨o, hplan, -, hlock⟩ | ⟨i, e, -, -, hplan⟩
    · rw [hplan] at h
      obtain ⟨i, e, hok, h0⟩ := Words.ok_of_mem_findOrRegister h
      exact absurd h0 (hlock i e hok)
    · exact ⟨_, congrArg Prod.fst hplan⟩
  · rcases mode.release_cases w v p txn with ⟨x, hplan, -⟩ | ⟨i, e, -, -, hplan⟩
    · rw [hplan] at h
      cases h
    · exact ⟨_, congrArg Prod.fst hplan⟩
  · rw [edits_of_isQuestion hc] at h
    cases h

/-- A call that gets no answer makes no edits, unless it abandons a slot. -/
theorem BoardCall.ok_of_mem_plan {w : Words} {c : BoardCall} {ed : Edit} (h : ed ∈ (c.plan w).2) :
    (∃ a, (c.plan w).1 = .ok a) ∨ ed.abandons = true := by
  cases c with
  | table c => exact .inl (TableCall.ok_of_mem_plan h)
  | remove p txn => exact .inl (Plan.ok_map (Words.ok_of_mem_untrack h))
  | add p txn =>
    rw [plan] at h ⊢
    rcases w.add_cases p txn with ⟨i, -, heq⟩ | ⟨-, ⟨-, heq⟩ | ⟨-, heq⟩⟩ <;> rw [heq] at h ⊢
    · exact .inl (Plan.ok_map (Plan.ok_map (Words.ok_of_mem_register h)))
    · exact (Words.ok_of_mem_track h).imp (fun hok => Plan.ok_map (Plan.ok_map hok)) id
    · cases h

/-- Without an answer there are no edits, unless the call abandons a slot. -/
theorem BoardCall.edits_of_error {w : Words} {c : BoardCall} {x : Halt}
    (hx : (c.plan w).1 = .error x) (hc : ¬ c.Abandons w) : (c.plan w).2 = [] := by
  refine List.eq_nil_iff_forall_not_mem.mpr ?_
  intro ed hed
  rcases ok_of_mem_plan hed with ⟨a, ha⟩ | habandons
  · rw [hx] at ha
    cases ha
  · exact hc (abandons_of_mem_plan hed habandons)

/-! ### Transactions with a key -/

/-- The transaction that a call is about, if it is about one. -/
def TableCall.txn? : TableCall → Option Txn
  | acquireRead _ txn => some txn
  | releaseRead _ txn => some txn
  | acquireWrite _ txn => some txn
  | releaseWrite _ txn => some txn
  | readerCount _ txn => some txn
  | hasWriter _ txn => some txn
  | slotOfVersion _ txn => some txn
  | _ => none

def BoardCall.txn? : BoardCall → Option Txn
  | table c => c.txn?
  | add _ txn => some txn
  | remove _ txn => some txn

/-- The call is not about a transaction without a key. -/
def BoardCall.Trackable (c : BoardCall) : Prop := ∀ txn ∈ c.txn?, txn.number ≤ Txn.max.number

instance (c : BoardCall) : Decidable c.Trackable := inferInstanceAs (Decidable (∀ txn ∈ c.txn?, _))

theorem Txn.key?_of_le {t : Txn} (h : t.number ≤ max.number) : t.key? = some (t.number + 1) := if_pos h

theorem Txn.key?_eq_none {t : Txn} (h : t.key? = none) : ¬ t.number ≤ max.number := by
  intro hle
  rw [key?_of_le hle] at h
  cases h

theorem Txn.key?_inj {t u : Txn} {k : UInt64} (ht : t.key? = some k) (hu : u.key? = some k) : t = u := by
  rw [key?] at ht hu
  split_ifs at ht hu
  have heq : t.number + 1 = u.number + 1 := (Option.some.inj ht).trans (Option.some.inj hu).symm
  exact congrArg mk (UInt64.add_left_inj _ |>.mp heq)

/-- A call about a version that can be tracked abandons no slot. -/
theorem BoardCall.Trackable.not_abandons {w : Words} {c : BoardCall} (hc : c.Trackable) : ¬ c.Abandons w := by
  rintro ⟨p, txn, rfl, -, hk, -⟩
  exact Txn.key?_eq_none hk (hc txn rfl)

theorem BoardCall.Trackable.abandons_eq_false {w : Words} {c : BoardCall} (hc : c.Trackable) {ed : Edit}
    (hed : ed ∈ (c.plan w).2) : ed.abandons = false := by
  by_contra hne
  exact hc.not_abandons (abandons_of_mem_plan hed (by simpa using hne))

/-! ### Calls about a partition -/

/-- The partition that a call is about, if it is about one. -/
def TableCall.partition? : TableCall → Option Partition
  | acquireRead p _ => some p
  | releaseRead p _ => some p
  | acquireWrite p _ => some p
  | releaseWrite p _ => some p
  | readerCount p _ => some p
  | hasWriter p _ => some p
  | slotOfVersion p _ => some p
  | versions p => some p
  | _ => none

def BoardCall.partition? : BoardCall → Option Partition
  | table c => c.partition?
  | add p _ => some p
  | remove p _ => some p

theorem LockMode.partition?_acquire (mode : LockMode) (p : Partition) (txn : Txn) :
    (mode.acquire p txn).partition? = some p := by
  cases mode <;> rfl

theorem LockMode.partition?_release (mode : LockMode) (p : Partition) (txn : Txn) :
    (mode.release p txn).partition? = some p := by
  cases mode <;> rfl

/-- A call on a whole table edits the slot of its partition. -/
theorem TableCall.of_mem_plan {w : Words} {v : Nat} {c : TableCall} {ed : Edit} (h : ed ∈ (c.plan w v).2) :
    ∃ p, c.partition? = some p ∧ w.Tracks ed.slot p ∧ ed.named = none := by
  rcases c.kinds with ⟨mode, p, txn, rfl⟩ | ⟨mode, p, txn, rfl⟩ | hc
  · refine ⟨p, mode.partition?_acquire p txn, ?_⟩
    have hlook : ed ∈ (w.findOrRegister v p txn).2 → w.Tracks ed.slot p ∧ ed.named = none := by
      intro hed
      obtain ⟨-, htracks, -, hnamed⟩ := Words.of_mem_findOrRegister hed
      exact ⟨htracks, hnamed⟩
    rcases mode.acquire_cases w v p txn with ⟨o, hplan, -⟩ | ⟨i, e, hr, -, hplan⟩
    · rw [hplan] at h
      exact hlook h
    · rw [hplan] at h
      rcases List.mem_append.mp h with h | h
      · exact hlook h
      · rw [List.mem_singleton.mp h, mode.slot_gain, mode.named_gain]
        exact ⟨(Words.of_slot? (Words.slot?_of_findOrRegister hr)).2, rfl⟩
  · refine ⟨p, mode.partition?_release p txn, ?_⟩
    rcases mode.release_cases w v p txn with ⟨x, hplan, -⟩ | ⟨i, e, hr, -, hplan⟩
    · rw [hplan] at h
      cases h
    · rw [hplan] at h
      rw [List.mem_singleton.mp h, mode.slot_lose, mode.named_lose]
      exact ⟨(Words.of_find hr).2.1, rfl⟩
  · rw [edits_of_isQuestion hc] at h
    cases h

/-- A call edits the slot of its partition; if there is none, it names the next slot for the partition. -/
theorem BoardCall.of_mem_plan {w : Words} {c : BoardCall} {ed : Edit} (h : ed ∈ (c.plan w).2) :
    ∃ p, c.partition? = some p ∧ (w.Tracks ed.slot p ∧ ed.named = none ∨
      w.slot? w.used p = none ∧ ed.slot = w.next w.used ∧ ed.named = some (ed.slot, p)) := by
  cases c with
  | add p txn =>
    refine ⟨p, rfl, ?_⟩
    rw [plan] at h
    rcases w.add_cases p txn with ⟨i, hp, heq⟩ | ⟨hp, ⟨-, heq⟩ | ⟨-, heq⟩⟩ <;> rw [heq] at h
    · obtain ⟨rfl, -, hnamed⟩ := Words.of_mem_register h
      exact .inl ⟨(Words.of_slot? hp).2, hnamed⟩
    · obtain ⟨hslot, -, hnamed⟩ := Words.of_mem_track h
      exact .inr ⟨hp, hslot, by rw [hnamed, hslot]⟩
    · cases h
  | remove p txn =>
    obtain ⟨hp, -, hnamed⟩ := Words.of_mem_untrack h
    exact ⟨p, rfl, .inl ⟨(Words.of_slot? hp).2, hnamed⟩⟩
  | table c =>
    obtain ⟨p, hp, hed⟩ := TableCall.of_mem_plan h
    exact ⟨p, hp, .inl hed⟩

end VersionBoard
