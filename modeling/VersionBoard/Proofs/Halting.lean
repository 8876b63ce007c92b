import VersionBoard.Proofs.PlanCases

/-!
# Why a call gets no answer

A plan halts where the source of a call gives up: as an error, since a slot has
no entry left; as a violation; or because it has to wait for an entry. All these
places are gone through once, function by function, for whatever is to be known
of the way in which a plan halts (`Plan.HaltsOnly`). What comes of it for a call
is the list of its reasons (`BoardCall.halts_plan`): some are for the caller to
answer for (`BoardCall.Misuse`), the others say something about the table.
-/

namespace VersionBoard

variable {α β : Type}

/-! ### Plans and how they halt -/

/-- If the plan halts, then as `P` says. -/
def Plan.HaltsOnly (plan : Plan α) (P : Halt → Prop) : Prop := ∀ x, plan.1 = .error x → P x

namespace Plan.HaltsOnly

variable {P Q : Halt → Prop} {plan : Plan α}

theorem ok (a : α) (es : List Edit) : HaltsOnly (.ok a, es) P := fun _ hx => nomatch hx

theorem error {x : Halt} (hx : P x) (es : List Edit) : HaltsOnly ((.error x, es) : Plan α) P := by
  rintro _ ⟨⟩
  exact hx

theorem mono (h : plan.HaltsOnly P) (hPQ : ∀ x, P x → Q x) : plan.HaltsOnly Q := fun x hx => hPQ x (h x hx)

theorem map (h : plan.HaltsOnly P) (f : α → β) : (plan.map f).HaltsOnly P := by
  rcases plan with ⟨y | a, es⟩
  · exact fun x hx => h x (congrArg Except.error (Except.error.inj hx))
  · exact ok _ _

theorem andThen (h : plan.HaltsOnly P) {k : α → Plan β} (hk : ∀ a, (k a).HaltsOnly P) : (plan.andThen k).HaltsOnly P := by
  rcases plan with ⟨y | a, es⟩
  · exact fun x hx => h x (congrArg Except.error (Except.error.inj hx))
  · exact hk a

theorem withKey {txn : Txn} {f : UInt64 → Plan α} (hkey : txn.key? = none → P (.violated (.untrackable txn)))
    (hf : ∀ k, (f k).HaltsOnly P) : (Words.withKey txn f).HaltsOnly P := by
  rw [Words.withKey]
  cases hk : txn.key? with
  | none => exact error (hkey hk) _
  | some k => exact hf k

end Plan.HaltsOnly

/-! ### The parts of calls -/

namespace LockWord

variable {w : LockWord}

theorem isReserved_of_addReader (h : addReader w = .reserved) : isReserved w = true := by
  rw [addReader] at h
  split_ifs at h with hr
  exact hr

theorem isReserved_of_addWriter (h : addWriter w = .reserved) : isReserved w = true := by
  rw [addWriter] at h
  split_ifs at h with _ hr
  exact hr

end LockWord

namespace Words

section Halts

variable {P : Halt → Prop} {txn : Txn} (w : Words) (v i : Nat) (p : Partition)
  (hkey : txn.key? = none → P (.violated (.untrackable txn)))
  (hfull : ∀ i, w.Tracks i p → w.Full i → P (.failed (.versionsExhausted p entriesPerSlot)))
  (hpending : ∀ i, w.free? i = none → ¬ w.Full i → P (.waits (.freeEntry i)))
  (hreserved : ∀ i e, LockWord.isReserved (w (.lock i e)) = true → P (.waits (.reassignment i e)))

include hfull hpending in
theorem halts_claim (hp : w.Tracks i p) (k : UInt64) : (w.claim i p k).HaltsOnly P := by
  unfold claim
  cases hf : w.free? i with
  | some e => exact .ok _ _
  | none =>
    cases w.idle? i with
    | some e => exact .ok _ _
    | none =>
      dsimp only
      split_ifs with hall
      · exact .error (hfull i hp hall) _
      · exact .error (hpending i hf hall) _

include hkey

theorem halts_track (hnext : w.free? (w.next v) = none → P (.waits (.freeEntry (w.next v)))) :
    (w.track v p txn).HaltsOnly P := by
  rcases w.track_cases v p txn with ⟨hf, heq⟩ | ⟨e, -, ⟨k, -, heq⟩ | ⟨hk, heq⟩⟩ <;> rw [heq]
  · exact .error (hnext hf) _
  · exact .ok _ _
  · exact .error (hkey hk) _

theorem halts_untrack : (w.untrack v p txn).HaltsOnly P := by
  unfold untrack
  cases w.slot? v p with
  | none => exact .ok _ _
  | some i =>
    refine .withKey hkey ?_
    intro k
    cases w.entryWith? i k with
    | none => exact .ok _ _
    | some e =>
      dsimp only
      split_ifs <;> exact .ok _ _

theorem halts_find : (w.find v p txn).HaltsOnly P := by
  rcases find_cases w v p txn with ⟨at?, h⟩ | ⟨h, hk⟩
  · rw [h]
    exact .ok _ _
  · rw [h]
    exact .error (hkey hk) _

theorem halts_releaseRead (huntracked : P (.violated (.untrackedRelease .read p txn)))
    (hunmatched : P (.violated (.unmatchedRelease p txn))) : (w.releaseRead v p txn).HaltsOnly P := by
  refine (w.halts_find v p hkey).andThen ?_
  rintro (_ | ⟨i, e⟩)
  · exact .error huntracked _
  · dsimp only
    cases LockWord.removeReader? (w (.lock i e)) with
    | none => exact .error hunmatched _
    | some u => exact .ok _ _

theorem halts_releaseWrite (huntracked : P (.violated (.untrackedRelease .write p txn)))
    (hunheld : P (.violated (.noWriter p txn))) : (w.releaseWrite v p txn).HaltsOnly P := by
  refine (w.halts_find v p hkey).andThen ?_
  rintro (_ | ⟨i, e⟩)
  · exact .error huntracked _
  · dsimp only
    split_ifs
    · exact .ok _ _
    · exact .error hunheld _

include hfull hpending

theorem halts_register : (w.register i p txn).HaltsOnly P := by
  unfold register
  split_ifs with hp
  · refine .withKey hkey ?_
    intro k
    cases w.entryWith? i k with
    | some e => exact .ok _ _
    | none => exact (w.halts_claim i p hfull hpending hp k).map _
  · exact .ok _ _

theorem halts_findOrRegister : (w.findOrRegister v p txn).HaltsOnly P := by
  unfold findOrRegister
  cases hp : w.slot? v p with
  | none => exact .ok _ _
  | some i =>
    refine .withKey hkey ?_
    intro k
    cases w.entryWith? i k with
    | some e => exact .ok _ _
    | none => exact (w.halts_claim i p hfull hpending (of_slot? hp).2 k).map _

theorem halts_add
    (hnext : w.free? (w.next w.used) = none → P (.waits (.freeEntry (w.next w.used))))
    (hroom : ¬ sizeFor (w.next w.used + 1) ≤ Region.maxSize →
      P (.violated (.slotBeyondCapacity (w.next w.used) (slotsIn Region.maxSize)))) :
    (w.add p txn).HaltsOnly P := by
  rcases w.add_cases p txn with ⟨i, -, heq⟩ | ⟨-, ⟨-, heq⟩ | ⟨hfits, heq⟩⟩ <;> rw [heq]
  · exact (w.halts_register i p hkey hfull hpending).map _
  · exact (w.halts_track w.used p hkey hnext).map _
  · exact .error (hroom hfits) _

include hreserved

theorem halts_acquireRead (hoverflow : P (.violated .readerOverflow)) : (w.acquireRead v p txn).HaltsOnly P := by
  refine (w.halts_findOrRegister v p hkey hfull hpending).andThen ?_
  rintro (_ | ⟨i, e⟩)
  · exact .ok _ _
  · dsimp only
    cases ha : LockWord.addReader (w (.lock i e)) with
    | added u => exact .ok _ _
    | writer => exact .ok _ _
    | reserved => exact .error (hreserved i e (LockWord.isReserved_of_addReader ha)) _
    | overflow => exact .error hoverflow _

theorem halts_acquireWrite : (w.acquireWrite v p txn).HaltsOnly P := by
  refine (w.halts_findOrRegister v p hkey hfull hpending).andThen ?_
  rintro (_ | ⟨i, e⟩)
  · exact .ok _ _
  · dsimp only
    cases ha : LockWord.addWriter (w (.lock i e)) with
    | acquired u => exact .ok _ _
    | busy => exact .ok _ _
    | reserved => exact .error (hreserved i e (LockWord.isReserved_of_addWriter ha)) _

end Halts

end Words

/-! ### What callers bring about -/

/-- The only transaction without a key. -/
theorem Txn.eq_of_key?_eq_none {t : Txn} (h : t.key? = none) : t = ⟨0xFFFFFFFFFFFFFFFF⟩ := by
  have hgt := key?_eq_none h
  rw [UInt64.le_iff_toNat_le] at hgt
  have hmax : max.number.toNat = 2 ^ 64 - 2 := rfl
  have hlt := t.number.toNat_lt
  have hnumber : t.number = 0xFFFFFFFFFFFFFFFF := UInt64.toNat_inj.mp (show t.number.toNat = 2 ^ 64 - 1 by omega)
  cases t
  exact congrArg mk hnumber

/-- The violations that a call can be by what it asks for: a release without an acquisition, a reader too many, a
transaction without a key. -/
inductive BoardCall.Misuse : BoardCall → Violation → Prop
  /-- The lock of a version that is not registered is released. -/
  | untracked (mode : LockMode) (p : Partition) (txn : Txn) :
      Misuse (.table (mode.release p txn)) (.untrackedRelease mode p txn)
  /-- The read lock of a version without readers is released. -/
  | unmatched (p : Partition) (txn : Txn) : Misuse (.table (.releaseRead p txn)) (.unmatchedRelease p txn)
  /-- The write lock of a version without a writer is released. -/
  | unheld (p : Partition) (txn : Txn) : Misuse (.table (.releaseWrite p txn)) (.noWriter p txn)
  /-- There are as many readers as can be counted. -/
  | overflow (p : Partition) (txn : Txn) : Misuse (.table (.acquireRead p txn)) .readerOverflow
  /-- The largest number of all has no key. -/
  | untrackable {c : BoardCall} (hc : c.txn? = some ⟨0xFFFFFFFFFFFFFFFF⟩) :
      Misuse c (.untrackable ⟨0xFFFFFFFFFFFFFFFF⟩)

/-- A transaction without a key is misuse by any call that is about it. -/
theorem BoardCall.Misuse.of_key? {c : BoardCall} {txn : Txn} (hc : c.txn? = some txn) (hk : txn.key? = none) :
    c.Misuse (.untrackable txn) := by
  rw [Txn.eq_of_key?_eq_none hk] at hc ⊢
  exact .untrackable hc

/-! ### Calls -/

/-- The ways in which a call can halt on the table `w`. -/
inductive BoardCall.MayHalt (w : Words) (c : BoardCall) : Halt → Prop
  /-- The caller misuses the board. -/
  | misuse {x : Violation} (hx : c.Misuse x) : MayHalt w c (.violated x)
  /-- No file has room for a new partition's slot. -/
  | noRoom {p : Partition} {txn : Txn} (hc : c = .add p txn) (h : ¬ sizeFor (w.next w.used + 1) ≤ Region.maxSize) :
      MayHalt w c (.violated (.slotBeyondCapacity (w.next w.used) (slotsIn Region.maxSize)))
  /-- The slot of the partition has no entry left. -/
  | full {p : Partition} {i : Nat} (hc : c.partition? = some p) (hp : w.Tracks i p) (hfull : w.Full i) :
      MayHalt w c (.failed (.versionsExhausted p entriesPerSlot))
  /-- No entry of a slot can be had now, though one is without a key, or the slot is to be given away. -/
  | pending {i : Nat} (hfree : w.free? i = none) (hi : ¬ w.Full i ∨ i = w.next w.used) : MayHalt w c (.waits (.freeEntry i))
  /-- An entry is between two versions. -/
  | reserved {i : Nat} {e : EntryIndex} (h : LockWord.isReserved (w (.lock i e)) = true) :
      MayHalt w c (.waits (.reassignment i e))

theorem TableCall.halts_plan (w : Words) (v : Nat) (c : TableCall) :
    (c.plan w v).HaltsOnly ((BoardCall.table c).MayHalt w) := by
  have hkey : ∀ {c : TableCall} {txn : Txn}, (BoardCall.table c).txn? = some txn → txn.key? = none →
      (BoardCall.table c).MayHalt w (.violated (.untrackable txn)) := fun hc hk => .misuse (.of_key? hc hk)
  have hpending : ∀ {c : TableCall} i, w.free? i = none → ¬ w.Full i →
      (BoardCall.table c).MayHalt w (.waits (.freeEntry i)) := fun _ hf hi => .pending hf (.inl hi)
  cases c with
  | acquireRead p txn =>
    exact (w.halts_acquireRead v p (hkey rfl) (fun _ => .full rfl) hpending (fun _ _ => .reserved) (.misuse (.overflow p txn))).map _
  | acquireWrite p txn =>
    exact (w.halts_acquireWrite v p (hkey rfl) (fun _ => .full rfl) hpending fun _ _ => .reserved).map _
  | releaseRead p txn =>
    exact (w.halts_releaseRead v p (hkey rfl) (.misuse (.untracked .read p txn)) (.misuse (.unmatched p txn))).map _
  | releaseWrite p txn =>
    exact (w.halts_releaseWrite v p (hkey rfl) (.misuse (.untracked .write p txn)) (.misuse (.unheld p txn))).map _
  | readerCount p txn => exact (w.halts_find v p (hkey rfl)).map _
  | hasWriter p txn => exact (w.halts_find v p (hkey rfl)).map _
  | slotOfVersion p txn => exact (w.halts_find v p (hkey rfl)).map _
  | _ => exact .ok _ _

/-- A call without an answer is misuse, or no entry or no slot is to be had, or it waits for one. -/
theorem BoardCall.halts_plan (w : Words) (c : BoardCall) : (c.plan w).HaltsOnly (c.MayHalt w) := by
  cases c with
  | table c => exact c.halts_plan w w.used
  | add p txn =>
    exact (w.halts_add p (fun hk => .misuse (.of_key? rfl hk)) (fun _ => .full rfl) (fun _ hf hi => .pending hf (.inl hi))
      (fun hf => .pending hf (.inr rfl)) (.noRoom rfl)).map _
  | remove p txn => exact (w.halts_untrack w.used p fun hk => .misuse (.of_key? rfl hk)).map _

end VersionBoard
