import VersionBoard.Proofs.LockWords
import VersionBoard.Proofs.Plan
import Mathlib.Algebra.BigOperators.Group.Finset.Basic
import Mathlib.Algebra.Order.BigOperators.Group.Finset

/-!
# Coherent tables

What holds of a table between two calls, whatever was called before. Of a free
entry's lock word nothing is said: an attempt on the entry's last version may
still be on its way to undo itself. The edits that a plan makes are allowed
where it makes them (`BoardCall.allows_plan`), and an edit that is allowed
leaves a coherent table coherent (`Words.Coherent.edit`).
-/

namespace VersionBoard

namespace Words

/-- How many of the used slots are live. -/
def liveCount (w : Words) : Nat := ((Finset.range w.used).filter w.Live).card

/-- How many readers the version in entry `e` of slot `i` has, if one is registered there. -/
def heldAt (w : Words) (i : Nat) (e : EntryIndex) : Nat :=
  if w (.key i e) = 0 then 0 else (LockWord.readers (w (.lock i e))).toNat

theorem heldAt_of_key {w : Words} {i : Nat} {e : EntryIndex} (hk : w (.key i e) ≠ 0) :
    w.heldAt i e = (LockWord.readers (w (.lock i e))).toNat := if_neg hk

/-- How many readers all registered versions have. -/
def readerTotal (w : Words) : Nat := ∑ i ∈ Finset.range w.used, ∑ e, w.heldAt i e

/-- What holds of a table between two calls. -/
structure Coherent (w : Words) : Prop where
  /-- A used slot is live or retired. -/
  known : ∀ i, i < w.used → w.Live i ∨ w (.state i) = SlotState.retired
  /-- Any other slot is free. -/
  unused : ∀ i, w.used ≤ i → w (.state i) = SlotState.free
  /-- The live slots are counted. -/
  counted : (w .liveSlots).toNat = w.liveCount
  /-- Two slots never track the same partition. -/
  unique : ∀ i j p, w.Tracks i p → w.Tracks j p → i = j
  /-- The live slots are the ones with a registered version. -/
  peopled : ∀ i, w.Live i ↔ ∃ e, w (.key i e) ≠ 0
  /-- The versions of a slot have different keys. -/
  apart : ∀ i d e, w (.key i d) ≠ 0 → w (.key i d) = w (.key i e) → d = e
  /-- A version is held by readers, by one writer or by nobody. -/
  proper : ∀ i e, w (.key i e) ≠ 0 → LockWord.Proper (w (.lock i e))
  /-- The readers are counted, as far as a word can count. -/
  tallied : (w .readLocks).toNat = w.readerTotal % 2 ^ 64
  /-- No structural change is going on. -/
  headerFree : w .headerLock = 0
  /-- No slot is locked. -/
  slotsFree : ∀ i, w (.slotLock i) = 0

end Words

/-! ### What an edit changes -/

namespace Edit

/-- The entry that gets another key, and the key. -/
def keyed : Edit → Option ((Nat × EntryIndex) × UInt64)
  | assign i e k => some ((i, e), k)
  | evict i e k => some ((i, e), k)
  | unregister i e => some ((i, e), 0)
  | retire i e => some ((i, e), 0)
  | track i e _ k => some ((i, e), k)
  | _ => none

/-- The slot that gets another state, and the state. -/
def stated : Edit → Option (Nat × UInt64)
  | retire i _ => some (i, SlotState.retired)
  | track i _ _ _ => some (i, SlotState.live)
  | _ => none

/-- Where an edit may be made. -/
def Allowed (w : Words) : Edit → Prop
  | addReader i e => w (.key i e) ≠ 0 ∧ ∃ v, LockWord.addReader (w (.lock i e)) = .added v
  | dropReader i e => w (.key i e) ≠ 0 ∧ LockWord.readers (w (.lock i e)) ≠ 0
  | addWriter i e => w (.key i e) ≠ 0 ∧ w (.lock i e) = 0
  | dropWriter i e => w (.key i e) ≠ 0 ∧ LockWord.hasWriter (w (.lock i e)) = true
  | assign i e k => w.Live i ∧ w (.key i e) = 0 ∧ w (.lock i e) = 0 ∧ k ≠ 0 ∧ ∀ d, w (.key i d) ≠ k
  | evict i e k => w (.key i e) ≠ 0 ∧ w (.lock i e) = 0 ∧ k ≠ 0 ∧ ∀ d, w (.key i d) ≠ k
  | unregister i e => w (.key i e) ≠ 0 ∧ w (.lock i e) = 0 ∧ ¬ w.Alone i e
  | retire i e => w (.key i e) ≠ 0 ∧ w (.lock i e) = 0 ∧ w.Alone i e
  | track i e p k =>
    ¬ w.Live i ∧ i ≤ w.used ∧ i + 1 < 2 ^ 64 ∧ w (.lock i e) = 0 ∧ k ≠ 0 ∧ ∀ j, ¬ w.Tracks j p
  | abandon i e _ => ¬ w.Live i ∧ i ≤ w.used ∧ w (.lock i e) = 0

end Edit

namespace Words

variable {w : Words} {ed : Edit}

theorem key_edit_of_keyed {i : Nat} {e : EntryIndex} {k : UInt64} (h : ed.keyed = some ((i, e), k)) :
    w.edit ed (.key i e) = k := by
  cases ed <;> simp_all [Edit.keyed, edit, Edit.writes, set_apply]

theorem key_edit_of_ne {i : Nat} {e : EntryIndex} (h : ∀ k, ed.keyed ≠ some ((i, e), k)) :
    w.edit ed (.key i e) = w (.key i e) := by
  cases ed <;> simp_all [Edit.keyed, edit, Edit.writes, set_apply]
  all_goals grind

theorem lock_edit_of_ne {i : Nat} {e : EntryIndex} (h : ed.locked ≠ some (i, e)) :
    w.edit ed (.lock i e) = w (.lock i e) := by
  cases ed <;> simp_all [Edit.locked, edit, Edit.writes, set_apply]
  all_goals grind

theorem state_edit_of_stated {i : Nat} {v : UInt64} (h : ed.stated = some (i, v)) : w.edit ed (.state i) = v := by
  cases ed <;> simp_all [Edit.stated, edit, Edit.writes, set_apply]

theorem state_edit_of_ne {i : Nat} (h : ∀ v, ed.stated ≠ some (i, v)) : w.edit ed (.state i) = w (.state i) := by
  cases ed <;> simp_all [Edit.stated, edit, Edit.writes, set_apply]
  all_goals grind

theorem partition_edit_of_ne {i : Nat} (h : ∀ p, ed.named ≠ some (i, p)) :
    w.edit ed (.partition i) = w (.partition i) := by
  cases ed <;> simp_all [Edit.named, edit, Edit.writes, set_apply]
  all_goals grind

theorem lock_edit_addReader (w : Words) (i : Nat) (e : EntryIndex) :
    w.edit (.addReader i e) (.lock i e) = w (.lock i e) + 1 := by
  simp [edit, Edit.writes, set_apply]

theorem lock_edit_dropReader (w : Words) (i : Nat) (e : EntryIndex) :
    w.edit (.dropReader i e) (.lock i e) = w (.lock i e) - 1 := by
  simp [edit, Edit.writes, set_apply]

theorem lock_edit_addWriter (w : Words) (i : Nat) (e : EntryIndex) :
    w.edit (.addWriter i e) (.lock i e) = LockWord.writeBit := by
  simp [edit, Edit.writes]

theorem lock_edit_dropWriter (w : Words) (i : Nat) (e : EntryIndex) :
    w.edit (.dropWriter i e) (.lock i e) = LockWord.removeWriter (w (.lock i e)) := by
  simp [edit, Edit.writes]

theorem lock_edit_abandon (w : Words) (i : Nat) (e : EntryIndex) (p : Partition) :
    w.edit (.abandon i e p) (.lock i e) = LockWord.reservedBit := by
  simp [edit, Edit.writes]

theorem readLocks_edit_addReader (w : Words) (i : Nat) (e : EntryIndex) :
    w.edit (.addReader i e) .readLocks = w .readLocks + 1 := by
  simp [edit, Edit.writes]

theorem readLocks_edit_dropReader (w : Words) (i : Nat) (e : EntryIndex) :
    w.edit (.dropReader i e) .readLocks = w .readLocks - 1 := by
  simp [edit, Edit.writes]

theorem guard_edit {g : Cell} (hg : g.IsGuard) : w.edit ed g = w g :=
  setAll_of_notMem _ fun _ hx h => Edit.not_isGuard_of_mem_writes hx (by rw [h]; exact hg)

/-! ### What stays in other slots -/

theorem key_edit_of_slot_ne {j : Nat} (h : j ≠ ed.slot) (d : EntryIndex) : w.edit ed (.key j d) = w (.key j d) := by
  refine key_edit_of_ne fun k hk => h ?_
  cases ed <;> simp_all [Edit.keyed, Edit.slot]

theorem lock_edit_of_slot_ne {j : Nat} (h : j ≠ ed.slot) (d : EntryIndex) : w.edit ed (.lock j d) = w (.lock j d) := by
  refine lock_edit_of_ne fun hl => h ?_
  cases ed <;> simp_all [Edit.locked, Edit.slot]

theorem state_edit_of_slot_ne {j : Nat} (h : j ≠ ed.slot) : w.edit ed (.state j) = w (.state j) := by
  refine state_edit_of_ne fun v hv => h ?_
  cases ed <;> simp_all [Edit.stated, Edit.slot]

theorem partition_edit_of_slot_ne {j : Nat} (h : j ≠ ed.slot) : w.edit ed (.partition j) = w (.partition j) := by
  refine partition_edit_of_ne fun p hp => h ?_
  cases ed <;> simp_all [Edit.named, Edit.slot]

/-! ### Consequences of coherence -/

namespace Coherent

theorem lt_used_of_live (h : w.Coherent) {i : Nat} (hi : w.Live i) : i < w.used := by
  by_contra hn
  have h0 : w (.state i) = SlotState.free := h.unused i (by omega)
  rw [Live, h0] at hi
  exact absurd hi (by decide)

theorem live_of_key (h : w.Coherent) {i : Nat} {e : EntryIndex} (he : w (.key i e) ≠ 0) : w.Live i :=
  (h.peopled i).mpr ⟨e, he⟩

theorem key_eq_zero (h : w.Coherent) {i : Nat} (hi : ¬ w.Live i) (e : EntryIndex) : w (.key i e) = 0 := by
  by_contra he
  exact hi (h.live_of_key he)

end Coherent

/-! ### An allowed edit leaves a coherent table coherent -/

section Preserved

variable (h : w.Coherent) (ha : ed.Allowed w)

include ha in
/-- The entry that gets another key is in nobody's hands. -/
theorem lock_of_keyed {i : Nat} {e : EntryIndex} {k : UInt64} (hk : ed.keyed = some ((i, e), k)) :
    w (.lock i e) = 0 := by
  cases ed <;> simp_all [Edit.keyed, Edit.Allowed]

/-- An entry does not get another key and another lock word at once. -/
theorem locked_ne_of_keyed {x : Nat × EntryIndex} {k : UInt64} (hk : ed.keyed = some (x, k)) : ed.locked ≠ some x := by
  cases ed <;> simp [Edit.keyed, Edit.locked] at hk ⊢

include ha in
/-- An edit changes the lock word of a registered version, unless it abandons the slot. -/
theorem key_ne_zero_of_locked {i : Nat} {e : EntryIndex} (hl : ed.locked = some (i, e)) :
    w (.key i e) ≠ 0 ∨ ed.abandons = true ∧ w (.lock i e) = 0 := by
  cases ed with
  | addReader j d =>
    obtain ⟨rfl, rfl⟩ : j = i ∧ d = e := by simpa [Edit.locked] using hl
    exact .inl ha.1
  | dropReader j d =>
    obtain ⟨rfl, rfl⟩ : j = i ∧ d = e := by simpa [Edit.locked] using hl
    exact .inl ha.1
  | addWriter j d =>
    obtain ⟨rfl, rfl⟩ : j = i ∧ d = e := by simpa [Edit.locked] using hl
    exact .inl ha.1
  | dropWriter j d =>
    obtain ⟨rfl, rfl⟩ : j = i ∧ d = e := by simpa [Edit.locked] using hl
    exact .inl ha.1
  | abandon j d p =>
    obtain ⟨rfl, rfl⟩ : j = i ∧ d = e := by simpa [Edit.locked] using hl
    exact .inr ⟨rfl, ha.2.2⟩
  | _ => cases hl

theorem stated_eq {i : Nat} {v : UInt64} (hs : ed.stated = some (i, v)) :
    v = SlotState.live ∨ v = SlotState.retired := by
  cases ed <;> simp_all [Edit.stated]

include h ha

/-- A key that is given is new in its slot. -/
theorem key_ne_of_keyed {i : Nat} {e : EntryIndex} {k : UInt64} (hk : ed.keyed = some ((i, e), k)) (h0 : k ≠ 0)
    (d : EntryIndex) : w (.key i d) ≠ k := by
  cases ed with
  | assign j e' k' =>
    obtain ⟨⟨rfl, rfl⟩, rfl⟩ : (j = i ∧ e' = e) ∧ k' = k := by simpa [Edit.keyed] using hk
    exact ha.2.2.2.2 d
  | evict j e' k' =>
    obtain ⟨⟨rfl, rfl⟩, rfl⟩ : (j = i ∧ e' = e) ∧ k' = k := by simpa [Edit.keyed] using hk
    exact ha.2.2.2 d
  | track j e' p k' =>
    obtain ⟨⟨rfl, rfl⟩, rfl⟩ : (j = i ∧ e' = e) ∧ k' = k := by simpa [Edit.keyed] using hk
    rw [h.key_eq_zero ha.1]
    exact h0.symm
  | _ => simp [Edit.keyed] at hk <;> exact absurd hk.2.symm h0

omit h in
theorem used_edit : (w.edit ed).used = if ed.stated = some (w.used, SlotState.live) then w.used + 1 else w.used := by
  cases ed with
  | track i e p k =>
    have hused : w.edit (.track i e p k) .usedSlots = if i = w.used then UInt64.ofNat (i + 1) else w .usedSlots := by
      simp [edit, Edit.writes, set_apply]
    rw [used, hused]
    by_cases hi : i = w.used
    · rw [if_pos hi, UInt64.toNat_ofNat', Nat.mod_eq_of_lt ha.2.2.1, if_pos (by rw [Edit.stated, hi]), hi]
    · rw [if_neg hi, if_neg (by simp [Edit.stated, hi])]
      rfl
  | retire i e => simp [used, edit, Edit.writes, Edit.stated, set_apply, SlotState.live, SlotState.retired]
  | _ => simp [used, edit, Edit.writes, Edit.stated, set_apply]

theorem known_edit {i : Nat} (hi : i < (w.edit ed).used) :
    (w.edit ed).Live i ∨ w.edit ed (.state i) = SlotState.retired := by
  by_cases hs : ∃ v, ed.stated = some (i, v)
  · obtain ⟨v, hv⟩ := hs
    rw [Live, state_edit_of_stated hv]
    exact stated_eq hv
  · have hne : ∀ v, ed.stated ≠ some (i, v) := fun v hv => hs ⟨v, hv⟩
    rw [Live, state_edit_of_ne hne]
    refine h.known i ?_
    rw [used_edit ha] at hi
    split_ifs at hi with hlast
    · have : i ≠ w.used := fun heq => hs ⟨_, heq ▸ hlast⟩
      omega
    · exact hi

theorem unused_edit {i : Nat} (hi : (w.edit ed).used ≤ i) : w.edit ed (.state i) = SlotState.free := by
  rw [used_edit ha] at hi
  by_cases hs : ∃ v, ed.stated = some (i, v)
  · obtain ⟨v, hv⟩ := hs
    exfalso
    cases ed with
    | retire j e =>
      obtain ⟨rfl, rfl⟩ : j = i ∧ SlotState.retired = v := by simpa [Edit.stated] using hv
      have := h.lt_used_of_live (h.live_of_key ha.1)
      split_ifs at hi <;> omega
    | track j e p k =>
      obtain ⟨rfl, rfl⟩ : j = i ∧ SlotState.live = v := by simpa [Edit.stated] using hv
      have := ha.2.1
      split_ifs at hi with hlast
      · omega
      · exact hlast (by rw [show w.used = j by omega]; exact hv)
    | _ => cases hv
  · rw [state_edit_of_ne fun v hv => hs ⟨v, hv⟩]
    refine h.unused i ?_
    split_ifs at hi <;> omega

theorem peopled_edit (i : Nat) : (w.edit ed).Live i ↔ ∃ e, w.edit ed (.key i e) ≠ 0 := by
  by_cases hi : i = ed.slot
  · subst hi
    cases ed with
    | assign i e k =>
      refine ⟨fun _ => ⟨e, ?_⟩, fun _ => ?_⟩
      · rw [key_edit_of_keyed rfl]
        exact ha.2.2.2.1
      · exact ha.1
    | evict i e k =>
      refine ⟨fun _ => ⟨e, ?_⟩, fun _ => ?_⟩
      · rw [key_edit_of_keyed rfl]
        exact ha.2.2.1
      · exact h.live_of_key ha.1
    | unregister i e =>
      refine ⟨fun _ => ?_, fun _ => h.live_of_key ha.1⟩
      obtain ⟨d, hd, hk⟩ : ∃ d, d ≠ e ∧ w (.key i d) ≠ 0 := by simpa [Alone] using ha.2.2
      refine ⟨d, ?_⟩
      rwa [key_edit_of_ne fun k hk => hd (by simp_all [Edit.keyed])]
    | retire i e =>
      constructor
      · intro hl
        rw [Live, state_edit_of_stated rfl] at hl
        exact absurd hl (by decide)
      · rintro ⟨d, hd⟩
        by_cases hde : d = e
        · rw [hde, key_edit_of_keyed rfl] at hd
          exact absurd rfl hd
        · rw [key_edit_of_ne fun k hk => hde (by simp_all [Edit.keyed])] at hd
          exact absurd (ha.2.2 d hde) hd
    | track i e p k =>
      refine ⟨fun _ => ⟨e, ?_⟩, fun _ => state_edit_of_stated rfl⟩
      rw [key_edit_of_keyed rfl]
      exact ha.2.2.2.2.1
    | _ => exact h.peopled _
  · have hk := key_edit_of_slot_ne (w := w) hi
    simp only [Live, state_edit_of_slot_ne hi, hk]
    exact h.peopled i

omit h in
theorem tracks_of_edit {i : Nat} {p : Partition} (ht : (w.edit ed).Tracks i p) :
    w.Tracks i p ∨ ∃ e k, ed = .track i e p k := by
  by_cases hi : i = ed.slot
  · subst hi
    cases ed with
    | retire i e =>
      have hl := ht.1
      rw [Live, state_edit_of_stated rfl] at hl
      exact absurd hl (by decide)
    | track i e q k =>
      have hq : w.edit (.track i e q k) (.partition i) = q.word := by simp [edit, Edit.writes, set_apply]
      have hp := ht.2
      rw [Edit.slot, hq, Partition.ofWord_word] at hp
      exact .inr ⟨e, k, by rw [hp]; rfl⟩
    | abandon i e q => exact absurd ht.1 ha.1
    | _ => exact .inl ht
  · left
    rwa [Tracks, Live, state_edit_of_slot_ne hi, partition_edit_of_slot_ne hi] at ht

theorem unique_edit {i j : Nat} {p : Partition} (hi : (w.edit ed).Tracks i p) (hj : (w.edit ed).Tracks j p) : i = j := by
  rcases tracks_of_edit ha hi with hi' | ⟨e, k, hed⟩
  · rcases tracks_of_edit ha hj with hj' | ⟨e, k, hed⟩
    · exact h.unique i j p hi' hj'
    · subst hed
      exact absurd hi' (ha.2.2.2.2.2 i)
  · subst hed
    rcases tracks_of_edit ha hj with hj' | ⟨_, _, hed⟩
    · exact absurd hj' (ha.2.2.2.2.2 j)
    · cases hed
      rfl

theorem apart_edit {i : Nat} {d e : EntryIndex} (hd : w.edit ed (.key i d) ≠ 0)
    (heq : w.edit ed (.key i d) = w.edit ed (.key i e)) : d = e := by
  by_contra hne
  by_cases hkd : ∃ k, ed.keyed = some ((i, d), k)
  · obtain ⟨k, hk⟩ := hkd
    rw [key_edit_of_keyed hk] at hd heq
    rw [key_edit_of_ne fun k' hk' => hne (by rw [hk] at hk'; simp_all)] at heq
    exact key_ne_of_keyed h ha hk hd e heq.symm
  · rw [key_edit_of_ne fun k hk => hkd ⟨k, hk⟩] at hd heq
    by_cases hke : ∃ k, ed.keyed = some ((i, e), k)
    · obtain ⟨k, hk⟩ := hke
      rw [key_edit_of_keyed hk] at heq
      exact key_ne_of_keyed h ha hk (heq ▸ hd) d heq
    · rw [key_edit_of_ne fun k hk => hke ⟨k, hk⟩] at heq
      exact hne (h.apart i d e hd heq)

theorem proper_edit {i : Nat} {e : EntryIndex} (hk : w.edit ed (.key i e) ≠ 0) :
    LockWord.Proper (w.edit ed (.lock i e)) := by
  by_cases hl : ed.locked = some (i, e)
  · have hkey : w.edit ed (.key i e) = w (.key i e) :=
      key_edit_of_ne fun k hk' => locked_ne_of_keyed hk' hl
    rw [hkey] at hk
    have hproper := h.proper i e hk
    cases ed with
    | addReader j d =>
      obtain ⟨rfl, rfl⟩ : j = i ∧ d = e := by simpa [Edit.locked] using hl
      obtain ⟨-, v, hv⟩ := ha
      rw [lock_edit_addReader]
      exact hproper.add_reader hv
    | dropReader j d =>
      obtain ⟨rfl, rfl⟩ : j = i ∧ d = e := by simpa [Edit.locked] using hl
      rw [lock_edit_dropReader]
      exact hproper.drop_reader ha.2
    | addWriter j d =>
      obtain ⟨rfl, rfl⟩ : j = i ∧ d = e := by simpa [Edit.locked] using hl
      rw [lock_edit_addWriter]
      exact LockWord.proper_writeBit
    | dropWriter j d =>
      obtain ⟨rfl, rfl⟩ : j = i ∧ d = e := by simpa [Edit.locked] using hl
      rw [lock_edit_dropWriter, hproper.removeWriter ha.2]
      exact LockWord.proper_zero
    | abandon j d p =>
      obtain ⟨rfl, rfl⟩ : j = i ∧ d = e := by simpa [Edit.locked] using hl
      exact absurd (h.key_eq_zero ha.1 d) hk
    | _ => cases hl
  · rw [lock_edit_of_ne hl]
    by_cases hke : ∃ k, ed.keyed = some ((i, e), k)
    · obtain ⟨k, hk⟩ := hke
      rw [lock_of_keyed ha hk]
      exact LockWord.proper_zero
    · rw [key_edit_of_ne fun k hk' => hke ⟨k, hk'⟩] at hk
      exact h.proper i e hk

/-! #### Counters -/

omit h ha in
theorem live_edit_of_ne {i : Nat} (hs : ∀ v, ed.stated ≠ some (i, v)) : (w.edit ed).Live i ↔ w.Live i := by
  rw [Live, Live, state_edit_of_ne hs]

omit h ha in
theorem liveCount_le (w : Words) : w.liveCount ≤ w.used := by
  have := Finset.card_filter_le (Finset.range w.used) w.Live
  rwa [Finset.card_range] at this

theorem liveCount_edit_retire {i : Nat} {e : EntryIndex} (hed : ed = .retire i e) :
    (w.edit ed).liveCount + 1 = w.liveCount := by
  subst hed
  have hlive := h.live_of_key ha.1
  have hmem : i ∈ (Finset.range w.used).filter w.Live :=
    Finset.mem_filter.mpr ⟨Finset.mem_range.mpr (h.lt_used_of_live hlive), hlive⟩
  have hused : (w.edit (.retire i e)).used = w.used := by
    rw [used_edit ha, if_neg (by simp [Edit.stated, SlotState.live, SlotState.retired])]
  have hset : (Finset.range w.used).filter (w.edit (.retire i e)).Live =
      ((Finset.range w.used).filter w.Live).erase i := by
    ext j
    rw [Finset.mem_erase, Finset.mem_filter, Finset.mem_filter]
    by_cases hj : j = i
    · subst hj
      have : ¬ (w.edit (.retire j e)).Live j := by
        rw [Live, state_edit_of_stated rfl]
        decide
      simp [this]
    · rw [live_edit_of_ne (by simp [Edit.stated, Ne.symm hj])]
      simp [hj]
  rw [liveCount, hused, hset, Finset.card_erase_add_one hmem, liveCount]

theorem liveCount_edit_track {i : Nat} {e : EntryIndex} {p : Partition} {k : UInt64} (hed : ed = .track i e p k) :
    (w.edit ed).liveCount = w.liveCount + 1 := by
  subst hed
  have hnot : i ∉ (Finset.range w.used).filter w.Live := fun hm => ha.1 (Finset.mem_filter.mp hm).2
  have hset : (Finset.range (w.edit (.track i e p k)).used).filter (w.edit (.track i e p k)).Live =
      insert i ((Finset.range w.used).filter w.Live) := by
    ext j
    rw [Finset.mem_insert, Finset.mem_filter, Finset.mem_filter, Finset.mem_range, Finset.mem_range, used_edit ha]
    by_cases hj : j = i
    · subst hj
      have hl : (w.edit (.track j e p k)).Live j := state_edit_of_stated rfl
      have hle := ha.2.1
      refine ⟨fun _ => .inl rfl, fun _ => ⟨?_, hl⟩⟩
      split_ifs with hlast
      · omega
      · have : j ≠ w.used := fun heq => hlast (by rw [Edit.stated, heq])
        omega
    · rw [live_edit_of_ne (by simp [Edit.stated, Ne.symm hj])]
      refine ⟨fun ⟨_, hl⟩ => .inr ⟨h.lt_used_of_live hl, hl⟩, ?_⟩
      rintro (rfl | ⟨hlt, hl⟩)
      · exact absurd rfl hj
      · refine ⟨?_, hl⟩
        split_ifs <;> omega
  rw [liveCount, hset, Finset.card_insert_of_notMem hnot, liveCount]

omit h in
theorem liveCount_edit_of_none (hs : ed.stated = none) : (w.edit ed).liveCount = w.liveCount := by
  have hused : (w.edit ed).used = w.used := by rw [used_edit ha, hs, if_neg nofun]
  rw [liveCount, hused, liveCount]
  congr 1
  exact Finset.filter_congr fun i _ => live_edit_of_ne (by simp [hs])

theorem counted_edit : (w.edit ed .liveSlots).toNat = (w.edit ed).liveCount := by
  have hcount := h.counted
  cases hs : ed.stated with
  | none =>
    have hword : w.edit ed .liveSlots = w .liveSlots := by
      cases ed <;> simp_all [Edit.stated, edit, Edit.writes, set_apply]
    rw [hword, liveCount_edit_of_none ha hs, hcount]
  | some x =>
    cases ed with
    | retire i e =>
      have hnext := liveCount_edit_retire h ha rfl
      have hword : w.edit (.retire i e) .liveSlots = w .liveSlots - 1 := by simp [edit, Edit.writes, set_apply]
      have hne : w .liveSlots ≠ 0 := by
        intro h0
        rw [h0] at hcount
        simp only [UInt64.toNat_zero] at hcount
        omega
      rw [hword, LockWord.toNat_sub_one hne, hcount]
      omega
    | track i e p k =>
      have hnext := liveCount_edit_track h ha rfl
      have hword : w.edit (.track i e p k) .liveSlots = w .liveSlots + 1 := by simp [edit, Edit.writes, set_apply]
      have hle := liveCount_le (w.edit (.track i e p k))
      have hlt : (w.edit (.track i e p k)).used < 2 ^ 64 := UInt64.toNat_lt _
      rw [hword, UInt64.toNat_add, hcount, UInt64.toNat_one]
      omega
    | _ => cases hs

/-! #### Readers -/

omit h ha in
theorem readerTotal_eq {n : Nat} (hn : w.used ≤ n) (hkeys : ∀ i, w.used ≤ i → ∀ e, w (.key i e) = 0) :
    w.readerTotal = ∑ i ∈ Finset.range n, ∑ e, w.heldAt i e := by
  refine Finset.sum_subset (Finset.range_mono hn) ?_
  intro i _ hi
  refine Finset.sum_eq_zero ?_
  intro e _
  rw [heldAt, if_pos (hkeys i (by simpa using hi) e)]

omit h ha in
/-- Where one entry changes, the sum changes by as much. -/
theorem sum_heldAt_change {u : Words} {n i : Nat} {e : EntryIndex} (hi : i < n)
    (hsame : ∀ j d, (j, d) ≠ (i, e) → u.heldAt j d = w.heldAt j d) :
    (∑ j ∈ Finset.range n, ∑ d, u.heldAt j d) + w.heldAt i e =
      (∑ j ∈ Finset.range n, ∑ d, w.heldAt j d) + u.heldAt i e := by
  have hmem : (i, e) ∈ Finset.range n ×ˢ (Finset.univ : Finset EntryIndex) := by simpa using hi
  rw [← Finset.sum_product', ← Finset.sum_product', ← Finset.add_sum_erase _ _ hmem, ← Finset.add_sum_erase _ _ hmem]
  have hrest : ∑ x ∈ (Finset.range n ×ˢ Finset.univ).erase (i, e), u.heldAt x.1 x.2 =
      ∑ x ∈ (Finset.range n ×ˢ Finset.univ).erase (i, e), w.heldAt x.1 x.2 :=
    Finset.sum_congr rfl fun x hx => hsame x.1 x.2 (Finset.mem_erase.mp hx).1
  dsimp only
  omega

omit h in
theorem used_le_edit : w.used ≤ (w.edit ed).used := by
  rw [used_edit ha]
  split_ifs <;> omega

omit h in
theorem heldAt_edit_of_ne {j : Nat} {d : EntryIndex} (hl : ed.locked ≠ some (j, d)) :
    (w.edit ed).heldAt j d = w.heldAt j d := by
  rw [heldAt, heldAt, lock_edit_of_ne hl]
  by_cases hk : ∃ k, ed.keyed = some ((j, d), k)
  · obtain ⟨k, hk⟩ := hk
    rw [lock_of_keyed ha hk]
    split_ifs <;> rfl
  · rw [key_edit_of_ne fun k hk' => hk ⟨k, hk'⟩]

/-- If no entry has other readers than before, there are as many as before. -/
theorem readerTotal_edit_of_same (hsame : ∀ j d, (w.edit ed).heldAt j d = w.heldAt j d) :
    (w.edit ed).readerTotal = w.readerTotal := by
  have hkeys : ∀ i, w.used ≤ i → ∀ e, w (.key i e) = 0 := fun i hi e =>
    h.key_eq_zero (fun hl => absurd (h.lt_used_of_live hl) (by omega)) e
  rw [readerTotal_eq (used_le_edit ha) hkeys, readerTotal]
  exact Finset.sum_congr rfl fun j _ => Finset.sum_congr rfl fun d _ => hsame j d

theorem readerTotal_edit_of_locked {i : Nat} {e : EntryIndex} (hl : ed.locked = some (i, e)) (hs : ed.stated = none)
    (hk : w (.key i e) ≠ 0) :
    (w.edit ed).readerTotal + (LockWord.readers (w (.lock i e))).toNat =
      w.readerTotal + (LockWord.readers (w.edit ed (.lock i e))).toNat := by
  have hused : (w.edit ed).used = w.used := by rw [used_edit ha, hs, if_neg nofun]
  have hk' : w.edit ed (.key i e) ≠ 0 := by rwa [key_edit_of_ne fun _ hk' => locked_ne_of_keyed hk' hl]
  rw [← heldAt_of_key hk, ← heldAt_of_key hk', readerTotal, hused, readerTotal]
  refine sum_heldAt_change (h.lt_used_of_live (h.live_of_key hk)) fun j d hne => heldAt_edit_of_ne ha fun hjd => ?_
  rw [hl] at hjd
  exact hne (Option.some.inj hjd).symm

theorem tallied_edit : (w.edit ed .readLocks).toNat = (w.edit ed).readerTotal % 2 ^ 64 := by
  have htally := h.tallied
  cases ed with
  | addReader i e =>
    have hsum := readerTotal_edit_of_locked h ha rfl rfl ha.1
    obtain ⟨v, hv⟩ := ha.2
    rw [lock_edit_addReader, (h.proper i e ha.1).readers_add_one hv] at hsum
    rw [readLocks_edit_addReader, UInt64.toNat_add, htally, UInt64.toNat_one]
    omega
  | dropReader i e =>
    have hsum := readerTotal_edit_of_locked h ha rfl rfl ha.1
    rw [lock_edit_dropReader, ← (h.proper i e ha.1).readers_sub_one ha.2] at hsum
    rw [readLocks_edit_dropReader, UInt64.toNat_sub, htally, UInt64.toNat_one]
    omega
  | addWriter i e =>
    have hsum := readerTotal_edit_of_locked h ha rfl rfl ha.1
    rw [lock_edit_addWriter, ha.2] at hsum
    have htotal : (w.edit (.addWriter i e)).readerTotal = w.readerTotal := hsum
    rw [htotal]
    exact htally
  | dropWriter i e =>
    have hsum := readerTotal_edit_of_locked h ha rfl rfl ha.1
    have hproper := h.proper i e ha.1
    rw [lock_edit_dropWriter, hproper.removeWriter ha.2, hproper.hasWriter_iff.mp ha.2] at hsum
    have htotal : (w.edit (.dropWriter i e)).readerTotal = w.readerTotal := hsum
    rw [htotal]
    exact htally
  | abandon i e p =>
    have htotal : (w.edit (.abandon i e p)).readerTotal = w.readerTotal := by
      refine readerTotal_edit_of_same h ha ?_
      intro j d
      by_cases hj : j = i
      · have hk : w (.key j d) = 0 := h.key_eq_zero (hj ▸ ha.1) d
        have hk' : w.edit (.abandon i e p) (.key j d) = 0 := hk
        rw [heldAt, if_pos hk', heldAt, if_pos hk]
      · exact heldAt_edit_of_ne ha (by simp [Edit.locked, Ne.symm hj])
    rw [htotal]
    exact htally
  | _ =>
    rw [readerTotal_edit_of_same h ha fun j d => heldAt_edit_of_ne ha nofun]
    exact htally

end Preserved

/-- An edit that is allowed leaves a coherent table coherent. -/
theorem Coherent.edit (h : w.Coherent) (ha : ed.Allowed w) : (w.edit ed).Coherent where
  known _ := known_edit h ha
  unused _ := unused_edit h ha
  counted := counted_edit h ha
  unique _ _ _ := unique_edit h ha
  peopled := peopled_edit h ha
  apart _ _ _ := apart_edit h ha
  proper _ _ := proper_edit h ha
  tallied := tallied_edit h ha
  headerFree := (guard_edit Cell.isGuard_headerLock).trans h.headerFree
  slotsFree i := (guard_edit (Cell.isGuard_slotLock i)).trans (h.slotsFree i)

end Words

end VersionBoard
