import VersionBoard.Proofs.Ending
import VersionBoard.Proofs.Kept

/-!
# Who holds a version

`Words.holding` is the lock word of a version, wherever the version may be
registered, and zero if it is registered nowhere. An edit changes it just if it
changes the lock word of the entry in which the version is registered
(`holding_edit_of_locked`, `holding_edit_of_ne`): a version that comes or goes
is held by nobody.
-/

namespace VersionBoard

namespace Words

/-- Where the version of `p` with key `k` is registered. -/
def at? (w : Words) (p : Partition) (k : UInt64) : Option (Nat × EntryIndex) :=
  (w.slot? w.used p).bind fun i => (w.entryWith? i k).map (i, ·)

/-- The lock word of the version of `p` with key `k`. -/
def holding (w : Words) (p : Partition) (k : UInt64) : LockWord := (w.at? p k).elim 0 fun x => w (.lock x.1 x.2)

variable {w : Words} {ed : Edit} {i : Nat} {e : EntryIndex} {p : Partition} {k : UInt64}

/-! ### Finding a version -/

theorem find_of_key {txn : Txn} (hk : txn.key? = some k) : w.find w.used p txn = .answer (w.at? p k) := by
  unfold find at?
  cases w.slot? w.used p with
  | none => rfl
  | some i =>
    dsimp only
    rw [withKey, hk]
    rfl

section Coherent

variable (h : w.Coherent)

include h

theorem Coherent.slot?_eq_some_iff : w.slot? w.used p = some i ↔ w.Tracks i p := by
  refine ⟨fun hi => (of_slot? hi).2, fun hi => ?_⟩
  cases hj : w.slot? w.used p with
  | none => exact absurd hi (h.not_tracks hj i)
  | some j => rw [h.unique j i p (of_slot? hj).2 hi]

theorem Coherent.entryWith?_eq_some_iff (hk : k ≠ 0) : w.entryWith? i k = some e ↔ w (.key i e) = k := by
  refine ⟨key_of_entryWith?, ?_⟩
  intro he
  cases hd : w.entryWith? i k with
  | none => exact absurd he (entryWith?_eq_none_iff.mp hd e)
  | some d =>
    have hd' := key_of_entryWith? hd
    rw [h.apart i d e (by rwa [hd']) (hd'.trans he.symm)]

theorem Coherent.at?_eq_some_iff (hk : k ≠ 0) : w.at? p k = some (i, e) ↔ w.Tracks i p ∧ w (.key i e) = k := by
  rw [← h.slot?_eq_some_iff, ← h.entryWith?_eq_some_iff hk, at?, Option.bind_eq_some_iff]
  constructor
  · rintro ⟨j, hj, hje⟩
    obtain ⟨d, hd, heq⟩ := Option.map_eq_some_iff.mp hje
    obtain ⟨rfl, rfl⟩ := Prod.mk.inj heq
    exact ⟨hj, hd⟩
  · rintro ⟨hi, he⟩
    exact ⟨i, hi, by rw [he]; rfl⟩

theorem Coherent.holding_eq (hk : k ≠ 0) (hp : w.Tracks i p) (he : w (.key i e) = k) :
    w.holding p k = w (.lock i e) := by
  rw [holding, (h.at?_eq_some_iff hk).mpr ⟨hp, he⟩]
  rfl

/-- A version that somebody holds is registered somewhere. -/
theorem Coherent.exists_of_holding (hk : k ≠ 0) (hh : w.holding p k ≠ 0) :
    ∃ i e, w.Tracks i p ∧ w (.key i e) = k ∧ w (.lock i e) = w.holding p k := by
  cases hat : w.at? p k with
  | none =>
    rw [holding, hat] at hh
    exact absurd rfl hh
  | some x =>
    obtain ⟨hp, he⟩ := (h.at?_eq_some_iff hk).mp (hat : w.at? p k = some (x.1, x.2))
    exact ⟨x.1, x.2, hp, he, (h.holding_eq hk hp he).symm⟩

theorem Coherent.proper_holding (hidle : ∀ i e, w (.key i e) = 0 → w (.lock i e) = 0) (p : Partition) (k : UInt64) :
    LockWord.Proper (w.holding p k) := by
  unfold holding
  cases w.at? p k with
  | none => exact LockWord.proper_zero
  | some x => exact proper_lock h hidle x.1 x.2

/-! ### What edits do -/

/-- Where a version is registered after an edit it was before, unless the edit registered it in an entry that
nobody holds. -/
theorem registered_of_edit (ha : ed.Allowed w) (hk : k ≠ 0) (hp : (w.edit ed).Tracks i p)
    (he : w.edit ed (.key i e) = k) : w.edit ed (.lock i e) = 0 ∨ w.Tracks i p ∧ w (.key i e) = k := by
  by_cases hkeyed : ∃ k', ed.keyed = some ((i, e), k')
  · obtain ⟨k', hk'⟩ := hkeyed
    left
    rw [lock_edit_of_ne (locked_ne_of_keyed hk')]
    exact lock_of_keyed ha hk'
  · right
    have hkey : w.edit ed (.key i e) = w (.key i e) := key_edit_of_ne fun k' hk' => hkeyed ⟨k', hk'⟩
    have hlive := h.live_of_key (i := i) (e := e) (by rwa [← hkey, he])
    refine ⟨?_, hkey.symm.trans he⟩
    rcases tracks_of_edit ha hp with hold | ⟨d, k', rfl⟩
    · exact hold
    · exact absurd hlive ha.1

/-- The lock word of a version changes with the lock word of the entry in which it is registered. -/
theorem holding_edit_of_locked (ha : ed.Allowed w) (hed : ed.locked = some (i, e)) (hk : k ≠ 0) (hp : w.Tracks i p)
    (he : w (.key i e) = k) : (w.edit ed).holding p k = w.edit ed (.lock i e) := by
  have hkey : w.edit ed (.key i e) = k := by
    rw [key_edit_of_ne fun _ hk' => locked_ne_of_keyed hk' hed]
    exact he
  refine (h.edit ha).holding_eq hk ?_ hkey
  cases ed with
  | abandon j d q =>
    obtain ⟨rfl, -⟩ : j = i ∧ d = e := by simpa [Edit.locked] using hed
    exact absurd hp.1 ha.1
  | addReader j d => exact hp
  | dropReader j d => exact hp
  | addWriter j d => exact hp
  | dropWriter j d => exact hp
  | _ => cases hed

/-- The lock word of a version changes with no other. -/
theorem holding_edit_of_ne (ha : ed.Allowed w) (hk : k ≠ 0)
    (hne : ∀ i e, ed.locked = some (i, e) → w.Tracks i p → w (.key i e) ≠ k) :
    (w.edit ed).holding p k = w.holding p k := by
  have hlock : ∀ i e, w.Tracks i p → w (.key i e) = k → w.edit ed (.lock i e) = w (.lock i e) := fun i e hp he =>
    lock_edit_of_ne fun hl => hne i e hl hp he
  by_cases h0 : w.holding p k = 0
  · by_contra hne'
    obtain ⟨i, e, hp, he, hl⟩ := (h.edit ha).exists_of_holding hk (p := p) fun hz => hne' (hz.trans h0.symm)
    rcases registered_of_edit h ha hk hp he with hzero | ⟨hp', he'⟩
    · exact hne' (hl.symm.trans (hzero.trans h0.symm))
    · rw [← hl, hlock i e hp' he', ← h.holding_eq hk hp' he'] at hne'
      exact hne' rfl
  · obtain ⟨i, e, hp, he, hl⟩ := h.exists_of_holding hk h0
    have hl0 : w (.lock i e) ≠ 0 := by rwa [hl]
    have hkept := keeps_edit h ha hl0
    rw [(h.edit ha).holding_eq hk (hkept.tracks (by rwa [he]) p hp) (hkept.key.trans he), hlock i e hp he, hl]

/-- Edits that change no lock word change nobody's hold. -/
theorem holding_edits_of_still {es : List Edit} (ha : w.Allows es) (hes : ∀ ed ∈ es, ed.locked = none) (hk : k ≠ 0) :
    (w.edits es).holding p k = w.holding p k := by
  induction es generalizing w with
  | nil => rfl
  | cons ed es ih =>
    have hnone : ed.locked = none := hes ed List.mem_cons_self
    refine (ih (h.edit ha.1) ha.2 fun d hd => hes d (List.mem_cons_of_mem _ hd)).trans ?_
    refine holding_edit_of_ne h ha.1 hk ?_
    intro i e hl
    rw [hnone] at hl
    cases hl

end Coherent

end Words

end VersionBoard
