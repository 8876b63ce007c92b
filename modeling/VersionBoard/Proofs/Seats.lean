import VersionBoard.Proofs.Interleavings
import Mathlib.Order.Bounds.Basic

/-!
# Where a version is put

A version that comes to a partition with a slot gets the lowest entry that is
free, and if none is, the lowest one whose version nobody holds; that version
goes, and the stamp moves for it (`Words.Seats`). Only a slot in which every
entry has a version in use has no place left (`Words.Crowded`). So between whole
calls there are four cases, of which just one holds: the partition is not
tracked, the version is registered, the slot is crowded, or there is a seat
(`Words.Calm.claim_cases`), and the plans follow them.
-/

namespace VersionBoard

/-- What is found among the entries of a slot is the lowest one of its kind. -/
theorem isLeast_of_find? {P : EntryIndex → Prop} [DecidablePred P] {e : EntryIndex}
    (h : entryIndices.find? (fun d => P d) = some e) : IsLeast {d | P d} e := by
  obtain ⟨he, n, hn, hget, hbefore⟩ := List.find?_eq_some_iff_getElem.mp h
  refine ⟨by simpa using he, fun d hd => ?_⟩
  by_contra hlt
  have hdn : (d : Nat) < n := by simpa [← hget, entryIndices, Fin.lt_def] using hlt
  have hnot := hbefore d hdn
  simp only [entryIndices, List.getElem_finRange, Bool.not_eq_true', decide_eq_false_iff_not] at hnot
  exact hnot hd

/-- If nothing is found, there is none of its kind. -/
theorem eq_empty_of_find? {P : EntryIndex → Prop} [DecidablePred P]
    (h : entryIndices.find? (fun d => P d) = none) : {d | P d} = ∅ :=
  Set.eq_empty_iff_forall_notMem.mpr fun d hd => List.find?_eq_none.mp h d (List.mem_finRange d) (decide_eq_true hd)

namespace LockWord

/-- Readers or a writer hold the version. -/
def InUse (u : LockWord) : Prop := readers u ≠ 0 ∨ hasWriter u = true

instance (u : LockWord) : Decidable (InUse u) := inferInstanceAs (Decidable (_ ∨ _))

theorem not_inUse_zero : ¬ InUse 0 := by decide

/-- A proper lock word of which nobody makes use is zero. -/
theorem Proper.inUse_iff {u : LockWord} (h : Proper u) : InUse u ↔ u ≠ 0 := by
  constructor
  · rintro huse rfl
    exact not_inUse_zero huse
  · intro hne
    rcases h with rfl | hlt
    · exact .inr rfl
    · exact .inl (by rwa [readers_of_lt hlt])

end LockWord

namespace Words

variable {w u : Words} {p q : Partition} {txn t : Txn} {i j : Nat} {d e : EntryIndex} {k : UInt64}

/-! ### Seats -/

/-- Entry `e` of slot `i` is the one that a version gets which is not registered yet, and `u` are the words once it
has it. -/
inductive Seats (w : Words) (p : Partition) (txn : Txn) (i : Nat) (e : EntryIndex) : Words → Prop
  /-- The lowest free entry. -/
  | free (hp : w.Tracks i p) (hnew : ¬ w.Registered p txn) (he : IsLeast {d | w (.key i d) = 0} e) :
      w.Seats p txn i e (w.set (.key i e) (txn.number + 1))
  /-- The entry of the lowest version that nobody holds, if no entry is free. -/
  | idle (hp : w.Tracks i p) (hnew : ¬ w.Registered p txn) (hfull : w.Full i)
      (he : IsLeast {d | ¬ LockWord.InUse (w (.lock i d))} e) :
      w.Seats p txn i e ((w.set .stamp (w .stamp + 1)).set (.key i e) (txn.number + 1))

/-- The partition is tracked but not the version, and every entry of the slot has a version in use. -/
def Crowded (w : Words) (p : Partition) (txn : Txn) : Prop :=
  ¬ w.Registered p txn ∧ ∃ i, w.Tracks i p ∧ ∀ d, w (.key i d) ≠ 0 ∧ LockWord.InUse (w (.lock i d))

/-- A partition that is not tracked has no versions. -/
theorem not_registered_of_untracked (hp : ∀ i, ¬ w.Tracks i p) : ¬ w.Registered p txn := by
  rintro ⟨i, e, hat⟩
  exact hp i hat.1

theorem not_crowded_of_untracked (hp : ∀ i, ¬ w.Tracks i p) : ¬ w.Crowded p txn := by
  rintro ⟨-, i, hi, -⟩
  exact hp i hi

namespace Seats

theorem tracks (h : w.Seats p txn i e u) : w.Tracks i p := by
  cases h with
  | free hp => exact hp
  | idle hp => exact hp

theorem unregistered (h : w.Seats p txn i e u) : ¬ w.Registered p txn := by
  cases h with
  | free _ hnew => exact hnew
  | idle _ hnew => exact hnew

/-- Nothing but keys and the stamp changes. -/
theorem apply_of_ne (h : w.Seats p txn i e u) {c : Cell} (hkey : c ≠ .key i e) (hstamp : c ≠ .stamp) : u c = w c := by
  cases h with
  | free => exact set_of_ne w hkey _
  | idle => rw [set_of_ne _ hkey, set_of_ne _ hstamp]

theorem key_eq (h : w.Seats p txn i e u) : u (.key i e) = txn.number + 1 := by
  cases h <;> exact set_self ..

theorem tracks_iff (h : w.Seats p txn i e u) (j : Nat) (q : Partition) : u.Tracks j q ↔ w.Tracks j q := by
  rw [Tracks, Tracks, Live, Live, h.apply_of_ne (by simp) (by simp), h.apply_of_ne (by simp) (by simp)]

theorem lock_eq (h : w.Seats p txn i e u) (j : Nat) (d : EntryIndex) : u (.lock j d) = w (.lock j d) :=
  h.apply_of_ne (by simp) (by simp)

/-- The version is registered in its seat. -/
theorem registeredAt (h : w.Seats p txn i e u) (htxn : txn.number ≤ Txn.max.number) : u.RegisteredAt p txn i e :=
  ⟨(h.tracks_iff i p).mpr h.tracks, by rw [h.key_eq, Txn.key?_of_le htxn]⟩

/-- Nobody holds the version. -/
theorem lock_eq_zero (h : w.Seats p txn i e u) (hw : w.Calm) : w (.lock i e) = 0 := by
  cases h with
  | free _ _ he => exact hw.idle i e he.1
  | idle _ _ hfull he =>
    by_contra hne
    exact he.1 ((hw.proper i e (hfull e)).inUse_iff.mpr hne)

/-- A slot with a seat is not crowded. -/
theorem not_crowded (h : w.Seats p txn i e u) (hw : w.Calm) : ¬ w.Crowded p txn := by
  rintro ⟨-, j, hj, hall⟩
  obtain rfl := hw.unique j i p hj h.tracks
  have huse := (hall e).2
  rw [h.lock_eq_zero hw] at huse
  exact LockWord.not_inUse_zero huse

end Seats

/-! ### What is found -/

/-- Of a version that is not registered there is no entry. -/
theorem entryWith?_eq_none (hp : w.Tracks i p) (hnew : ¬ w.Registered p txn) (hk : txn.key? = some k) :
    w.entryWith? i k = none := by
  rw [entryWith?_eq_none_iff]
  rintro e rfl
  exact hnew ⟨i, e, hp, hk⟩

namespace Coherent

variable (h : w.Coherent)

include h

/-- A version is registered in one place at most. -/
theorem registeredAt_unique (hat : w.RegisteredAt p txn i e) (hat' : w.RegisteredAt p txn j d) : j = i ∧ d = e := by
  obtain rfl := h.unique i j p hat.1 hat'.1
  have hkey : w (.key i e) = w (.key i d) := Option.some.inj (hat.2.symm.trans hat'.2)
  exact ⟨rfl, (h.apart i e d (Txn.ne_zero_of_key? hat.2) hkey).symm⟩

end Coherent

namespace Calm

variable (h : w.Calm)

include h

/-- Giving an entry away to a new version gives it its seat, unless the slot is crowded. -/
theorem claim_cases (hp : w.Tracks i p) (hnew : ¬ w.Registered p txn) :
    (∃ e u, w.Seats p txn i e u ∧ (w.claim i p (txn.number + 1)).1 = .ok e ∧
        w.edits (w.claim i p (txn.number + 1)).2 = u) ∨
      w.Crowded p txn ∧ w.claim i p (txn.number + 1) = .stop (.failed (.versionsExhausted p entriesPerSlot)) := by
  have hproper := proper_lock h.toCoherent h.idle i
  unfold claim
  cases hf : w.free? i with
  | some e =>
    obtain ⟨⟨hkey, -⟩, hleast⟩ := isLeast_of_find? hf
    exact .inl ⟨e, _, .free hp hnew ⟨hkey, fun d hd => hleast ⟨hd, h.idle i d hd⟩⟩, rfl, rfl⟩
  | none =>
    have hfull := (free?_eq_none_iff h.idle).mp hf
    cases hi : w.idle? i with
    | some e =>
      obtain ⟨⟨-, hlock⟩, hleast⟩ := isLeast_of_find? hi
      refine .inl ⟨e, _, .idle hp hnew hfull ⟨?_, fun d hd => hleast ⟨hfull d, ?_⟩⟩, rfl, rfl⟩
      · rw [Set.mem_ofPred_eq, hlock]
        exact LockWord.not_inUse_zero
      · by_contra hne
        exact hd ((hproper d).inUse_iff.mpr hne)
    | none =>
      have hheld : ∀ d, LockWord.InUse (w (.lock i d)) := by
        intro d
        have hnone := List.find?_eq_none.mp hi d (List.mem_finRange d)
        refine (hproper d).inUse_iff.mpr fun hlock => hnone ?_
        simp [hfull d, hlock]
      dsimp only
      rw [if_pos hfull]
      exact .inr ⟨⟨hnew, i, hp, fun d => ⟨hfull d, hheld d⟩⟩, rfl⟩

end Calm

end Words

end VersionBoard
