import VersionBoard.Proofs.Allowed

/-!
# Entries in use are kept

An entry with a lock word that is not zero is given to nobody else: what an
allowed edit does to it, and what a whole plan does to it (`BoardCall.keeps_plan`).
It makes no difference whether someone holds the registered version or an
attempt on the last version of a free entry is still pending.
-/

namespace VersionBoard

namespace Words

/-- An entry stays with its version in its slot; if it is free, it stays as it is. -/
structure Keeps (w u : Words) (i : Nat) (e : EntryIndex) : Prop where
  key : u (.key i e) = w (.key i e)
  lock : w (.key i e) = 0 → u (.lock i e) = w (.lock i e)
  tracks : w (.key i e) ≠ 0 → ∀ p, w.Tracks i p → u.Tracks i p

variable {w u v : Words} {ed : Edit} {i : Nat} {e : EntryIndex}

theorem Keeps.refl (w : Words) (i : Nat) (e : EntryIndex) : w.Keeps w i e := ⟨rfl, fun _ => rfl, fun _ _ h => h⟩

theorem Keeps.trans (h : w.Keeps u i e) (h' : u.Keeps v i e) : w.Keeps v i e where
  key := h'.key.trans h.key
  lock hk := (h'.lock (h.key.trans hk)).trans (h.lock hk)
  tracks hk p hp := h'.tracks (fun hk' => hk (h.key.symm.trans hk')) p (h.tracks hk p hp)

/-! ### One edit -/

/-- A slot with a registered version that somebody holds is neither retired nor given to a partition. -/
theorem tracks_edit_of_lock (h : w.Coherent) (ha : ed.Allowed w) (hk : w (.key i e) ≠ 0) (hl : w (.lock i e) ≠ 0)
    {p : Partition} (hp : w.Tracks i p) : (w.edit ed).Tracks i p := by
  have hlive := h.live_of_key hk
  have hstated : ∀ x, ed.stated ≠ some (i, x) := by
    intro x hx
    cases ed with
    | retire j d =>
      obtain ⟨rfl, -⟩ : j = i ∧ _ = x := by simpa [Edit.stated] using hx
      refine hk (ha.2.2 e fun hed => hl ?_)
      rw [hed]
      exact ha.2.1
    | track j d q k =>
      obtain ⟨rfl, -⟩ : j = i ∧ _ = x := by simpa [Edit.stated] using hx
      exact ha.1 hlive
    | _ => cases hx
  have hnamed : ∀ q, ed.named ≠ some (i, q) := by
    intro q hq
    cases ed with
    | track j d q' k =>
      obtain ⟨rfl, -⟩ : j = i ∧ q' = q := by simpa [Edit.named] using hq
      exact ha.1 hlive
    | abandon j d q' =>
      obtain ⟨rfl, -⟩ : j = i ∧ q' = q := by simpa [Edit.named] using hq
      exact ha.1 hlive
    | _ => cases hq
  rw [Tracks, Live, state_edit_of_ne hstated, partition_edit_of_ne hnamed]
  exact hp

theorem keeps_edit (h : w.Coherent) (ha : ed.Allowed w) (hl : w (.lock i e) ≠ 0) : w.Keeps (w.edit ed) i e where
  key := key_edit_of_ne fun _ hk => hl (lock_of_keyed ha hk)
  lock hk := lock_edit_of_ne fun hed => by
    rcases key_ne_zero_of_locked ha hed with hk' | ⟨-, h0⟩
    · exact hk' hk
    · exact hl h0
  tracks hk _ hp := tracks_edit_of_lock h ha hk hl hp

/-! ### Edits in a row -/

theorem lock_edits_of_ne {es : List Edit} (hes : ∀ ed ∈ es, ed.locked ≠ some (i, e)) :
    w.edits es (.lock i e) = w (.lock i e) :=
  edits_apply fun ed hed _ => lock_edit_of_ne (hes ed hed)

theorem lock_edits_of_still {es : List Edit} (hes : ∀ ed ∈ es, ed.locked = none) (i : Nat) (e : EntryIndex) :
    w.edits es (.lock i e) = w (.lock i e) :=
  lock_edits_of_ne fun ed hed => by simp [hes ed hed]

theorem keeps_edits (h : w.Coherent) {es : List Edit} (ha : w.Allows es) (hes : ∀ ed ∈ es, ed.locked = none)
    (hl : w (.lock i e) ≠ 0) : w.Keeps (w.edits es) i e := by
  induction es generalizing w with
  | nil => exact .refl w i e
  | cons ed es ih =>
    have hlock : w.edit ed (.lock i e) = w (.lock i e) := lock_edit_of_ne (by rw [hes ed List.mem_cons_self]; nofun)
    refine (keeps_edit h ha.1 hl).trans (ih (h.edit ha.1) ha.2 (fun d hd => hes d (List.mem_cons_of_mem _ hd)) ?_)
    rwa [hlock]

end Words

/-- An entry in use is kept by every call: none but its last edit changes a lock word. -/
theorem BoardCall.keeps_plan {w : Words} (h : w.Coherent) (c : BoardCall) {i : Nat} {e : EntryIndex}
    (hl : w (.lock i e) ≠ 0) : w.Keeps (w.edits (c.plan w).2) i e := by
  have ha := c.allows_plan h
  rcases c.plan_cases w with hall | ⟨ds, ed, hes, hds, -⟩
  · exact Words.keeps_edits h ha hall hl
  · rw [hes] at ha ⊢
    obtain ⟨hads, haed⟩ := Words.allows_concat.mp ha
    have hlock : w.edits ds (.lock i e) ≠ 0 := by rwa [Words.lock_edits_of_still hds]
    have hlast := Words.keeps_edit (h.edits hads) haed hlock
    rw [Words.edits_append]
    exact (Words.keeps_edits h hads hds hl).trans hlast

end VersionBoard
