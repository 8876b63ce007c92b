import VersionBoard.Proofs.Dialogue

/-!
# The generation stamp

The stamp counts what changes hands: a slot that is given to a partition, a
version that is removed, a slot that retires and a version that is evicted each
move it by one, and nothing else does (`BoardCall.turns_tell`). To put a version into
a free entry takes nothing from anybody and leaves the stamp alone. So while the
stamp stands still every slot and every entry stays with whom it was given to,
and the short cut of `Table.stillBelongs` tells the truth (`Shared.run_stamp`).
-/

namespace VersionBoard

/-! ### What changes hands -/

namespace Words

/-- How many slots track a partition that they did not track before. -/
def appended (w u : Words) : Nat :=
  ((Finset.range u.used).filter fun i => u.Live i ∧ ¬ w.Tracks i (Partition.ofWord (u (.partition i)))).card

/-- How many live slots are live no more. -/
def retired (w u : Words) : Nat := ((Finset.range w.used).filter fun i => w.Live i ∧ ¬ u.Live i).card

/-- How many entries have passed from one version to another one. -/
def evicted (w u : Words) : Nat :=
  ((Finset.range w.used ×ˢ (Finset.univ : Finset EntryIndex)).filter fun x =>
    w (.key x.1 x.2) ≠ 0 ∧ u (.key x.1 x.2) ≠ 0 ∧ u (.key x.1 x.2) ≠ w (.key x.1 x.2)).card

/-- What has changed hands, but for the versions that were removed. -/
def turnover (w u : Words) : Nat := w.appended u + w.retired u + w.evicted u

/-- Slots stay with their partitions and entries with their versions. -/
structure Stays (w u : Words) : Prop where
  tracks : ∀ i p, w.Tracks i p → u.Tracks i p
  key : ∀ i e, w (.key i e) ≠ 0 → u (.key i e) = w (.key i e)

theorem Stays.refl (w : Words) : w.Stays w := ⟨fun _ _ h => h, fun _ _ _ => rfl⟩

theorem Stays.trans {w u v : Words} (h : w.Stays u) (h' : u.Stays v) : w.Stays v where
  tracks i p hp := h'.tracks i p (h.tracks i p hp)
  key i e hk := by
    have hku := h.key i e hk
    rw [h'.key i e (by rwa [hku]), hku]

/-- The stamp has moved by `n`, and if that is nothing, nothing has changed hands. -/
structure Turns (w u : Words) (n : Nat) : Prop where
  stamp : u .stamp = w .stamp + UInt64.ofNat n
  stays : n = 0 → w.Stays u

theorem Turns.refl (w : Words) : w.Turns w 0 := ⟨(UInt64.add_zero _).symm, fun _ => .refl w⟩

theorem Turns.trans {w u v : Words} {n k : Nat} (h : w.Turns u n) (h' : u.Turns v k) : w.Turns v (n + k) where
  stamp := by rw [h'.stamp, h.stamp, UInt64.ofNat_add, UInt64.add_assoc]
  stays hzero := by
    obtain ⟨hn, hk⟩ := Nat.add_eq_zero_iff.mp hzero
    exact (h.stays hn).trans (h'.stays hk)

end Words

namespace Edit

/-- By how much an edit moves the stamp. -/
def stamps : Edit → Nat
  | evict .. => 1
  | unregister .. => 1
  | retire .. => 2
  | track .. => 1
  | _ => 0

/-- How many versions an edit removes. -/
def removals : Edit → Nat
  | unregister .. => 1
  | retire .. => 1
  | _ => 0

theorem stamps_of_locked {ed : Edit} (h : ed.locked ≠ none) : ed.stamps = 0 := by
  cases ed <;> first | rfl | exact absurd rfl h

theorem removals_of_locked {ed : Edit} (h : ed.locked ≠ none) : ed.removals = 0 := by
  cases ed <;> first | rfl | exact absurd rfl h

theorem stamps_le (ed : Edit) : ed.stamps ≤ 2 := by
  cases ed <;> simp [stamps]

theorem sum_stamps_of_locked {es : List Edit} (hes : ∀ ed ∈ es, ed.locked ≠ none) : (es.map stamps).sum = 0 := by
  refine List.sum_eq_zero fun n hn => ?_
  obtain ⟨ed, hed, rfl⟩ := List.mem_map.mp hn
  exact stamps_of_locked (hes ed hed)

/-- An edit that changes a lock word, and abandons no slot, changes no other word of a slot. -/
theorem of_locked {ed : Edit} (h : ed.locked ≠ none) (hed : ed.abandons = false) :
    ed.keyed = none ∧ ed.stated = none ∧ ed.named = none := by
  cases ed <;> first | exact ⟨rfl, rfl, rfl⟩ | exact absurd rfl h | cases hed

end Edit

namespace Words

variable {w u : Words} {ed : Edit} {i j : Nat} {e : EntryIndex} {p : Partition} {k : UInt64}

/-! ### One edit -/

theorem stamp_edit (w : Words) (ed : Edit) : w.edit ed .stamp = w .stamp + UInt64.ofNat ed.stamps := by
  cases ed with
  | retire i e => simp [edit, Edit.writes, Edit.stamps, UInt64.add_assoc]
  | _ => simp [edit, Edit.writes, Edit.stamps, set_apply]

theorem appended_edit_track (h : w.Coherent) (ha : (Edit.track i e p k).Allowed w) :
    w.appended (w.edit (.track i e p k)) = 1 := by
  refine Finset.card_eq_one.mpr ⟨i, ?_⟩
  ext j
  rw [Finset.mem_filter, Finset.mem_range, Finset.mem_singleton]
  constructor
  · rintro ⟨-, hl, hnew⟩
    rcases tracks_of_edit ha ⟨hl, rfl⟩ with hold | ⟨e', k', hed⟩
    · exact absurd hold hnew
    · exact (Edit.track.inj hed).1.symm
  · rintro rfl
    exact ⟨slot_lt_used_edit h ha rfl, state_edit_of_stated rfl, fun hold => ha.1 hold.1⟩

theorem appended_edit_of_ne (ha : ed.Allowed w) (hed : ∀ i e p k, ed ≠ .track i e p k) :
    w.appended (w.edit ed) = 0 := by
  refine Finset.card_eq_zero.mpr (Finset.filter_eq_empty_iff.mpr ?_)
  rintro j - ⟨hl, hnew⟩
  rcases tracks_of_edit ha ⟨hl, rfl⟩ with hold | ⟨e, k, heq⟩
  · exact hnew hold
  · exact hed _ _ _ _ heq

theorem retired_edit_retire (h : w.Coherent) (ha : (Edit.retire i e).Allowed w) :
    w.retired (w.edit (.retire i e)) = 1 := by
  have hlive := h.live_of_key ha.1
  refine Finset.card_eq_one.mpr ⟨i, ?_⟩
  ext j
  rw [Finset.mem_filter, Finset.mem_range, Finset.mem_singleton]
  constructor
  · rintro ⟨-, hl, hnot⟩
    by_contra hne
    exact hnot ((live_edit_of_ne (by simp [Edit.stated, Ne.symm hne])).mpr hl)
  · rintro rfl
    refine ⟨h.lt_used_of_live hlive, hlive, ?_⟩
    rw [Live, state_edit_of_stated rfl]
    decide

/-- Only an edit that retires a slot takes one out of use. -/
theorem live_edit (hed : ∀ i e, ed ≠ .retire i e) (hl : w.Live j) : (w.edit ed).Live j := by
  by_cases hs : ∃ v, ed.stated = some (j, v)
  · obtain ⟨v, hv⟩ := hs
    cases ed with
    | retire i e => exact absurd rfl (hed i e)
    | track i e p k =>
      obtain ⟨rfl, -⟩ : i = j ∧ SlotState.live = v := by simpa [Edit.stated] using hv
      exact state_edit_of_stated rfl
    | _ => cases hv
  · exact (live_edit_of_ne fun v hv => hs ⟨v, hv⟩).mpr hl

theorem retired_edit_of_ne (hed : ∀ i e, ed ≠ .retire i e) : w.retired (w.edit ed) = 0 := by
  refine Finset.card_eq_zero.mpr (Finset.filter_eq_empty_iff.mpr ?_)
  rintro j - ⟨hl, hnot⟩
  exact hnot (live_edit hed hl)

theorem evicted_edit_evict (h : w.Coherent) (ha : (Edit.evict i e k).Allowed w) :
    w.evicted (w.edit (.evict i e k)) = 1 := by
  refine Finset.card_eq_one.mpr ⟨(i, e), ?_⟩
  ext ⟨j, d⟩
  simp only [Finset.mem_filter, Finset.mem_product, Finset.mem_range, Finset.mem_univ, and_true, Finset.mem_singleton]
  constructor
  · rintro ⟨-, -, -, hne⟩
    by_contra hjd
    refine hne (key_edit_of_ne fun k' hk' => hjd ?_)
    exact (congrArg Prod.fst (Option.some.inj hk')).symm
  · rintro ⟨⟩
    rw [key_edit_of_keyed rfl]
    exact ⟨h.lt_used_of_live (h.live_of_key ha.1), ha.1, ha.2.2.1, (ha.2.2.2 e).symm⟩

theorem evicted_edit_of_ne (h : w.Coherent) (ha : ed.Allowed w) (hed : ∀ i e k, ed ≠ .evict i e k) :
    w.evicted (w.edit ed) = 0 := by
  refine Finset.card_eq_zero.mpr (Finset.filter_eq_empty_iff.mpr ?_)
  rintro ⟨j, d⟩ - ⟨hold, hnew, hne⟩
  by_cases hk : ∃ k, ed.keyed = some ((j, d), k)
  · obtain ⟨k, hk⟩ := hk
    rw [key_edit_of_keyed hk] at hnew
    cases ed with
    | assign i e k' =>
      obtain ⟨⟨rfl, rfl⟩, -⟩ : (i = j ∧ e = d) ∧ k' = k := by simpa [Edit.keyed] using hk
      exact hold ha.2.1
    | evict i e k' => exact hed i e k' rfl
    | track i e p k' =>
      obtain ⟨⟨rfl, rfl⟩, -⟩ : (i = j ∧ e = d) ∧ k' = k := by simpa [Edit.keyed] using hk
      exact hold (h.key_eq_zero ha.1 e)
    | unregister i e => exact hnew (congrArg Prod.snd (Option.some.inj hk)).symm
    | retire i e => exact hnew (congrArg Prod.snd (Option.some.inj hk)).symm
    | _ => cases hk
  · exact hne (key_edit_of_ne fun k hk' => hk ⟨k, hk'⟩)

/-- An edit moves the stamp by what changes hands in it. -/
theorem turnover_edit (h : w.Coherent) (ha : ed.Allowed w) : w.turnover (w.edit ed) + ed.removals = ed.stamps := by
  cases ed with
  | track i e p k =>
    rw [turnover, appended_edit_track h ha, retired_edit_of_ne (by simp), evicted_edit_of_ne h ha (by simp)]
    rfl
  | retire i e =>
    rw [turnover, appended_edit_of_ne ha (by simp), retired_edit_retire h ha, evicted_edit_of_ne h ha (by simp)]
    rfl
  | evict i e k =>
    rw [turnover, appended_edit_of_ne ha (by simp), retired_edit_of_ne (by simp), evicted_edit_evict h ha]
    rfl
  | _ =>
    rw [turnover, appended_edit_of_ne ha (by simp), retired_edit_of_ne (by simp), evicted_edit_of_ne h ha (by simp)]
    rfl

/-- An edit that leaves the stamp alone takes nothing from anybody. -/
theorem stays_edit (ha : ed.Allowed w) (hed : ed.stamps = 0) : w.Stays (w.edit ed) where
  tracks i p hp := by
    have hretire : ∀ i e, ed ≠ .retire i e := by
      rintro i e rfl
      cases hed
    refine ⟨live_edit hretire hp.1, ?_⟩
    rw [partition_edit_of_ne]
    · exact hp.2
    · intro q hq
      cases ed with
      | abandon j e q' =>
        obtain ⟨rfl, -⟩ : j = i ∧ q' = q := by simpa [Edit.named] using hq
        exact ha.1 hp.1
      | track => cases hed
      | _ => cases hq
  key i e hk := by
    refine key_edit_of_ne fun k hkeyed => ?_
    cases ed with
    | assign j d k' =>
      obtain ⟨⟨rfl, rfl⟩, -⟩ : (j = i ∧ d = e) ∧ k' = k := by simpa [Edit.keyed] using hkeyed
      exact hk ha.2.1
    | evict => cases hed
    | unregister => cases hed
    | retire => cases hed
    | track => cases hed
    | _ => cases hkeyed

/-! ### Edits in a row -/

theorem turns_edit (ha : ed.Allowed w) : w.Turns (w.edit ed) ed.stamps := ⟨w.stamp_edit ed, stays_edit ha⟩

theorem turns_edits {es : List Edit} (ha : w.Allows es) : w.Turns (w.edits es) (es.map Edit.stamps).sum := by
  induction es generalizing w with
  | nil => exact .refl w
  | cons ed es ih => exact (turns_edit ha.1).trans (ih ha.2)

theorem turnover_self (w : Words) : w.turnover w = 0 := by
  have happended : w.appended w = 0 :=
    Finset.card_eq_zero.mpr (Finset.filter_eq_empty_iff.mpr fun i _ h => h.2 ⟨h.1, rfl⟩)
  have hretired : w.retired w = 0 := Finset.card_eq_zero.mpr (Finset.filter_eq_empty_iff.mpr fun i _ h => h.2 h.1)
  have hevicted : w.evicted w = 0 := Finset.card_eq_zero.mpr (Finset.filter_eq_empty_iff.mpr fun x _ h => h.2.2 rfl)
  rw [turnover, happended, hretired, hevicted]

/-- What changes hands does not depend on lock words. -/
theorem turnover_edits_of_locked (w u : Words) {es : List Edit}
    (hes : ∀ ed ∈ es, ed.locked ≠ none ∧ ed.abandons = false) : w.turnover (u.edits es) = w.turnover u := by
  induction es generalizing u with
  | nil => rfl
  | cons ed es ih =>
    refine (ih (u.edit ed) fun d hd => hes d (List.mem_cons_of_mem _ hd)).trans ?_
    obtain ⟨hlocked, habandons⟩ := hes ed List.mem_cons_self
    obtain ⟨hkeyed, hstated, hnamed⟩ := Edit.of_locked hlocked habandons
    have hused : (u.edit ed).used = u.used := by
      cases ed <;> first | rfl | exact absurd rfl hlocked
    have hlive : ∀ i, (u.edit ed).Live i ↔ u.Live i := fun i => live_edit_of_ne (by simp [hstated])
    have hname : ∀ i, u.edit ed (.partition i) = u (.partition i) := fun i => partition_edit_of_ne (by simp [hnamed])
    have hkey : ∀ i e, u.edit ed (.key i e) = u (.key i e) := fun i e => key_edit_of_ne (by simp [hkeyed])
    simp only [turnover, appended, retired, evicted, hused, hlive, hname, hkey]

end Words

/-! ### One call -/

namespace Words

variable {w : Words}

/-- To give an entry away takes at most one edit, which removes nothing. -/
theorem edits_claim (w : Words) (i : Nat) (p : Partition) (k : UInt64) :
    (w.claim i p k).2 = [] ∨ ∃ ed, (w.claim i p k).2 = [ed] ∧ ed.removals = 0 := by
  rw [claim]
  cases hf : w.free? i with
  | some e => exact .inr ⟨_, rfl, rfl⟩
  | none =>
    cases hi : w.idle? i with
    | some e => exact .inr ⟨_, rfl, rfl⟩
    | none => exact .inl rfl

theorem edits_register (w : Words) (i : Nat) (p : Partition) (txn : Txn) :
    (w.register i p txn).2 = [] ∨ ∃ ed, (w.register i p txn).2 = [ed] ∧ ed.removals = 0 := by
  rcases w.register_cases i p txn with hnil | ⟨-, k, -, -, heq⟩
  · exact .inl hnil
  · rw [heq]
    exact w.edits_claim i p k

theorem edits_findOrRegister (w : Words) (v : Nat) (p : Partition) (txn : Txn) :
    (w.findOrRegister v p txn).2 = [] ∨ ∃ ed, (w.findOrRegister v p txn).2 = [ed] ∧ ed.removals = 0 := by
  rcases w.findOrRegister_cases v p txn with ⟨o, heq, -⟩ | ⟨i, k, -, -, -, heq⟩
  · exact .inl (congrArg Prod.snd heq)
  · rw [heq]
    exact w.edits_claim i p k

theorem edits_track (w : Words) (v : Nat) (p : Partition) (txn : Txn) :
    (w.track v p txn).2 = [] ∨ ∃ ed, (w.track v p txn).2 = [ed] ∧ ed.removals = 0 := by
  rcases w.track_cases v p txn with ⟨-, heq⟩ | ⟨e, -, ⟨k, -, heq⟩ | ⟨-, heq⟩⟩ <;> rw [heq]
  · exact .inl rfl
  · exact .inr ⟨_, rfl, rfl⟩
  · exact .inr ⟨_, rfl, rfl⟩

theorem edits_add (w : Words) (p : Partition) (txn : Txn) :
    (w.add p txn).2 = [] ∨ ∃ ed, (w.add p txn).2 = [ed] ∧ ed.removals = 0 := by
  rcases w.add_cases p txn with ⟨i, -, heq⟩ | ⟨-, ⟨-, heq⟩ | ⟨-, heq⟩⟩ <;> rw [heq]
  · exact w.edits_register i p txn
  · exact w.edits_track w.used p txn
  · exact .inl rfl

/-- To remove a version takes one edit; if that is not done there is none. -/
theorem edits_untrack (w : Words) (v : Nat) (p : Partition) (txn : Txn) :
    (w.untrack v p txn).1 ≠ .ok true ∧ (w.untrack v p txn).2 = [] ∨
      ∃ ed, w.untrack v p txn = (.ok true, [ed]) ∧ ed.removals = 1 := by
  rcases w.untrack_cases v p txn with ⟨o, heq, ho⟩ | ⟨i, k, e, -, -, -, -, heq⟩
  · rw [heq]
    exact .inl ⟨ho, rfl⟩
  · refine .inr ⟨_, heq, ?_⟩
    split_ifs <;> rfl

end Words

theorem TableCall.edits_cases (w : Words) (v : Nat) (c : TableCall) : (c.plan w v).2 = [] ∨
    ∃ ed es, (c.plan w v).2 = ed :: es ∧ (∀ d ∈ es, d.locked ≠ none) ∧ ed.removals = 0 := by
  rcases c.kinds with ⟨mode, p, txn, rfl⟩ | ⟨mode, p, txn, rfl⟩ | hc
  · rcases mode.acquire_cases w v p txn with ⟨o, h, -⟩ | ⟨i, e, -, -, h⟩
    · rw [h]
      rcases w.edits_findOrRegister v p txn with hes | ⟨ed, hes, hed⟩
      · exact .inl hes
      · exact .inr ⟨ed, [], hes, nofun, hed⟩
    · rw [h]
      rcases w.edits_findOrRegister v p txn with hes | ⟨ed, hes, hed⟩
      · exact .inr ⟨mode.gain i e, [], congrArg (· ++ [mode.gain i e]) hes, nofun, by cases mode <;> rfl⟩
      · refine .inr ⟨ed, [mode.gain i e], congrArg (· ++ [mode.gain i e]) hes, fun d hd => ?_, hed⟩
        rw [List.mem_singleton.mp hd, mode.locked_gain]
        nofun
  · rcases mode.release_cases w v p txn with ⟨x, h, -⟩ | ⟨i, e, -, -, h⟩
    · rw [h]
      exact .inl rfl
    · rw [h]
      exact .inr ⟨mode.lose i e, [], rfl, nofun, by cases mode <;> rfl⟩
  · exact .inl (edits_of_isQuestion hc w v)

namespace BoardCall

/-- How many versions a call has removed, by its outcome. -/
def removals : BoardCall → Except Halt Answer → Nat
  | remove _ _, .ok (.flag true) => 1
  | _, _ => 0

variable {w : Words} {c : BoardCall}

/-- All edits of a call but the first one change lock words only, and the first one removes what the call removes. -/
theorem edits_cases (w : Words) (c : BoardCall) :
    (c.plan w).2 = [] ∧ c.removals (c.plan w).1 = 0 ∨
      ∃ ed es, (c.plan w).2 = ed :: es ∧ (∀ d ∈ es, d.locked ≠ none) ∧ ed.removals = c.removals (c.plan w).1 := by
  cases c with
  | add p txn =>
    rcases w.edits_add p txn with h | ⟨ed, h, hed⟩
    · exact .inl ⟨h, rfl⟩
    · exact .inr ⟨ed, [], h, nofun, hed⟩
  | remove p txn =>
    rcases w.edits_untrack w.used p txn with ⟨ho, h⟩ | ⟨ed, h, hed⟩
    · refine .inl ⟨h, ?_⟩
      have hne := LockMode.map_flag_ne ho
      change removals _ ((w.untrack w.used p txn).1.map Answer.flag) = 0
      generalize (w.untrack w.used p txn).1.map Answer.flag = o at hne
      unfold removals
      split
      · exact absurd rfl hne
      · rfl
    · refine .inr ⟨ed, [], ?_, nofun, ?_⟩
      · rw [plan, h]
        rfl
      · rw [plan, h, hed]
        rfl
  | table c =>
    rcases c.edits_cases w w.used with h | h
    · exact .inl ⟨h, rfl⟩
    · exact .inr h

/-- The stamp moves by what the call removes and what else changes hands in it. -/
theorem sum_stamps_plan (h : w.Coherent) (hc : c.Trackable) :
    ((c.plan w).2.map Edit.stamps).sum = w.turnover (w.tell c) + c.removals (c.plan w).1 := by
  have ha := c.allows_plan h
  rcases c.edits_cases w with ⟨hes, hout⟩ | ⟨ed, es, hes, hlocks, hed⟩
  · rw [Words.tell, hes, hout, Words.edits, List.foldl_nil, Words.turnover_self]
    rfl
  · have hrest : ∀ d ∈ es, d.locked ≠ none ∧ d.abandons = false := fun d hd =>
      ⟨hlocks d hd, hc.abandons_eq_false (hes ▸ List.mem_cons_of_mem ed hd)⟩
    rw [hes] at ha
    calc ((c.plan w).2.map Edit.stamps).sum
        = ed.stamps := by rw [hes, List.map_cons, List.sum_cons, Edit.sum_stamps_of_locked hlocks, Nat.add_zero]
      _ = w.turnover (w.edit ed) + ed.removals := (Words.turnover_edit h ha.1).symm
      _ = w.turnover (w.tell c) + c.removals (c.plan w).1 := by
        rw [← Words.turnover_edits_of_locked w (w.edit ed) hrest, hed, Words.tell, hes]
        rfl

/-- The most that changes hands is a version that is removed with its slot. -/
theorem sum_stamps_plan_le (w : Words) (c : BoardCall) : ((c.plan w).2.map Edit.stamps).sum ≤ 2 := by
  rcases c.edits_cases w with ⟨hes, -⟩ | ⟨ed, es, hes, hlocks, -⟩
  · rw [hes]
    exact Nat.zero_le _
  · rw [hes, List.map_cons, List.sum_cons, Edit.sum_stamps_of_locked hlocks]
    exact ed.stamps_le

theorem removals_error (c : BoardCall) (h : Halt) : c.removals (.error h) = 0 := by
  cases c <;> rfl

/-- A call on a coherent table moves the stamp by what changes hands in it. -/
theorem turns_tell (h : w.Coherent) (hc : c.Trackable) :
    w.Turns (w.tell c) (w.turnover (w.tell c) + c.removals (c.plan w).1) ∧
      w.turnover (w.tell c) + c.removals (c.plan w).1 ≤ 2 := by
  rw [← sum_stamps_plan h hc]
  exact ⟨Words.turns_edits (c.allows_plan h), c.sum_stamps_plan_le w⟩

end BoardCall

/-- A new board has been stamped for its one partition, if it has one. -/
theorem Image.turnover_seeds (policy : Policy) :
    Words.turnover (fun _ => 0) (Words.edits (fun _ => 0) (seeds policy)) = ((seeds policy).map Edit.stamps).sum := by
  have hallows := allows_seeds policy
  unfold seeds at hallows ⊢
  split_ifs at hallows ⊢
  · exact Words.turnover_self _
  · exact Words.turnover_edit Words.coherent_zero hallows.1

/-- The second look at an entry tells the truth if the stamp does. -/
theorem Table.stillBelongs_eq {n i : Nat} {e : EntryIndex} {p : Partition} {txn : Txn} {k seen : UInt64} {f : Image}
    (hn : headerSize ≤ n) (hi : i < slotsIn n) (hk : txn.key? = some k)
    (hseen : f.cells .stamp = seen → f.cells.Tracks i p ∧ txn.key? = some (f.cells (.key i e))) :
    stillBelongs (.upTo n) seen i e p txn f =
      (.ok (decide (f.cells.Tracks i p ∧ txn.key? = some (f.cells (.key i e)))), f) := by
  by_cases hboth : f.cells.Tracks i p ∧ txn.key? = some (f.cells (.key i e))
  · rw [decide_eq_true hboth]
    exact stillBelongs_apply hn hi hboth.1 hboth.2 seen
  · rw [stillBelongs, Act.bind_of_ok (stamp_apply hn), if_neg fun heq => hboth (hseen heq),
      Act.bind_of_ok (isSlotOf_apply hn hi p), decide_eq_false hboth]
    by_cases hp : f.cells.Tracks i p
    · rw [decide_eq_true hp, if_pos rfl, isEntryOf, Act.bind_of_ok (Mapping.get_apply hn (.key i e) hi f),
        Act.bind_of_ok (keyOf_of_key hk), decide_eq_false fun heq => hboth ⟨hp, by rw [hk, heq]⟩]
      rfl
    · rw [decide_eq_false hp]
      rfl

/-! ### Runs -/

/-- How many versions were removed. -/
def Exchange.removals (x : Exchange) : Nat :=
  match x.request.call?, x.reply? with
  | some c, some reply => c.removals reply.outcome
  | _, _ => 0

theorem Exchange.removals_of_error {r : Request} {reply? : Option (Reply Answer)}
    (h : ∀ reply, reply? = some reply → ∃ e, reply.outcome = .error e) : (mk r reply?).removals = 0 := by
  cases hc : r.call? with
  | none => simp [removals, hc]
  | some c =>
    cases reply? with
    | none => simp [removals, hc]
    | some reply =>
      obtain ⟨e, he⟩ := h reply rfl
      simp only [removals, hc, he]
      exact c.removals_error e

namespace Shared

variable {s : Shared} {f g : Image} {r : Request} {rs ds : List Request}

/-- The words of the board, all zero as long as the file holds none. -/
def table (s : Shared) : Words :=
  match s.file? with
  | some f => if f.read 0 signatureSize = Signature.current.toBytes then f.cells else fun _ => 0
  | none => fun _ => 0

/-- How much changes hands in a request: the slots that are given to a partition, the slots that retire, the versions
that are evicted and the versions that are removed. -/
def turnover [Processor] (s : Shared) (r : Request) : Nat :=
  s.table.turnover (s.step r).2.table + (Exchange.mk r (s.step r).1).removals

/-- How much changes hands in a run. -/
def turnoverIn [Processor] (s : Shared) : List Request → Nat
  | [] => 0
  | r :: rs => s.turnover r + (s.step r).2.turnoverIn rs

theorem turnoverIn_append [Processor] (s : Shared) (rs ds : List Request) :
    s.turnoverIn (rs ++ ds) = s.turnoverIn rs + (s.run rs).2.turnoverIn ds := by
  induction rs generalizing s with
  | nil => exact (Nat.zero_add _).symm
  | cons r rs ih =>
    rw [List.cons_append, turnoverIn, ih, turnoverIn, Nat.add_assoc]
    rfl

theorem Opened.table_eq (hs : s.Opened f) : s.table = f.cells := by
  rw [table, hs.file]
  exact if_pos hs.coherent.signed

theorem Fresh.table_eq (hs : s.Fresh) : s.table = fun _ => 0 := by
  rw [table]
  cases hfile : s.file? with
  | none => rfl
  | some f =>
    refine if_neg ?_
    rw [(hs.file f hfile).1.read]
    decide

/-- Nothing has been opened on the file, or it holds a sound board. -/
def Orderly (s : Shared) : Prop := s.Fresh ∨ ∃ f, s.Opened f ∧ f.Sound

theorem Takes.turns {reply? : Option (Reply Answer)} (h : s.Takes f r reply? g) (hf : f.Coherent)
    (hr : r.Trackable) : f.cells.Turns g.cells (f.cells.turnover g.cells + (Exchange.mk r reply?).removals) ∧
      f.cells.turnover g.cells + (Exchange.mk r reply?).removals ≤ 2 := by
  have hstill : (Exchange.mk r reply?).removals = 0 → g.cells = f.cells →
      f.cells.Turns g.cells (f.cells.turnover g.cells + (Exchange.mk r reply?).removals) ∧
        f.cells.turnover g.cells + (Exchange.mk r reply?).removals ≤ 2 := by
    intro hx hcells
    rw [hx, hcells, Words.turnover_self]
    exact ⟨.refl _, Nat.zero_le 2⟩
  cases h with
  | other hr' => exact hstill (by simp [Exchange.removals, hr']) rfl
  | unknown => exact hstill rfl rfl
  | closed _ _ hreply =>
    refine hstill (Exchange.removals_of_error fun reply' h' => ?_) rfl
    rw [← Option.some.inj h']
    exact ⟨_, hreply⟩
  | @call name c _ _ reply _ _ _ _ hdoes =>
    rcases hdoes.cells_cases with ⟨⟨e, -, he⟩, hcells⟩ | ⟨-, hout, hcells⟩
    · refine hstill (Exchange.removals_of_error fun reply' h' => ?_) hcells
      rw [← Option.some.inj h']
      exact ⟨_, he⟩
    · have hx : (Exchange.mk (.call name c) (some reply)).removals = c.removals (c.plan f.cells).1 := by
        rw [← hout]
        rfl
      rw [hx, show g.cells = f.cells.tell c from hcells]
      exact BoardCall.turns_tell hf.table (hr c rfl)

/-- A request moves the stamp by what changes hands in it, which is never much. -/
theorem Orderly.step [Processor] (hs : s.Orderly) (hr : r.Trackable) :
    (s.step r).2.Orderly ∧ s.table.Turns (s.step r).2.table (s.turnover r) ∧ s.turnover r ≤ 2 := by
  rw [turnover]
  rcases hs with hfresh | ⟨f, hf, hsound⟩
  · rw [hfresh.table_eq]
    rcases step_fresh hfresh r with ⟨⟨policy, k, hroom, hk, hopened⟩, hopening, -⟩ | ⟨hfresh', hfailed⟩
    · have hx : (Exchange.mk r (s.step r).1).removals = 0 := by
        cases r with
        | openBoard => rfl
        | create => rfl
        | _ => cases hopening
      rw [hopened.table_eq, hx, Nat.add_zero, Image.cells_newBoard hroom, Image.turnover_seeds]
      exact ⟨.inr ⟨_, hopened, Image.sound_newBoard policy hroom hk⟩, Words.turns_edits (Image.allows_seeds policy),
        by cases policy <;> decide⟩
    · have hx : (Exchange.mk r (s.step r).1).removals = 0 :=
        Exchange.removals_of_error fun reply hreply => (hfailed reply hreply).imp' _ fun _ he => he
      rw [hfresh'.table_eq, hx, Words.turnover_self]
      exact ⟨.inl hfresh', .refl _, Nat.zero_le 2⟩
  · obtain ⟨g, hg, htakes⟩ := step_opened hf r (hf.unstuck hsound r)
    rw [hf.table_eq, hg.table_eq]
    exact ⟨.inr ⟨g, hg, htakes.sound hr hsound⟩, htakes.turns hf.coherent hr⟩

theorem Orderly.run [Processor] (hs : s.Orderly) (hrs : ∀ r ∈ rs, r.Trackable) :
    (s.run rs).2.Orderly ∧ s.table.Turns (s.run rs).2.table (s.turnoverIn rs) ∧ s.turnoverIn rs ≤ 2 * rs.length := by
  induction rs generalizing s with
  | nil => exact ⟨hs, .refl _, Nat.le_refl 0⟩
  | cons r rs ih =>
    obtain ⟨hs', hfirst, hle⟩ := hs.step (hrs r List.mem_cons_self)
    obtain ⟨hlast, hrest, hles⟩ := ih hs' fun r' hr' => hrs r' (List.mem_cons_of_mem _ hr')
    refine ⟨hlast, hfirst.trans hrest, ?_⟩
    rw [turnoverIn, List.length_cons]
    omega

/-- As long as it has not gone round, the stamp of a board tells how much has ever changed hands. -/
theorem Fresh.toNat_stamp [Processor] (hs : s.Fresh) (hrs : ∀ r ∈ rs, r.Trackable) (hmany : s.turnoverIn rs < 2 ^ 64) :
    ((s.run rs).2.table .stamp).toNat = s.turnoverIn rs := by
  obtain ⟨-, hturns, -⟩ := Orderly.run (.inl hs) hrs
  rw [hturns.stamp, hs.table_eq, UInt64.zero_add, UInt64.toNat_ofNat', Nat.mod_eq_of_lt hmany]

/-- Between any two states of a run the stamp of a board grows by what changes hands. If it has not grown, slots and
entries are with whom they were, so that what was looked up under it is found to belong to a version just if it does. -/
theorem run_stamp [Processor] (hs : s.Fresh) (hkeys : ∀ r ∈ rs ++ ds, r.Trackable)
    (hopens : ∃ x ∈ s.history rs, x.Opens) (hmany : s.turnoverIn (rs ++ ds) < 2 ^ 64) :
    ∃ f g, (s.run rs).2.Opened f ∧ (s.run (rs ++ ds)).2.Opened g ∧
      (g.cells .stamp).toNat = (f.cells .stamp).toNat + (s.run rs).2.turnoverIn ds ∧
      (g.cells .stamp = f.cells .stamp → (∀ i p, f.cells.Tracks i p → g.cells.Tracks i p) ∧
        ∀ i e (txn : Txn), txn.key? = some (f.cells (.key i e)) → txn.key? = some (g.cells (.key i e))) ∧
      ∀ n i e p (txn : Txn), headerSize ≤ n → i < slotsIn n → f.cells.Tracks i p → txn.key? = some (f.cells (.key i e)) →
        Table.stillBelongs (.upTo n) (f.cells .stamp) i e p txn g =
          (.ok (decide (g.cells.Tracks i p ∧ txn.key? = some (g.cells (.key i e)))), g) := by
  have hrs : ∀ r ∈ rs, r.Trackable := fun r hr => hkeys r (List.mem_append_left _ hr)
  have hds : ∀ r ∈ ds, r.Trackable := fun r hr => hkeys r (List.mem_append_right _ hr)
  obtain ⟨f, hf, hsound⟩ := run_sound hs hrs hopens
  obtain ⟨g, hg, -⟩ := run_sound hs hkeys (opens_append hopens ds)
  have hsum := turnoverIn_append s rs ds
  have hbefore := hs.toNat_stamp hrs (by omega)
  have hafter := hs.toNat_stamp hkeys hmany
  rw [hf.table_eq] at hbefore
  rw [hg.table_eq] at hafter
  have hstays : g.cells .stamp = f.cells .stamp → f.cells.Stays g.cells := by
    intro heq
    rw [heq] at hafter
    obtain ⟨-, hturns, -⟩ := Orderly.run (.inr ⟨f, hf, hsound⟩) hds
    have hlast : ((s.run rs).2.run ds).2.table = g.cells := by
      rw [← hg.table_eq, run_append]
    rw [hf.table_eq, hlast] at hturns
    exact hturns.stays (by omega)
  have hkey : g.cells .stamp = f.cells .stamp → ∀ i e (txn : Txn), txn.key? = some (f.cells (.key i e)) →
      txn.key? = some (g.cells (.key i e)) := fun heq i e txn hk => by
    rw [(hstays heq).key i e (Txn.ne_zero_of_key? hk), hk]
  refine ⟨f, g, hf, hg, by omega, fun heq => ⟨(hstays heq).tracks, hkey heq⟩, ?_⟩
  intro n i e p txn hn hi hp hk
  exact Table.stillBelongs_eq hn hi hk fun heq => ⟨(hstays heq).tracks i p hp, hkey heq i e txn hk⟩

/-- A slot retires and is given to another partition, with the same version: what was looked up in it does not belong to
the first partition any more, and what was looked up beside it does. -/
theorem run_stamp_of_reused_slot :
    let e₀ : EntryIndex := ⟨0, by decide⟩
    let before : List Request := [.openBoard "a" "board" .willing (Config.default.withPolicy .day),
      .call "a" (.add ⟨1⟩ ⟨7⟩), .call "a" (.add ⟨2⟩ ⟨7⟩)]
    let between : List Request := [.call "a" (.remove ⟨1⟩ ⟨7⟩), .call "a" (.add ⟨3⟩ ⟨7⟩)]
    ∃ f g, (run {} before).2.Opened f ∧ (run {} (before ++ between)).2.Opened g ∧
      (g.cells .stamp).toNat = (f.cells .stamp).toNat + (run {} before).2.turnoverIn between ∧
      Table.stillBelongs (.upTo 1024) (f.cells .stamp) 0 e₀ ⟨1⟩ ⟨7⟩ g = (.ok false, g) ∧
      Table.stillBelongs (.upTo 1024) (f.cells .stamp) 1 e₀ ⟨2⟩ ⟨7⟩ g = (.ok true, g) := by
  intro e₀ before between
  have hkeys : ∀ r ∈ before ++ between, r.Trackable := by decide
  obtain ⟨-, -, hle⟩ := Orderly.run (.inl fresh_empty) hkeys
  obtain ⟨f, g, hf, hg, hgrown, -, hbelongs⟩ := run_stamp fresh_empty hkeys (by decide +kernel)
    (Nat.lt_of_le_of_lt hle (by decide))
  have hfirst : ∀ f ∈ (run {} before).2.file?, f.cells.Tracks 0 ⟨1⟩ ∧ f.cells.Tracks 1 ⟨2⟩ ∧
      Txn.key? ⟨7⟩ = some (f.cells (.key 0 e₀)) ∧ Txn.key? ⟨7⟩ = some (f.cells (.key 1 e₀)) := by
    decide +kernel
  have hlast : ∀ g ∈ (run {} (before ++ between)).2.file?, ¬ g.cells.Tracks 0 ⟨1⟩ ∧
      g.cells.Tracks 1 ⟨2⟩ ∧ Txn.key? ⟨7⟩ = some (g.cells (.key 1 e₀)) := by
    decide +kernel
  obtain ⟨h0, h1, hk0, hk1⟩ := hfirst _ hf.file
  obtain ⟨h0', h1', hk1'⟩ := hlast _ hg.file
  refine ⟨f, g, hf, hg, hgrown, ?_, ?_⟩
  · rw [hbelongs 1024 0 e₀ ⟨1⟩ ⟨7⟩ (by decide) (by decide) h0 hk0, decide_eq_false fun h => h0' h.1]
  · rw [hbelongs 1024 1 e₀ ⟨2⟩ ⟨7⟩ (by decide) (by decide) h1 hk1, decide_eq_true ⟨h1', hk1'⟩]

end Shared

end VersionBoard
