import VersionBoard.Proofs.Dialogue
import VersionBoard.Proofs.Rows

/-!
# Partitions do not see each other

Partitions share a header and take over each other's retired slots, but a call
about one partition leaves all others as they are (`Words.Alike.tell_of_ne`), and
what it does depends on nothing but the row of its own (`Words.Alike.tell`). So
in two runs that make the same calls about a partition, whatever else they do,
these calls get the same answers, but for the number of the slot
(`Shared.about_eq`).
-/

namespace VersionBoard

namespace Words

/-- A coherent table in which no attempt is pending. -/
structure Calm (w : Words) : Prop extends w.Coherent where
  idle : ∀ i e, w (.key i e) = 0 → w (.lock i e) = 0

variable {w u : Words} {i j : Nat} {p q : Partition} {es : List Edit} {c : BoardCall}

/-! ### Edits in other slots -/

theorem sameRow_edits_of_slot_ne (hes : ∀ ed ∈ es, ed.slot ≠ i) : w.SameRow i (w.edits es) i where
  key e := edits_apply fun ed hed _ => key_edit_of_slot_ne (hes ed hed).symm e
  lock e := edits_apply fun ed hed _ => lock_edit_of_slot_ne (hes ed hed).symm e

theorem tracks_edits_of_slot_ne (hes : ∀ ed ∈ es, ed.slot ≠ i) : (w.edits es).Tracks i p ↔ w.Tracks i p := by
  have hstate : w.edits es (.state i) = w (.state i) :=
    edits_apply fun ed hed _ => state_edit_of_slot_ne (hes ed hed).symm
  have hpartition : w.edits es (.partition i) = w (.partition i) :=
    edits_apply fun ed hed _ => partition_edit_of_slot_ne (hes ed hed).symm
  rw [Tracks, Tracks, Live, Live, hstate, hpartition]

theorem partition_edits_of_named (hes : ∀ ed ∈ es, ed.named = none) (i : Nat) :
    w.edits es (.partition i) = w (.partition i) := by
  refine edits_apply fun ed hed _ => partition_edit_of_ne fun p => ?_
  rw [hes ed hed]
  nofun

/-- What is tracked after edits was tracked before, or is named by one of them. -/
theorem tracks_of_edits (ha : w.Allows es) (ht : (w.edits es).Tracks i p) :
    w.Tracks i p ∨ ∃ ed ∈ es, ed.named = some (i, p) := by
  induction es generalizing w with
  | nil => exact .inl ht
  | cons ed es ih =>
    rcases ih ha.2 ht with h | ⟨d, hd, hnamed⟩
    · rcases tracks_of_edit ha.1 h with h | ⟨e, k, rfl⟩
      · exact .inl h
      · exact .inr ⟨_, List.mem_cons_self, rfl⟩
    · exact .inr ⟨d, List.mem_cons_of_mem _ hd, hnamed⟩

theorem used_le_edits (ha : w.Allows es) : w.used ≤ (w.edits es).used := by
  induction es generalizing w with
  | nil => exact Nat.le_refl _
  | cons ed es ih => exact Nat.le_trans (used_le_edit ha.1) (ih ha.2)

theorem idle_edits (ha : w.Allows es) (hes : ∀ ed ∈ es, ed.abandons = false)
    (hidle : ∀ i e, w (.key i e) = 0 → w (.lock i e) = 0) (i : Nat) (e : EntryIndex)
    (hk : w.edits es (.key i e) = 0) : w.edits es (.lock i e) = 0 := by
  induction es generalizing w with
  | nil => exact hidle i e hk
  | cons ed es ih =>
    have hfirst := hes ed List.mem_cons_self
    exact ih ha.2 (fun d hd => hes d (List.mem_cons_of_mem _ hd)) (fun _ _ => idle_edit ha.1 hfirst hidle) hk

/-! ### Tables between calls -/

theorem Coherent.tell (h : w.Coherent) (c : BoardCall) : (w.tell c).Coherent := h.edits (c.allows_plan h)

theorem Calm.tell (h : w.Calm) (hc : c.Trackable) : (w.tell c).Calm where
  toCoherent := h.toCoherent.tell c
  idle := idle_edits (c.allows_plan h.toCoherent) (fun _ => hc.abandons_eq_false) h.idle

theorem Calm.used_le_tellAll (h : w.Calm) {cs : List BoardCall} (hcs : ∀ c ∈ cs, c.Trackable) :
    w.used ≤ (w.tellAll cs).used := by
  induction cs generalizing w with
  | nil => exact Nat.le_refl _
  | cons c cs ih =>
    have hfirst : w.used ≤ (w.tell c).used := used_le_edits (c.allows_plan h.toCoherent)
    exact Nat.le_trans hfirst (ih (h.tell (hcs c List.mem_cons_self)) fun d hd => hcs d (List.mem_cons_of_mem _ hd))

/-- If there is room for one slot more in the end, there is in the beginning. -/
theorem Calm.room (h : w.Calm) {cs : List BoardCall} (hcs : ∀ c ∈ cs, c.Trackable) {n : Nat}
    (hroom : sizeFor ((w.tellAll cs).used + 1) ≤ n) : sizeFor (w.used + 1) ≤ n :=
  Nat.le_trans (sizeFor_mono (Nat.succ_le_succ (h.used_le_tellAll hcs))) hroom

/-- There is nothing in the slot for the next new partition. -/
theorem Calm.next_empty (h : w.Calm) (e : EntryIndex) :
    w (.key (w.next w.used) e) = 0 ∧ w (.lock (w.next w.used) e) = 0 := by
  have hkey := h.key_eq_zero h.not_live_next e
  exact ⟨hkey, h.idle _ e hkey⟩

/-! ### Calls about a partition that is not tracked -/

/-- Unless it adds a version, the call changes nothing and ends in the same way everywhere. -/
theorem plan_of_slot?_eq_none (hw : w.slot? w.used p = none) (hu : u.slot? u.used p = none)
    (hc : c.partition? = some p) (hadd : ∀ txn, c ≠ .add p txn) : c.plan u = c.plan w ∧ (c.plan w).2 = [] := by
  cases c with
  | add q txn =>
    obtain rfl : q = p := Option.some.inj hc
    exact absurd rfl (hadd txn)
  | remove q txn =>
    obtain rfl : q = p := Option.some.inj hc
    simp [BoardCall.plan, untrack, hw, hu, Plan.map, Plan.answer]
  | table c =>
    cases c with
    | readLocks => cases hc
    | partitionCount => cases hc
    | stamp => cases hc
    | _ =>
      obtain rfl := Option.some.inj hc
      simp [BoardCall.plan, TableCall.plan, acquireRead, acquireWrite, releaseRead, releaseWrite, findOrRegister, find,
        versions, hw, hu, Plan.map, Plan.answer, Plan.andThen, Plan.stop, Except.map]

theorem tracks_edit_track (w : Words) (i : Nat) (e : EntryIndex) (p : Partition) (k : UInt64) :
    (w.edit (.track i e p k)).Tracks i p := by
  have hword : w.edit (.track i e p k) (.partition i) = p.word := by simp [edit, Edit.writes, set_apply]
  exact ⟨state_edit_of_stated rfl, by rw [hword, Partition.ofWord_word]⟩

/-- A version of it that is added is put into the next slot, which is empty. -/
theorem Calm.plan_add (h : w.Calm) (hp : w.slot? w.used p = none) (hroom : sizeFor (w.used + 1) ≤ Region.maxSize)
    {txn : Txn} {k : UInt64} (hk : txn.key? = some k) :
    ∃ e, w.free? (w.next w.used) = some e ∧
      (BoardCall.add p txn).plan w = (.ok (.flag true), [.track (w.next w.used) e p k]) := by
  have hroom' : sizeFor (w.next w.used + 1) ≤ Region.maxSize :=
    Nat.le_trans (sizeFor_mono (Nat.succ_le_succ w.next_le_used)) hroom
  cases hfree : w.free? (w.next w.used) with
  | none => exact absurd (h.next_empty ⟨0, by decide⟩).1 ((free?_eq_none_iff h.idle).mp hfree _)
  | some e =>
    refine ⟨e, rfl, ?_⟩
    simp only [BoardCall.plan, Words.add, hp, if_pos hroom', track, hfree, hk]
    rfl

/-! ### Calls about a partition that is tracked -/

namespace Coherent

/-- The call edits the partition's slot only, and gives it to nobody else. -/
theorem of_mem_plan (h : w.Coherent) (hi : w.Tracks i p) (hc : c.partition? = some p) {ed : Edit}
    (hed : ed ∈ (c.plan w).2) : ed.slot = i ∧ ed.named = none := by
  obtain ⟨q, hq, hcases⟩ := BoardCall.of_mem_plan hed
  obtain rfl : p = q := Option.some.inj (hc.symm.trans hq)
  rcases hcases with ⟨hslot, hnamed⟩ | ⟨hnone, -⟩
  · exact ⟨h.unique _ _ p hslot hi, hnamed⟩
  · exact absurd hi (h.not_tracks hnone i)

/-- Afterwards the partition is tracked there or nowhere. -/
theorem tracks_tell_iff (h : w.Coherent) (hi : w.Tracks i p) (hc : c.partition? = some p) :
    (w.tell c).Tracks j p ↔ j = i ∧ (w.tell c).Live i := by
  have hnamed : ∀ ed ∈ (c.plan w).2, ed.named = none := fun ed hed => (h.of_mem_plan hi hc hed).2
  constructor
  · intro hj
    rcases tracks_of_edits (c.allows_plan h) hj with hj' | ⟨ed, hed, hsome⟩
    · obtain rfl := h.unique j i p hj' hi
      exact ⟨rfl, hj.1⟩
    · rw [hnamed ed hed] at hsome
      cases hsome
  · rintro ⟨rfl, hl⟩
    refine ⟨hl, ?_⟩
    rw [Words.tell, partition_edits_of_named hnamed]
    exact hi.2

/-- A call about something else makes no edit in the slot of a partition. -/
theorem slot_ne_of_mem_plan (h : w.Coherent) (hc : c.partition? ≠ some p) (hi : w.Tracks i p) {ed : Edit}
    (hed : ed ∈ (c.plan w).2) : ed.slot ≠ i := by
  rintro rfl
  obtain ⟨q, hq, ⟨hed, -⟩ | ⟨-, hnext, -⟩⟩ := BoardCall.of_mem_plan hed
  · exact hc (by rw [hq, ← hed.2, hi.2])
  · exact h.not_live_next (hnext ▸ hi.1)

/-- The partition stays where it is. -/
theorem tracks_tell_of_ne (h : w.Coherent) (hc : c.partition? ≠ some p) (j : Nat) :
    (w.tell c).Tracks j p ↔ w.Tracks j p := by
  constructor
  · intro hj
    rcases tracks_of_edits (c.allows_plan h) hj with hj | ⟨ed, hed, hnamed⟩
    · exact hj
    · obtain ⟨q, hq, ⟨-, hnone⟩ | ⟨-, -, hsome⟩⟩ := BoardCall.of_mem_plan hed
      · rw [hnamed] at hnone
        cases hnone
      · rw [hnamed] at hsome
        exact absurd (by rw [hq, (Prod.mk.inj (Option.some.inj hsome)).2]) hc
  · exact fun hj => (tracks_edits_of_slot_ne fun _ => h.slot_ne_of_mem_plan hc hj).mpr hj

/-- Its versions and their locks stay as they are. -/
theorem sameRow_tell_of_ne (h : w.Coherent) (hc : c.partition? ≠ some p) (hi : w.Tracks i p) :
    w.SameRow i (w.tell c) i := sameRow_edits_of_slot_ne fun _ => h.slot_ne_of_mem_plan hc hi

end Coherent

/-! ### Tables that are alike for one partition -/

/-- Both tables track the partition with the same row, or neither does. -/
inductive Alike (p : Partition) (w u : Words) : Prop where
  | untracked (hw : ∀ i, ¬ w.Tracks i p) (hu : ∀ j, ¬ u.Tracks j p)
  | tracked {i j : Nat} (hw : w.Tracks i p) (hu : u.Tracks j p) (hrow : w.SameRow i u j)

namespace Alike

theorem refl (p : Partition) (w : Words) : Alike p w w := by
  by_cases hp : ∃ i, w.Tracks i p
  · obtain ⟨i, hi⟩ := hp
    exact .tracked hi hi ⟨fun _ => rfl, fun _ => rfl⟩
  · exact .untracked (not_exists.mp hp) (not_exists.mp hp)

theorem symm (h : Alike p w u) : Alike p u w := by
  cases h with
  | untracked hw hu => exact .untracked hu hw
  | tracked hw hu hrow => exact .tracked hu hw hrow.symm

theorem trans {v : Words} (h : Alike p w u) (hu : u.Coherent) (h' : Alike p u v) : Alike p w v := by
  cases h with
  | untracked hw hu₁ =>
    cases h' with
    | untracked _ hv => exact .untracked hw hv
    | tracked hu₂ => exact absurd hu₂ (hu₁ _)
  | tracked hw hu₁ hrow =>
    cases h' with
    | untracked hu₂ => exact absurd hu₁ (hu₂ _)
    | tracked hu₂ hv hrow' =>
      obtain rfl := hu.unique _ _ p hu₁ hu₂
      exact .tracked hw hv (hrow.trans hrow')

/-- A call about something else leaves a partition as it is. -/
theorem tell_of_ne (h : w.Coherent) (hc : c.partition? ≠ some p) : Alike p w (w.tell c) := by
  by_cases hp : ∃ i, w.Tracks i p
  · obtain ⟨i, hi⟩ := hp
    exact .tracked hi ((h.tracks_tell_of_ne hc i).mpr hi) (h.sameRow_tell_of_ne hc hi)
  · exact .untracked (not_exists.mp hp) fun j hj => hp ⟨j, (h.tracks_tell_of_ne hc j).mp hj⟩

/-- A call about a partition that both tables track with the same row. -/
theorem tell_of_tracks (hw : w.Calm) (hu : u.Coherent) (hi : w.Tracks i p) (hj : u.Tracks j p) (hrow : w.SameRow i u j)
    (hc : c.partition? = some p) :
    (c.plan u).1.map Answer.unplaced = (c.plan w).1.map Answer.unplaced ∧ Alike p (w.tell c) (u.tell c) := by
  obtain ⟨hout, hedits⟩ := c.relocates_plan hrow hw.toCoherent hw.idle hu hi hj hc
  refine ⟨hout, ?_⟩
  have hrow' : (w.tell c).SameRow i (u.tell c) j := by
    rw [tell, tell, hedits]
    exact hrow.edits fun ed hed => (hw.of_mem_plan hi hc hed).1
  have hlive : (u.tell c).Live j ↔ (w.tell c).Live i := by
    rw [(hw.toCoherent.tell c).peopled i, (hu.tell c).peopled j]
    exact exists_congr fun e => by rw [hrow'.key e]
  by_cases hl : (w.tell c).Live i
  · exact .tracked ((hw.tracks_tell_iff hi hc).mpr ⟨rfl, hl⟩) ((hu.tracks_tell_iff hj hc).mpr ⟨rfl, hlive.mpr hl⟩) hrow'
  · refine .untracked (fun i' hi' => hl ?_) fun j' hj' => hl (hlive.mp ?_)
    · exact ((hw.tracks_tell_iff hi hc).mp hi').2
    · exact ((hu.tracks_tell_iff hj hc).mp hj').2

/-- A call about a partition that neither table tracks. -/
theorem tell_of_not_tracks (hw : w.Calm) (hu : u.Calm) (hi : ∀ i, ¬ w.Tracks i p) (hj : ∀ j, ¬ u.Tracks j p)
    (hwroom : sizeFor (w.used + 1) ≤ Region.maxSize) (huroom : sizeFor (u.used + 1) ≤ Region.maxSize)
    (hc : c.partition? = some p) (hkeys : c.Trackable) :
    (c.plan u).1.map Answer.unplaced = (c.plan w).1.map Answer.unplaced ∧ Alike p (w.tell c) (u.tell c) := by
  have hslot := slot?_eq_none_iff.mpr fun i (_ : i < w.used) => hi i
  have hslot' := slot?_eq_none_iff.mpr fun j (_ : j < u.used) => hj j
  rcases Classical.em (∃ txn, c = .add p txn) with ⟨txn, rfl⟩ | hadd
  · have hk := Txn.key?_of_le (hkeys txn rfl)
    obtain ⟨e, hfree, hplan⟩ := hw.plan_add hslot hwroom hk
    obtain ⟨d, hfree', hplan'⟩ := hu.plan_add hslot' huroom hk
    have hrow : w.SameRow (w.next w.used) u (u.next u.used) := by
      constructor <;> intro e
      · rw [(hu.next_empty e).1, (hw.next_empty e).1]
      · rw [(hu.next_empty e).2, (hw.next_empty e).2]
    obtain rfl : d = e := Option.some.inj (hfree'.symm.trans (hrow.free?_eq.trans hfree))
    rw [tell, tell, hplan, hplan']
    exact ⟨rfl, .tracked (tracks_edit_track ..) (tracks_edit_track ..)
      (hrow.edit (show (Edit.track (w.next w.used) d p _).slot = _ from rfl))⟩
  · obtain ⟨hplan, hes⟩ := plan_of_slot?_eq_none hslot hslot' hc fun txn h => hadd ⟨txn, h⟩
    rw [tell, tell, hplan, hes]
    exact ⟨rfl, .untracked hi hj⟩

/-- A call about a partition for which the tables are alike. -/
theorem tell (h : Alike p w u) (hw : w.Calm) (hu : u.Calm) (hwroom : sizeFor (w.used + 1) ≤ Region.maxSize)
    (huroom : sizeFor (u.used + 1) ≤ Region.maxSize) (hc : c.partition? = some p) (hkeys : c.Trackable) :
    (c.plan u).1.map Answer.unplaced = (c.plan w).1.map Answer.unplaced ∧ Alike p (w.tell c) (u.tell c) := by
  cases h with
  | untracked hi hj => exact tell_of_not_tracks hw hu hi hj hwroom huroom hc hkeys
  | tracked hi hj hrow => exact tell_of_tracks hw hu.toCoherent hi hj hrow hc

end Alike

end Words

/-! ### Two runs -/

/-- What a dialogue says about `p`, without the numbers of slots. -/
def about (p : Partition) (l : List (BoardCall × Except Halt Answer)) : List (BoardCall × Except Halt Answer) :=
  (l.filter (·.1.partition? = some p)).map fun x => (x.1, x.2.map Answer.unplaced)

theorem map_fst_about (p : Partition) (l : List (BoardCall × Except Halt Answer)) :
    (about p l).map Prod.fst = (l.map Prod.fst).filter (·.partition? = some p) := by
  simp [about, List.filter_map, Function.comp_def]

namespace Words

variable {w u : Words} {p : Partition} {c : BoardCall} {cs ds : List BoardCall}

theorem about_dialogue_cons_of_ne (hc : c.partition? ≠ some p) :
    about p (w.dialogue (c :: cs)) = about p ((w.tell c).dialogue cs) := by
  simp [about, dialogue, hc]

theorem about_dialogue_cons (hc : c.partition? = some p) :
    about p (w.dialogue (c :: cs)) = (c, (c.plan w).1.map Answer.unplaced) :: about p ((w.tell c).dialogue cs) := by
  simp [about, dialogue, hc]

/-- Calls about other partitions say nothing about `p` and leave it as it is. -/
theorem Calm.skip (h : w.Calm) (hcs : ∀ c ∈ cs, c.Trackable) (hne : ∀ c ∈ cs, c.partition? ≠ some p)
    (ds : List BoardCall) : about p (w.dialogue (cs ++ ds)) = about p ((w.tellAll cs).dialogue ds) ∧
      (w.tellAll cs).Calm ∧ Alike p w (w.tellAll cs) := by
  induction cs generalizing w with
  | nil => exact ⟨rfl, h, .refl p w⟩
  | cons c cs ih =>
    have hfirst := Alike.tell_of_ne h.toCoherent (hne c List.mem_cons_self)
    have hcalm := h.tell (hcs c List.mem_cons_self)
    obtain ⟨habout, hlast, halike⟩ := ih hcalm (fun d hd => hcs d (List.mem_cons_of_mem _ hd))
      fun d hd => hne d (List.mem_cons_of_mem _ hd)
    refine ⟨?_, hlast, hfirst.trans hcalm.toCoherent halike⟩
    rw [List.cons_append, about_dialogue_cons_of_ne (hne c List.mem_cons_self)]
    exact habout

/-- The same calls about `p` among others get the same answers. -/
theorem Alike.about_dialogue_eq (h : Alike p w u) (hw : w.Calm) (hu : u.Calm) (hcs : ∀ c ∈ cs, c.Trackable)
    (hds : ∀ c ∈ ds, c.Trackable) (hwroom : sizeFor ((w.tellAll cs).used + 1) ≤ Region.maxSize)
    (huroom : sizeFor ((u.tellAll ds).used + 1) ≤ Region.maxSize)
    (hcalls : ds.filter (·.partition? = some p) = cs.filter (·.partition? = some p)) :
    about p (u.dialogue ds) = about p (w.dialogue cs) := by
  induction cs generalizing w u ds with
  | nil =>
    have hne : ∀ c ∈ ds, c.partition? ≠ some p := by simpa using hcalls
    have hskip := (hu.skip hds hne []).1
    rwa [List.append_nil] at hskip
  | cons c cs ih =>
    have hc := hcs c List.mem_cons_self
    have hrest := fun d hd => hcs d (List.mem_cons_of_mem c hd)
    by_cases hp : c.partition? = some p
    · rw [List.filter_cons_of_pos (by simpa using hp)] at hcalls
      obtain ⟨ds₁, ds₂, rfl, hne, -, hcalls'⟩ := List.filter_eq_cons_iff.mp hcalls
      have hds₁ : ∀ d ∈ ds₁, d.Trackable := fun d hd => hds d (List.mem_append_left _ hd)
      have hds₂ : ∀ d ∈ c :: ds₂, d.Trackable := fun d hd => hds d (List.mem_append_right _ hd)
      obtain ⟨hskip, hu₁, halike⟩ := hu.skip hds₁ (by simpa using hne) (c :: ds₂)
      have htellAll : u.tellAll (ds₁ ++ c :: ds₂) = (u.tellAll ds₁).tellAll (c :: ds₂) := List.foldl_append
      rw [htellAll] at huroom
      obtain ⟨hout, hnext⟩ :=
        (h.trans hu.toCoherent halike).tell hw hu₁ (hw.room hcs hwroom) (hu₁.room hds₂ huroom) hp hc
      rw [hskip, about_dialogue_cons hp, about_dialogue_cons hp, hout]
      refine congrArg _ (ih hnext (hw.tell hc) (hu₁.tell hc) hrest (fun d hd => ?_) hwroom huroom hcalls')
      exact hds₂ d (List.mem_cons_of_mem _ hd)
    · rw [about_dialogue_cons_of_ne hp]
      refine ih ((Alike.tell_of_ne hw.toCoherent hp).symm.trans hw.toCoherent h) (hw.tell hc) hu hrest hds hwroom
        huroom ?_
      rwa [List.filter_cons_of_neg (by simpa using hp)] at hcalls

end Words

namespace Shared

variable {s t : Shared} {rs ts : List Request}

theorem Serves.room {f : Image} (h : s.Serves f) (hsize : f.size < 2 ^ 63) :
    sizeFor (f.cells.used + 1) ≤ Region.maxSize := h.sound.room hsize

/-- In two runs on the same file that make the same calls about a partition, these calls get the same answers, whatever
else is called for in between. -/
theorem about_eq [Processor] (hs : s.Reached) (ht : t.Reached) (hfile : t.file? = s.file?) (hsw : s.Willing)
    (htw : t.Willing) (hrs : ∀ r ∈ rs, r.Trackable ∧ r.Willing) (hts : ∀ r ∈ ts, r.Trackable ∧ r.Willing)
    (hssize : ∀ f ∈ (s.run rs).2.file?, f.size < 2 ^ 63)
    (htsize : ∀ f ∈ (t.run ts).2.file?, f.size < 2 ^ 63) (p : Partition)
    (hcalls : (about p (t.dialogue ts)).map Prod.fst = (about p (s.dialogue rs)).map Prod.fst) :
    about p (t.dialogue ts) = about p (s.dialogue rs) := by
  obtain ⟨f, hsf⟩ := hs.serves hsw
  obtain ⟨g, htg⟩ := ht.serves htw
  obtain rfl : g = f := by
    have h := hfile
    rw [htg.opened.file, hsf.opened.file] at h
    exact Option.some.inj h
  obtain ⟨hdialogue, hserves, hcells⟩ := hsf.run hrs
  obtain ⟨hdialogue', hserves', hcells'⟩ := htg.run hts
  have hcalm : g.cells.Calm := ⟨hsf.sound.table, hsf.sound.idle⟩
  rw [map_fst_about, map_fst_about] at hcalls
  rw [hdialogue, hdialogue']
  refine (Words.Alike.refl p g.cells).about_dialogue_eq hcalm hcalm (trackable_of_mem_dialogue fun r hr => (hrs r hr).1)
    (trackable_of_mem_dialogue fun r hr => (hts r hr).1) ?_ ?_ hcalls
  · rw [← hcells]
    exact hserves.room (hssize _ hserves.opened.file)
  · rw [← hcells']
    exact hserves'.room (htsize _ hserves'.opened.file)

/-- In the second run the partition has the slot that another one has left, and not the first one. -/
theorem about_eq_of_other_slot :
    let add (p : Int64) : Request := .call "a" (.add ⟨p⟩ ⟨7⟩)
    let rest : List Request := [.call "a" (.table (.acquireWrite ⟨5⟩ ⟨8⟩)), .call "a" (.table (.slotOfVersion ⟨5⟩ ⟨8⟩)),
      .call "a" (.remove ⟨5⟩ ⟨7⟩), .call "a" (.table (.versions ⟨5⟩)), .call "a" (.table (.releaseRead ⟨5⟩ ⟨8⟩))]
    let first : List Request := .openBoard "a" "board" .willing .default :: add 5 :: rest
    let second : List Request := [.openBoard "a" "board" .willing .default, add 1, add 2, .call "a" (.remove ⟨2⟩ ⟨7⟩),
      add 5] ++ .call "a" (.table (.acquireRead ⟨1⟩ ⟨8⟩)) :: rest
    (BoardCall.table (.slotOfVersion ⟨5⟩ ⟨8⟩), .ok (.slot (some 0))) ∈ created.dialogue first ∧
      (BoardCall.table (.slotOfVersion ⟨5⟩ ⟨8⟩), .ok (.slot (some 1))) ∈ created.dialogue second ∧
      about ⟨5⟩ (created.dialogue second) = about ⟨5⟩ (created.dialogue first) := by
  intro add rest first second
  have hkeys : (∀ r ∈ first, r.Trackable) ∧ ∀ r ∈ second, r.Trackable := by decide
  have hwilling : (∀ r ∈ first, r.Willing) ∧ ∀ r ∈ second, r.Willing := by
    simp [first, second, rest, add, Request.Willing, Host.willing_willing]
  refine ⟨by decide +kernel, by decide +kernel, ?_⟩
  refine about_eq reached_created reached_created rfl willing_created willing_created ?_ ?_ ?_ ?_ ⟨5⟩ ?_
  · exact fun r hr => ⟨hkeys.1 r hr, hwilling.1 r hr⟩
  · exact fun r hr => ⟨hkeys.2 r hr, hwilling.2 r hr⟩
  · decide +kernel
  · decide +kernel
  · decide +kernel

end Shared

end VersionBoard
