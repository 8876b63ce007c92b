import VersionBoard.Proofs.Changes
import VersionBoard.Proofs.Ledger

/-!
# What is listed and what is found

Four questions about versions go their own ways through a table: one lists the
versions of a partition, one looks for the slot of a version, and two for its
lock word. Between whole calls they agree. A partition has at most as many
versions as a slot has entries, all different, and has one just if it is tracked;
a version is found just if it is listed, with one slot for all versions of a
partition and for no others; and who holds it is what the list says
(`Shared.questions_agree`).
-/

namespace VersionBoard

theorem Txn.ofKey?_eq_some_iff {k : UInt64} {txn : Txn} : Txn.ofKey? k = some txn ↔ txn.key? = some k := by
  constructor
  · intro h
    rw [Txn.ofKey?] at h
    split_ifs at h with hk
    obtain rfl := Option.some.inj h
    have hlt := k.toNat_lt
    have hpos : k.toNat ≠ 0 := fun h0 => hk (UInt64.toNat_inj.mp h0)
    rw [Txn.key?_of_le, UInt64.sub_add_cancel]
    rw [UInt64.le_iff_toNat_le, LockWord.toNat_sub_one hk]
    exact Nat.sub_le_sub_right (Nat.le_of_lt_succ hlt) 1
  · intro h
    rw [Txn.ofKey?, if_neg (Txn.ne_zero_of_key? h)]
    rw [Txn.key?] at h
    split_ifs at h
    obtain rfl := Option.some.inj h
    rw [UInt64.add_sub_cancel]

namespace Words

variable {w : Words} {p q : Partition} {txn : Txn} {i j : Nat} {e : EntryIndex} {k : UInt64} {v : EntryState}

/-! ### The list of versions -/

/-- The versions of a tracked partition are its registered entries, lowest first. -/
theorem Coherent.versions_eq (h : w.Coherent) (hi : w.Tracks i p) : w.versions w.used p =
    (entryIndices.filter fun e => (Txn.ofKey? (w (.key i e))).isSome).map (w.entryState i) := by
  simp only [versions, h.slot?_eq_some_iff.mpr hi, List.filter_map]
  rfl

theorem versions_of_untracked (hp : ∀ i, ¬ w.Tracks i p) : w.versions w.used p = [] := by
  rw [versions, slot?_eq_none_iff.mpr fun i _ => hp i]

/-- What is listed is who holds the registered versions. -/
theorem Coherent.mem_versions_iff (h : w.Coherent) :
    v ∈ w.versions w.used p ↔ ∃ txn i e, w.RegisteredAt p txn i e ∧ v = w.entryState i e := by
  constructor
  · intro hv
    by_cases hp : ∃ i, w.Tracks i p
    · obtain ⟨i, hi⟩ := hp
      rw [h.versions_eq hi] at hv
      obtain ⟨e, he, rfl⟩ := List.mem_map.mp hv
      obtain ⟨txn, htxn⟩ := Option.isSome_iff_exists.mp (List.mem_filter.mp he).2
      exact ⟨txn, i, e, ⟨hi, Txn.ofKey?_eq_some_iff.mp htxn⟩, rfl⟩
    · rw [versions_of_untracked (not_exists.mp hp)] at hv
      cases hv
  · rintro ⟨txn, i, e, hat, rfl⟩
    rw [h.versions_eq hat.1]
    refine List.mem_map_of_mem (List.mem_filter.mpr ⟨List.mem_finRange e, ?_⟩)
    rw [Txn.ofKey?_eq_some_iff.mpr hat.2]
    rfl

theorem RegisteredAt.txn?_eq (hat : w.RegisteredAt p txn i e) : (w.entryState i e).txn? = some txn :=
  Txn.ofKey?_eq_some_iff.mpr hat.2

/-- A version is listed just if it is registered. -/
theorem Coherent.some_mem_versions_iff (h : w.Coherent) :
    some txn ∈ (w.versions w.used p).map (·.txn?) ↔ w.Registered p txn := by
  rw [List.mem_map]
  constructor
  · rintro ⟨v, hv, htxn⟩
    obtain ⟨t, i, e, hat, rfl⟩ := h.mem_versions_iff.mp hv
    obtain rfl : t = txn := Option.some.inj (hat.txn?_eq.symm.trans htxn)
    exact ⟨i, e, hat⟩
  · rintro ⟨i, e, hat⟩
    exact ⟨_, h.mem_versions_iff.mpr ⟨txn, i, e, hat, rfl⟩, hat.txn?_eq⟩

theorem Coherent.versions_eq_nil_iff (h : w.Coherent) : w.versions w.used p = [] ↔ ∀ i, ¬ w.Tracks i p := by
  refine ⟨fun hnil => not_exists.mp fun htracks => ?_, versions_of_untracked⟩
  obtain ⟨txn, i, e, hat⟩ := h.tracked_iff.mp htracks
  have hmem := h.mem_versions_iff.mpr ⟨txn, i, e, hat, rfl⟩
  rw [hnil] at hmem
  cases hmem

theorem length_versions_le (w : Words) (n : Nat) (p : Partition) : (w.versions n p).length ≤ entriesPerSlot := by
  rw [versions]
  cases w.slot? n p with
  | none => exact Nat.zero_le _
  | some i => exact (List.length_filter_le _ _).trans (by simp [entryIndices])

/-- No version is listed twice: entries with the same version would have the same key. -/
theorem Coherent.nodup_versions (h : w.Coherent) : ((w.versions w.used p).map (·.txn?)).Nodup := by
  by_cases hp : ∃ i, w.Tracks i p
  · obtain ⟨i, hi⟩ := hp
    rw [h.versions_eq hi, List.map_map]
    refine List.Nodup.map_on ?_ ((List.nodup_finRange _).filter _)
    intro d hd e _ heq
    obtain ⟨txn, hd⟩ := Option.isSome_iff_exists.mp (List.mem_filter.mp hd).2
    have he : Txn.ofKey? (w (.key i e)) = some txn := heq.symm.trans hd
    have hkey := Txn.ofKey?_eq_some_iff.mp hd
    exact h.apart i d e (Txn.ne_zero_of_key? hkey)
      (Option.some.inj (hkey.symm.trans (Txn.ofKey?_eq_some_iff.mp he)))
  · rw [versions_of_untracked (not_exists.mp hp)]
    exact List.nodup_nil

/-! ### The place of a version -/

theorem Coherent.at?_eq_none_iff (h : w.Coherent) (hk : txn.key? = some k) : w.at? p k = none ↔ ¬ w.Registered p txn := by
  rw [← not_iff_not, not_not, ← ne_eq, Option.ne_none_iff_exists']
  have hk0 := Txn.ne_zero_of_key? hk
  constructor
  · rintro ⟨⟨i, e⟩, hat⟩
    obtain ⟨hi, hkey⟩ := (h.at?_eq_some_iff hk0).mp hat
    exact ⟨i, e, hi, by rw [hk, hkey]⟩
  · rintro ⟨i, e, hi, hkey⟩
    exact ⟨(i, e), (h.at?_eq_some_iff hk0).mpr ⟨hi, Option.some.inj (hkey.symm.trans hk)⟩⟩

end Words

/-! ### What handles are told -/

namespace Shared

/-- What all handles are told of a partition, whatever they ask: it has the versions `vs`, and they are in slot `i`. -/
structure Lists [Processor] (s : Shared) (p : Partition) (vs : List EntryState) (i : Nat) : Prop where
  listed : s.Answers (.table (.versions p)) (.versions vs)
  /-- There are no more than fit in a slot. -/
  length : vs.length ≤ entriesPerSlot
  /-- They are the versions of transactions, -/
  named : ∀ v ∈ vs, ∃ txn, v.txn? = some txn
  /-- and of different ones. -/
  nodup : (vs.map (·.txn?)).Nodup
  /-- The slot is found of those that are listed and of no others. -/
  slot : ∀ txn, txn.number ≤ Txn.max.number → s.Answers (.table (.slotOfVersion p txn))
    (.slot (if some txn ∈ vs.map (·.txn?) then some i else none))
  /-- Who is listed to hold a version is told to, -/
  held : ∀ v ∈ vs, ∀ txn, v.txn? = some txn → s.Answers (.table (.readerCount p txn)) (.count v.readers) ∧
    s.Answers (.table (.hasWriter p txn)) (.flag v.hasWriter)
  /-- and nobody holds a version that is not listed. -/
  unheld : ∀ txn, txn.number ≤ Txn.max.number → some txn ∉ vs.map (·.txn?) →
    s.Answers (.table (.readerCount p txn)) (.count 0) ∧ s.Answers (.table (.hasWriter p txn)) (.flag false)

variable {s : Shared} {f : Image} {p : Partition}

/-- Who is answered at all is given that answer. -/
theorem Answers.eq [Processor] {c : BoardCall} {a b : Answer} (h : s.Answers c a) {name : String}
    (hget : (s.handles.get? name).isSome) (hb : (s.step (.call name c)).1.map (·.outcome) = some (.ok b)) : a = b := by
  obtain ⟨handle, hget⟩ := Option.isSome_iff_exists.mp hget
  obtain ⟨reply, h', calls, hreply, -, -, hcases⟩ := h name handle hget
  rw [hreply, Option.map_some] at hb
  have hok := Option.some.inj hb
  rcases hcases with ⟨-, hout⟩ | ⟨e, -, hout⟩ | ⟨-, hout⟩
  · cases hout.symm.trans hok
  · cases hout.symm.trans hok
  · exact Except.ok.inj (hout.symm.trans hok)

/-- On a board that is sound, all handles are told of the versions that the table says. -/
theorem Opened.lists [Processor] (hs : s.Opened f) {i : Nat} (hi : ∀ j, f.cells.Tracks j p → j = i) :
    s.Lists p (f.cells.versions f.cells.used p) i where
  listed := (hs.gets_of_table (c := .versions p) rfl (by simp)).mono fun _ _ h => h.1
  length := Words.length_versions_le ..
  named v hv := by
    obtain ⟨txn, j, e, hat, rfl⟩ := hs.coherent.table.mem_versions_iff.mp hv
    exact ⟨txn, hat.txn?_eq⟩
  nodup := hs.coherent.table.nodup_versions
  slot txn htxn := by
    have hk := Txn.key?_of_le htxn
    have hslot := hs.answers_slotOfVersion (p := p) hk
    split_ifs with hlisted
    · obtain ⟨j, e, hat⟩ := hs.coherent.table.some_mem_versions_iff.mp hlisted
      obtain rfl := hi j hat.1
      have hkey := Option.some.inj (hat.2.symm.trans hk)
      rwa [(hs.coherent.table.at?_eq_some_iff (Txn.ne_zero_of_key? hk)).mpr ⟨hat.1, hkey⟩] at hslot
    · rw [hs.coherent.table.some_mem_versions_iff] at hlisted
      rwa [(hs.coherent.table.at?_eq_none_iff hk).mpr hlisted] at hslot
  held v hv txn htxn := by
    obtain ⟨t, j, e, hat, rfl⟩ := hs.coherent.table.mem_versions_iff.mp hv
    obtain rfl : t = txn := Option.some.inj (hat.txn?_eq.symm.trans htxn)
    have hholding := hs.coherent.table.holding_eq (Txn.ne_zero_of_key? hat.2) hat.1 rfl
    have hreaders := hs.answers_readerCount (p := p) hat.2
    have hwriter := hs.answers_hasWriter (p := p) hat.2
    rw [hholding] at hreaders hwriter
    exact ⟨hreaders, hwriter⟩
  unheld txn htxn hnew := by
    have hk := Txn.key?_of_le htxn
    rw [hs.coherent.table.some_mem_versions_iff] at hnew
    have hholding : f.cells.holding p (txn.number + 1) = 0 := by
      rw [Words.holding, (hs.coherent.table.at?_eq_none_iff hk).mpr hnew]
      rfl
    have hreaders := hs.answers_readerCount (p := p) hk
    have hwriter := hs.answers_hasWriter (p := p) hk
    rw [hholding] at hreaders hwriter
    rw [LockWord.readers_zero] at hreaders
    rw [LockWord.hasWriter_zero] at hwriter
    exact ⟨hreaders, hwriter⟩

/-- Whatever was asked before, the questions about versions agree. A partition has versions just if it is tracked, and
partitions with versions have different slots. -/
theorem questions_agree [Processor] (hs : s.Reached) : ∃ f, s.file? = some f ∧
    ∃ (vs : Partition → List EntryState) (place : Partition → Nat), (∀ p, s.Lists p (vs p) (place p)) ∧
      (∀ p, vs p = [] ↔ ∀ i, ¬ f.cells.Tracks i p) ∧
      ∀ p q, vs p ≠ [] → vs q ≠ [] → place p = place q → p = q := by
  obtain ⟨f, hopened, -⟩ := hs.sound
  have htable := hopened.coherent.table
  have hplace : ∀ p j, f.cells.Tracks j p → (f.cells.slot? f.cells.used p).getD 0 = j := by
    intro p j hj
    rw [htable.slot?_eq_some_iff.mpr hj]
    rfl
  refine ⟨f, hopened.file, f.cells.versions f.cells.used, fun p => (f.cells.slot? f.cells.used p).getD 0,
    fun p => hopened.lists fun j hj => (hplace p j hj).symm, fun p => htable.versions_eq_nil_iff, ?_⟩
  intro p q hp hq heq
  simp only [ne_eq, htable.versions_eq_nil_iff, not_forall, not_not] at hp hq
  obtain ⟨i, hi⟩ := hp
  obtain ⟨j, hj⟩ := hq
  obtain rfl : i = j := (hplace p i hi).symm.trans (heq.trans (hplace q j hj))
  exact hi.2.symm.trans hj.2

/-- Two versions of a partition that starts before zero, one of them held and the last that has a key, and one of
another. -/
theorem questions_agree_of_two_partitions :
    let rs : List Request := [.openBoard "a" "board" .willing .default, .call "a" (.add ⟨-5⟩ ⟨0⟩),
      .call "a" (.add ⟨-5⟩ Txn.max), .call "a" (.add ⟨6⟩ ⟨0⟩), .call "a" (.table (.acquireRead ⟨-5⟩ Txn.max))]
    ∃ i j, (created.run rs).2.Lists ⟨-5⟩ [⟨some ⟨0⟩, 0, false⟩, ⟨some Txn.max, 1, false⟩] i ∧
      (created.run rs).2.Lists ⟨6⟩ [⟨some ⟨0⟩, 0, false⟩] j ∧ i ≠ j := by
  intro rs
  have hs : (created.run rs).2.Reached := reached_created.run (by decide)
  obtain ⟨f, hfile, vs, place, hlists, -, hplace⟩ := questions_agree hs
  have hasked : ((created.run rs).2.handles.get? "a").isSome ∧
      (((created.run rs).2.step (.call "a" (.table (.versions ⟨-5⟩)))).1.map (·.outcome) =
        some (.ok (.versions [⟨some ⟨0⟩, 0, false⟩, ⟨some Txn.max, 1, false⟩]))) ∧
      (((created.run rs).2.step (.call "a" (.table (.versions ⟨6⟩)))).1.map (·.outcome) =
        some (.ok (.versions [⟨some ⟨0⟩, 0, false⟩]))) := by
    decide +kernel
  obtain ⟨hopen, hfirst, hsecond⟩ := hasked
  have hp : vs ⟨-5⟩ = _ := Answer.versions.inj ((hlists ⟨-5⟩).listed.eq hopen hfirst)
  have hq : vs ⟨6⟩ = _ := Answer.versions.inj ((hlists ⟨6⟩).listed.eq hopen hsecond)
  refine ⟨place ⟨-5⟩, place ⟨6⟩, hp ▸ hlists ⟨-5⟩, hq ▸ hlists ⟨6⟩, fun heq => ?_⟩
  exact absurd (hplace ⟨-5⟩ ⟨6⟩ (by simp [hp]) (by simp [hq]) heq) (by decide)

end Shared

end VersionBoard
