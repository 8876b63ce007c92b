import VersionBoard.Proofs.Accounts
import VersionBoard.Proofs.Isolation

/-!
# Operations on different versions commute

A lock operation on a registered version reads and writes the lock word of one
entry, and besides it only writes how many read locks are held. So it registers
nothing and gives nothing away, and an operation on any other version goes as if
it had not been there: what is said about a version is what would be said if
nobody asked for another one (`Words.onVersion_dialogue`). Hence lock operations
may be made in any order in which those on each version come in theirs, and the
answers are the same, and so is every byte of the file
(`Shared.locks_commute`).
-/

namespace VersionBoard

variable {p : Partition} {txn : Txn}

/-! ### Lock operations -/

/-- The version that a lock operation is about. -/
def TableCall.lockOf? : TableCall → Option (Partition × Txn)
  | acquireRead p txn => some (p, txn)
  | releaseRead p txn => some (p, txn)
  | acquireWrite p txn => some (p, txn)
  | releaseWrite p txn => some (p, txn)
  | _ => none

def BoardCall.lockOf? : BoardCall → Option (Partition × Txn)
  | table c => c.lockOf?
  | _ => none

theorem TableCall.lockOf?_of_isQuestion {c : TableCall} (hc : c.isQuestion = true) : c.lockOf? = none := by
  cases c <;> first | rfl | cases hc

/-- A lock operation is an acquisition or a release. -/
theorem BoardCall.lock_kinds {c : BoardCall} (hc : c.lockOf? = some (p, txn)) :
    (∃ mode : LockMode, c = .table (mode.acquire p txn)) ∨ ∃ mode : LockMode, c = .table (mode.release p txn) := by
  cases c with
  | table c =>
    rcases c.kinds with ⟨mode, q, t, rfl⟩ | ⟨mode, q, t, rfl⟩ | hasks
    · obtain ⟨rfl, rfl⟩ : q = p ∧ t = txn := by cases mode <;> exact Prod.mk.inj (Option.some.inj hc)
      exact .inl ⟨mode, rfl⟩
    · obtain ⟨rfl, rfl⟩ : q = p ∧ t = txn := by cases mode <;> exact Prod.mk.inj (Option.some.inj hc)
      exact .inr ⟨mode, rfl⟩
    · exact absurd ((TableCall.lockOf?_of_isQuestion hasks).symm.trans hc) (by simp)
  | _ => cases hc

/-- The word says who holds versions: it is the lock word of an entry, or counts the read locks. -/
def Cell.IsHold (c : Cell) : Prop := c = readLocks ∨ ∃ i e, c = lock i e

/-- An edit that moves a lock writes nothing else than who holds the version. -/
theorem Edit.isHold_of_mem_writes {w : Words} {ed : Edit} (hed : ed.moves.isSome) {x : Cell × UInt64}
    (hx : x ∈ ed.writes w) : x.1.IsHold := by
  cases ed <;> simp only [moves, Option.isSome_none, Bool.false_eq_true] at hed <;>
    simp only [writes, List.mem_cons, List.not_mem_nil, or_false] at hx <;>
    rcases hx with rfl | rfl <;> simp [Cell.IsHold]

namespace Words

variable {w u v : Words} {i j : Nat} {d e : EntryIndex} {es : List Edit} {c : BoardCall} {cs : List BoardCall}

/-! ### Tables with the same versions -/

/-- The version is registered in entry `e` of slot `i`. -/
def RegisteredAt (w : Words) (p : Partition) (txn : Txn) (i : Nat) (e : EntryIndex) : Prop :=
  w.Tracks i p ∧ txn.key? = some (w (.key i e))

instance (w : Words) (p : Partition) (txn : Txn) (i : Nat) (e : EntryIndex) : Decidable (w.RegisteredAt p txn i e) :=
  inferInstanceAs (Decidable (_ ∧ _))

/-- The version is registered. -/
def Registered (w : Words) (p : Partition) (txn : Txn) : Prop := ∃ i e, w.RegisteredAt p txn i e

/-- The tables say the same, but for who holds the versions. -/
def SameVersions (w u : Words) : Prop := ∀ c : Cell, ¬ c.IsHold → u c = w c

namespace SameVersions

theorem refl (w : Words) : w.SameVersions w := fun _ _ => rfl

theorem symm (h : w.SameVersions u) : u.SameVersions w := fun c hc => (h c hc).symm

theorem trans (h : w.SameVersions u) (h' : u.SameVersions v) : w.SameVersions v := fun c hc => (h' c hc).trans (h c hc)

theorem key (h : w.SameVersions u) (i : Nat) (e : EntryIndex) : u (.key i e) = w (.key i e) :=
  h _ (by simp [Cell.IsHold])

theorem used_eq (h : w.SameVersions u) : u.used = w.used := congrArg UInt64.toNat (h _ (by simp [Cell.IsHold]))

theorem registeredAt (h : w.SameVersions u) (hat : w.RegisteredAt p txn i e) : u.RegisteredAt p txn i e := by
  have hstate : u (.state i) = w (.state i) := h _ (by simp [Cell.IsHold])
  have hpartition : u (.partition i) = w (.partition i) := h _ (by simp [Cell.IsHold])
  rwa [RegisteredAt, Tracks, Live, hstate, hpartition, h.key]

theorem registered (h : w.SameVersions u) (hat : w.Registered p txn) : u.Registered p txn := by
  obtain ⟨i, e, hat⟩ := hat
  exact ⟨i, e, h.registeredAt hat⟩

/-- Edits that move locks leave the versions as they are. -/
theorem edits (w : Words) (hes : ∀ ed ∈ es, ed.moves.isSome) : w.SameVersions (w.edits es) := by
  intro c hc
  refine edits_apply fun ed hed u => setAll_of_notMem u fun x hx hxc => hc ?_
  exact hxc ▸ Edit.isHold_of_mem_writes (hes ed hed) hx

end SameVersions

/-! ### One entry -/

/-- What becomes of a lock word depends on nothing but itself. -/
theorem lock_edits_congr (hes : ∀ ed ∈ es, ed.moves.isSome ∧ ed.locked = some (i, e))
    (hlock : u (.lock i e) = w (.lock i e)) : u.edits es (.lock i e) = w.edits es (.lock i e) := by
  induction es generalizing w u with
  | nil => exact hlock
  | cons ed es ih =>
    obtain ⟨hmoves, hlocked⟩ := hes ed List.mem_cons_self
    refine ih (fun d hd => hes d (List.mem_cons_of_mem _ hd)) ?_
    cases ed with
    | addReader =>
      obtain ⟨rfl, rfl⟩ := Prod.mk.inj (Option.some.inj hlocked)
      rw [lock_edit_addReader, lock_edit_addReader, hlock]
    | dropReader =>
      obtain ⟨rfl, rfl⟩ := Prod.mk.inj (Option.some.inj hlocked)
      rw [lock_edit_dropReader, lock_edit_dropReader, hlock]
    | addWriter =>
      obtain ⟨rfl, rfl⟩ := Prod.mk.inj (Option.some.inj hlocked)
      rw [lock_edit_addWriter, lock_edit_addWriter]
    | dropWriter =>
      obtain ⟨rfl, rfl⟩ := Prod.mk.inj (Option.some.inj hlocked)
      rw [lock_edit_dropWriter, lock_edit_dropWriter, hlock]
    | _ => cases hmoves

/-- An entry is that of one version. -/
theorem RegisteredAt.version_inj {q : Partition} {t : Txn} (h : w.RegisteredAt p txn i e)
    (h' : w.RegisteredAt q t i e) : q = p ∧ t = txn :=
  ⟨h'.1.2.symm.trans h.1.2, Txn.key?_inj h'.2 h.2⟩

/-- An entry that has a key is that of some version. -/
theorem Coherent.exists_registeredAt (h : w.Coherent) (hk : w (.key i e) ≠ 0) : ∃ p txn, w.RegisteredAt p txn i e := by
  refine ⟨Partition.ofWord (w (.partition i)), ⟨w (.key i e) - 1⟩, ⟨h.live_of_key hk, rfl⟩, ?_⟩
  have hlt := (w (.key i e)).toNat_lt
  have hmax : Txn.max.number.toNat = 2 ^ 64 - 2 := rfl
  have hle : w (.key i e) - 1 ≤ Txn.max.number := by
    rw [UInt64.le_iff_toNat_le, LockWord.toNat_sub_one hk, hmax]
    omega
  rw [Txn.key?_of_le hle]
  exact congrArg some (UInt64.sub_add_cancel ..)

section Found

variable (h : w.Coherent) (hat : w.RegisteredAt p txn i e)

include h hat

theorem Coherent.find_registered : w.find w.used p txn = .answer (some (i, e)) := by
  rw [find_of_key hat.2, (h.at?_eq_some_iff (Txn.ne_zero_of_key? hat.2)).mpr ⟨hat.1, rfl⟩]

theorem Coherent.findOrRegister_registered : w.findOrRegister w.used p txn = .answer (some (i, e)) := by
  rw [findOrRegister, h.slot?_eq_some_iff.mpr hat.1]
  dsimp only
  rw [withKey, hat.2]
  dsimp only
  rw [(h.entryWith?_eq_some_iff (Txn.ne_zero_of_key? hat.2)).mpr rfl]

/-- A lock operation on the version moves its lock or does nothing. -/
theorem Coherent.edits_of_lock (hc : c.lockOf? = some (p, txn)) :
    ∀ ed ∈ (c.plan w).2, ed.moves.isSome ∧ ed.locked = some (i, e) := by
  rcases BoardCall.lock_kinds hc with ⟨mode, rfl⟩ | ⟨mode, rfl⟩
  · show ∀ ed ∈ ((mode.acquire p txn).plan w w.used).2, _
    rcases mode.acquire_cases w w.used p txn with ⟨o, hplan, -⟩ | ⟨j, d, hfound, -, hplan⟩ <;>
      rw [hplan, h.findOrRegister_registered hat]
    · exact List.forall_mem_nil _
    · rw [h.findOrRegister_registered hat] at hfound
      obtain ⟨rfl, rfl⟩ := Prod.mk.inj (Option.some.inj (Except.ok.inj hfound))
      intro ed hed
      rw [List.mem_singleton.mp hed, mode.moves_gain, mode.locked_gain]
      exact ⟨rfl, rfl⟩
  · show ∀ ed ∈ ((mode.release p txn).plan w w.used).2, _
    rcases mode.release_cases w w.used p txn with ⟨x, hplan, -⟩ | ⟨j, d, hfound, -, hplan⟩ <;> rw [hplan]
    · exact List.forall_mem_nil _
    · rw [h.find_registered hat] at hfound
      obtain ⟨rfl, rfl⟩ := Prod.mk.inj (Option.some.inj (Except.ok.inj hfound))
      intro ed hed
      rw [List.mem_singleton.mp hed, mode.moves_lose, mode.locked_lose]
      exact ⟨rfl, rfl⟩

/-- What it does depends on nothing but the lock word of the version. -/
theorem Coherent.plan_lock_congr (hu : u.Coherent) (hat' : u.RegisteredAt p txn i e)
    (hlock : u (.lock i e) = w (.lock i e)) (hc : c.lockOf? = some (p, txn)) : c.plan u = c.plan w := by
  have hfound := (hu.find_registered hat').trans (h.find_registered hat).symm
  have hfound' := (hu.findOrRegister_registered hat').trans (h.findOrRegister_registered hat).symm
  have hanswer := h.find_registered hat
  have hanswer' := h.findOrRegister_registered hat
  rcases BoardCall.lock_kinds hc with ⟨_ | _, rfl⟩ | ⟨_ | _, rfl⟩
  · simp only [BoardCall.plan, LockMode.acquire, TableCall.plan, acquireRead, hfound', hanswer', Plan.andThen,
      Plan.answer, hlock]
  · simp only [BoardCall.plan, LockMode.acquire, TableCall.plan, acquireWrite, hfound', hanswer', Plan.andThen,
      Plan.answer, hlock]
  · simp only [BoardCall.plan, LockMode.release, TableCall.plan, releaseRead, hfound, hanswer, Plan.andThen,
      Plan.answer, hlock]
  · simp only [BoardCall.plan, LockMode.release, TableCall.plan, releaseWrite, hfound, hanswer, Plan.andThen,
      Plan.answer, hlock]

end Found

end Words

/-! ### Calls in a row -/

/-- The call is a lock operation on a version that is registered. -/
def BoardCall.Locks (w : Words) (c : BoardCall) : Prop := ∃ p txn, c.lockOf? = some (p, txn) ∧ w.Registered p txn

/-- What a dialogue says about the locks of a version. -/
def onVersion (p : Partition) (txn : Txn) (l : List (BoardCall × Except Halt Answer)) :
    List (BoardCall × Except Halt Answer) :=
  l.filter (·.1.lockOf? = some (p, txn))

/-- If all calls are about versions that are registered, nothing is said about any other. -/
theorem onVersion_eq_nil {w : Words} {l : List (BoardCall × Except Halt Answer)}
    (hl : ∀ c ∈ l.map Prod.fst, c.Locks w) (hreg : ¬ w.Registered p txn) : onVersion p txn l = [] := by
  refine List.filter_eq_nil_iff.mpr fun x hx hlock => hreg ?_
  obtain ⟨q, t, hlock', hreg'⟩ := hl x.1 (List.mem_map_of_mem hx)
  obtain ⟨rfl, rfl⟩ := Prod.mk.inj (Option.some.inj (hlock'.symm.trans (of_decide_eq_true hlock)))
  exact hreg'

theorem map_fst_onVersion (p : Partition) (txn : Txn) (l : List (BoardCall × Except Halt Answer)) :
    (onVersion p txn l).map Prod.fst = (l.map Prod.fst).filter (·.lockOf? = some (p, txn)) := by
  simp [onVersion, List.filter_map, Function.comp_def]

namespace Words

variable {w u : Words} {i : Nat} {e : EntryIndex} {c : BoardCall} {cs ds : List BoardCall}

theorem SameVersions.locks (h : w.SameVersions u) (hc : c.Locks w) : c.Locks u := by
  obtain ⟨p, txn, hlock, hreg⟩ := hc
  exact ⟨p, txn, hlock, h.registered hreg⟩

namespace Coherent

/-- A lock operation leaves the versions as they are. -/
theorem sameVersions_tell (h : w.Coherent) (hc : c.Locks w) : w.SameVersions (w.tell c) := by
  obtain ⟨p, txn, hlock, i, e, hat⟩ := hc
  exact .edits w fun ed hed => (h.edits_of_lock hat hlock ed hed).1

theorem sameVersions_tellAll (h : w.Coherent) (hcs : ∀ c ∈ cs, c.Locks w) : w.SameVersions (w.tellAll cs) := by
  induction cs generalizing w with
  | nil => exact .refl w
  | cons c cs ih =>
    have hfirst := h.sameVersions_tell (hcs c List.mem_cons_self)
    exact hfirst.trans (ih (h.tell c) fun d hd => hfirst.locks (hcs d (List.mem_cons_of_mem _ hd)))

/-- Another version's lock word stays. -/
theorem lock_tell_of_ne (h : w.Coherent) (hat : w.RegisteredAt p txn i e) (hc : c.Locks w)
    (hne : c.lockOf? ≠ some (p, txn)) : w.tell c (.lock i e) = w (.lock i e) := by
  obtain ⟨q, t, hlock, j, d, hat'⟩ := hc
  refine lock_edits_of_ne fun ed hed hlocked => hne ?_
  obtain ⟨rfl, rfl⟩ := Prod.mk.inj (Option.some.inj ((h.edits_of_lock hat' hlock ed hed).2.symm.trans hlocked))
  obtain ⟨rfl, rfl⟩ := hat.version_inj hat'
  exact hlock

/-- The version's own lock word changes in the same way wherever it was the same. -/
theorem lock_tell_congr (h : w.Coherent) (hu : u.Coherent) (hat : w.RegisteredAt p txn i e)
    (hat' : u.RegisteredAt p txn i e) (hlock : u (.lock i e) = w (.lock i e)) (hc : c.lockOf? = some (p, txn)) :
    u.tell c (.lock i e) = w.tell c (.lock i e) := by
  rw [Words.tell, Words.tell, h.plan_lock_congr hat hu hat' hlock hc]
  exact lock_edits_congr (h.edits_of_lock hat hc) hlock

end Coherent

/-- What is said about a version, and what becomes of its lock word, is what would be if nobody asked for another
version. -/
theorem onVersion_dialogue (hw : w.Coherent) (hu : u.Coherent) (hsame : w.SameVersions u)
    (hat : w.RegisteredAt p txn i e) (hlock : u (.lock i e) = w (.lock i e)) (hcs : ∀ c ∈ cs, c.Locks w) :
    onVersion p txn (w.dialogue cs) = u.dialogue (cs.filter (·.lockOf? = some (p, txn))) ∧
      w.tellAll cs (.lock i e) = u.tellAll (cs.filter (·.lockOf? = some (p, txn))) (.lock i e) := by
  induction cs generalizing w u with
  | nil => exact ⟨rfl, hlock.symm⟩
  | cons c cs ih =>
    have hc := hcs c List.mem_cons_self
    have hfirst := hw.sameVersions_tell hc
    have hrest : ∀ d ∈ cs, d.Locks (w.tell c) := fun d hd => hfirst.locks (hcs d (List.mem_cons_of_mem _ hd))
    by_cases hmine : c.lockOf? = some (p, txn)
    · have hat' := hsame.registeredAt hat
      have hplan := hw.plan_lock_congr hat hu hat' hlock hmine
      have hafter := hw.lock_tell_congr hu hat hat' hlock hmine
      have hsame' := hfirst.symm.trans (hsame.trans (hu.sameVersions_tell (hsame.locks hc)))
      obtain ⟨hdialogue, hlast⟩ := ih (hw.tell c) (hu.tell c) hsame' (hfirst.registeredAt hat) hafter hrest
      rw [List.filter_cons_of_pos (by simpa using hmine), dialogue, dialogue, hplan, ← hdialogue]
      exact ⟨List.filter_cons_of_pos (by simpa using hmine), hlast⟩
    · have hafter := hw.lock_tell_of_ne hat hc hmine
      obtain ⟨hdialogue, hlast⟩ := ih (hw.tell c) hu (hfirst.symm.trans hsame) (hfirst.registeredAt hat)
        (hlock.trans hafter.symm) hrest
      rw [List.filter_cons_of_neg (by simpa using hmine)]
      exact ⟨(List.filter_cons_of_neg (by simpa using hmine)).trans hdialogue, hlast⟩

/-- So in two dialogues with the same calls about a version these get the same answers, and come to the same lock
word. -/
theorem Coherent.onVersion_congr (hw : w.Coherent) (hat : w.RegisteredAt p txn i e) (hcs : ∀ c ∈ cs, c.Locks w)
    (hds : ∀ d ∈ ds, d.Locks w)
    (hcalls : ds.filter (·.lockOf? = some (p, txn)) = cs.filter (·.lockOf? = some (p, txn))) :
    onVersion p txn (w.dialogue ds) = onVersion p txn (w.dialogue cs) ∧
      w.tellAll ds (.lock i e) = w.tellAll cs (.lock i e) := by
  obtain ⟨hdialogue, hlast⟩ := onVersion_dialogue hw hw (.refl w) hat rfl hcs
  obtain ⟨hdialogue', hlast'⟩ := onVersion_dialogue hw hw (.refl w) hat rfl hds
  rw [hdialogue, hlast, ← hcalls]
  exact ⟨hdialogue', hlast'⟩

/-- Tables with the same versions are the same if every version has the same lock word: a free entry has none, and the
read locks are counted. -/
theorem Calm.eq_of_locks (hw : w.Calm) (hu : u.Calm) (hsame : w.SameVersions u)
    (hlock : ∀ i e, w (.key i e) ≠ 0 → u (.lock i e) = w (.lock i e)) : u = w := by
  have hlocks : ∀ i e, u (.lock i e) = w (.lock i e) := by
    intro i e
    by_cases hk : w (.key i e) = 0
    · rw [hw.idle i e hk, hu.idle i e ((hsame.key i e).trans hk)]
    · exact hlock i e hk
  have htotal : u.readerTotal = w.readerTotal := by
    simp only [readerTotal, heldAt, hsame.used_eq, hsame.key, hlocks]
  funext c
  by_cases hc : c.IsHold
  · rcases hc with rfl | ⟨i, e, rfl⟩
    · rw [← UInt64.toNat_inj, hu.tallied, hw.tallied, htotal]
    · exact hlocks i e
  · exact hsame c hc

end Words

/-! ### Files -/

namespace Image

variable {f g : Image} {c : BoardCall} {cs : List BoardCall}

/-- No call writes outside of words. -/
theorem byte_tellAll_of_no_cell (f : Image) (cs : List BoardCall) {b : Nat}
    (hb : ∀ c : Cell, b < c.offset ∨ c.offset + 8 ≤ b) : (f.tellAll cs).byte b = f.byte b := by
  induction cs generalizing f with
  | nil => rfl
  | cons c cs ih =>
    refine (ih (f.tell c)).trans ?_
    rw [tell, byte_edits_of_no_cell _ _ hb, byte_grow]

/-- A call without a structural change needs no more than the file has. -/
theorem tell_table (hfits : sizeFor f.cells.used ≤ f.size) (c : TableCall) :
    (f.tell (.table c)).size = f.size ∧ (f.tell (.table c)).cells = f.cells.tell (.table c) := by
  have hneed : Board.need f.cells (.table c) = sizeFor f.cells.used := rfl
  have htell : f.tell (.table c) = f.edits (c.plan f.cells f.cells.used).2 := by
    rw [tell, hneed, Region.roomFor_of_le hfits, grow_of_le (Nat.le_refl _)]
    rfl
  have hholds : ∀ ed ∈ (c.plan f.cells f.cells.used).2, f.Holds ed.slot := fun ed hed =>
    Nat.le_trans (sizeFor_mono (TableCall.slot_of_mem_plan hed)) hfits
  rw [htell, size_edits, cells_edits hholds]
  exact ⟨rfl, rfl⟩

/-- Lock operations leave the file as long as it is. -/
theorem size_tellAll_of_locks (h : f.cells.Coherent) (hfits : sizeFor f.cells.used ≤ f.size)
    (hcs : ∀ c ∈ cs, c.Locks f.cells) : (f.tellAll cs).size = f.size := by
  induction cs generalizing f with
  | nil => rfl
  | cons c cs ih =>
    have hc := hcs c List.mem_cons_self
    have hsame := h.sameVersions_tell hc
    obtain ⟨hsize, hcells⟩ : (f.tell c).size = f.size ∧ (f.tell c).cells = f.cells.tell c := by
      obtain ⟨p, txn, hlock, -⟩ := hc
      cases c with
      | table c => exact tell_table hfits c
      | _ => cases hlock
    refine (ih ?_ ?_ fun d hd => ?_).trans hsize
    · rw [hcells]
      exact h.tell c
    · rw [hcells, hsame.used_eq, hsize]
      exact hfits
    · rw [hcells]
      exact hsame.locks (hcs d (List.mem_cons_of_mem _ hd))

end Image

/-! ### Two runs -/

namespace Shared

variable {s t : Shared} {f : Image} {rs ts : List Request}

theorem Serves.calm (hs : s.Serves f) : f.cells.Calm := ⟨hs.sound.table, hs.sound.idle⟩

/-- In two runs on the same file, with lock operations on registered versions only and with the same ones on each
version, every operation gets the same answer, and the runs end with the same bytes. The versions stay as they are. -/
theorem locks_commute [Processor] (hs : s.Reached) (ht : t.Reached) (hsf : s.file? = some f)
    (htf : t.file? = some f) (hsw : s.Willing) (htw : t.Willing) (hrs : ∀ r ∈ rs, r.Trackable ∧ r.Willing)
    (hts : ∀ r ∈ ts, r.Trackable ∧ r.Willing) (hlocks : ∀ c ∈ (s.dialogue rs).map Prod.fst, c.Locks f.cells)
    (hlocks' : ∀ c ∈ (t.dialogue ts).map Prod.fst, c.Locks f.cells)
    (hcalls : ∀ p txn,
      (onVersion p txn (t.dialogue ts)).map Prod.fst = (onVersion p txn (s.dialogue rs)).map Prod.fst) :
    (∀ p txn, onVersion p txn (t.dialogue ts) = onVersion p txn (s.dialogue rs)) ∧
      ∃ g, (s.run rs).2.file? = some g ∧ (t.run ts).2.file? = some g ∧ g.size = f.size ∧
        f.cells.SameVersions g.cells := by
  obtain ⟨f₁, hs₁⟩ := hs.serves hsw
  obtain ⟨f₂, ht₁⟩ := ht.serves htw
  obtain rfl : f₁ = f := (Option.some.inj (hs₁.opened.file.symm.trans hsf))
  obtain rfl : f₂ = f₁ := (Option.some.inj (ht₁.opened.file.symm.trans htf))
  have hcoherent := hs₁.sound.table
  obtain ⟨hdialogue, hserves, hcells⟩ := hs₁.run hrs
  obtain ⟨hdialogue', hserves', hcells'⟩ := ht₁.run hts
  simp only [map_fst_onVersion] at hcalls
  have hsame := hcoherent.sameVersions_tellAll hlocks
  have hsame' := hcoherent.sameVersions_tellAll hlocks'
  refine ⟨fun p txn => ?_, _, hserves.opened.file, ?_, ?_, ?_⟩
  · by_cases hreg : f₂.cells.Registered p txn
    · obtain ⟨i, e, hat⟩ := hreg
      rw [hdialogue, hdialogue']
      exact (hcoherent.onVersion_congr hat hlocks hlocks' (hcalls p txn)).1
    · rw [onVersion_eq_nil hlocks hreg, onVersion_eq_nil hlocks' hreg]
  · rw [hserves'.opened.file]
    refine congrArg some (Image.ext_cells ?_ ?_ fun b hb => ?_)
    · rw [Image.size_tellAll_of_locks hcoherent hs₁.sound.fits hlocks,
        Image.size_tellAll_of_locks hcoherent hs₁.sound.fits hlocks']
    · refine Words.Calm.eq_of_locks hserves.calm hserves'.calm ?_ fun i e hk => ?_
      · rw [hcells, hcells']
        exact hsame.symm.trans hsame'
      · rw [hcells] at hk ⊢
        rw [hsame.key] at hk
        obtain ⟨p, txn, hat⟩ := hcoherent.exists_registeredAt hk
        rw [hcells']
        exact (hcoherent.onVersion_congr hat hlocks hlocks' (hcalls p txn)).2
    · rw [Image.byte_tellAll_of_no_cell f₂ _ hb, Image.byte_tellAll_of_no_cell f₂ _ hb]
  · exact Image.size_tellAll_of_locks hcoherent hs₁.sound.fits hlocks
  · rw [hcells]
    exact hsame

/-- Two versions of one partition and one of another, for which a reader is admitted and refused, and readers leave that
are not there; once through one handle and once through two, in another order. -/
theorem locks_commute_of_three_versions :
    let add (p : Int64) (t : UInt64) : Request := .call "a" (.add ⟨p⟩ ⟨t⟩)
    let lock (name : String) (c : TableCall) : Request := .call name (.table c)
    let s : Shared := (run {} [.openBoard "a" "board" .willing (Config.default.withPolicy .day), add 5 7, add 5 8,
      add 1 7, .drop "a"]).2
    let first : List Request := [.openBoard "a" "board" .willing .default, lock "a" (.acquireRead ⟨5⟩ ⟨7⟩),
      lock "a" (.acquireWrite ⟨5⟩ ⟨8⟩), lock "a" (.acquireRead ⟨5⟩ ⟨8⟩), lock "a" (.releaseRead ⟨1⟩ ⟨7⟩),
      lock "a" (.acquireRead ⟨1⟩ ⟨7⟩)]
    let second : List Request := [.openBoard "b" "board" .willing .default, lock "b" (.releaseRead ⟨1⟩ ⟨7⟩),
      lock "b" (.acquireWrite ⟨5⟩ ⟨8⟩), .openBoard "c" "board" .willing .default, lock "c" (.acquireRead ⟨1⟩ ⟨7⟩),
      lock "c" (.acquireRead ⟨5⟩ ⟨8⟩), lock "b" (.acquireRead ⟨5⟩ ⟨7⟩)]
    (s.dialogue first).map Prod.snd = [.ok (.flag true), .ok (.flag true), .ok (.flag false),
        .error (.violated (.unmatchedRelease ⟨1⟩ ⟨7⟩)), .ok (.flag true)] ∧
      (∀ p txn, onVersion p txn (s.dialogue second) = onVersion p txn (s.dialogue first)) ∧
      (s.run second).2.file? = (s.run first).2.file? := by
  intro add lock s first second
  have hkeys : (∀ r ∈ first, r.Trackable) ∧ ∀ r ∈ second, r.Trackable := by decide
  have hwilling : (∀ r ∈ first, r.Willing) ∧ ∀ r ∈ second, r.Willing := by
    simp [first, second, lock, Request.Willing, Host.willing_willing]
  have hreached : s.Reached := ⟨{}, _, fresh_empty, by decide, by decide +kernel, rfl⟩
  have hhandles : s.handles.length = 0 := by decide +kernel
  have hs : s.Willing := by
    intro name h hget
    rw [List.eq_nil_of_length_eq_zero hhandles] at hget
    cases hget
  obtain ⟨f, hf, -⟩ := hreached.sound
  have hfirst : (s.dialogue first).map Prod.fst = [.table (.acquireRead ⟨5⟩ ⟨7⟩), .table (.acquireWrite ⟨5⟩ ⟨8⟩),
      .table (.acquireRead ⟨5⟩ ⟨8⟩), .table (.releaseRead ⟨1⟩ ⟨7⟩), .table (.acquireRead ⟨1⟩ ⟨7⟩)] := by decide +kernel
  have hsecond : (s.dialogue second).map Prod.fst = [.table (.releaseRead ⟨1⟩ ⟨7⟩), .table (.acquireWrite ⟨5⟩ ⟨8⟩),
      .table (.acquireRead ⟨1⟩ ⟨7⟩), .table (.acquireRead ⟨5⟩ ⟨8⟩), .table (.acquireRead ⟨5⟩ ⟨7⟩)] := by decide +kernel
  have hcalls : ∀ p txn,
      (onVersion p txn (s.dialogue second)).map Prod.fst = (onVersion p txn (s.dialogue first)).map Prod.fst := by
    intro p txn
    simp only [map_fst_onVersion, hfirst, hsecond, List.filter_cons, List.filter_nil, BoardCall.lockOf?,
      TableCall.lockOf?]
    clear hfirst hsecond
    grind
  have hentries : ∀ f ∈ s.file?, f.cells.RegisteredAt ⟨5⟩ ⟨7⟩ 0 ⟨0, by decide⟩ ∧
      f.cells.RegisteredAt ⟨5⟩ ⟨8⟩ 0 ⟨1, by decide⟩ ∧ f.cells.RegisteredAt ⟨1⟩ ⟨7⟩ 1 ⟨0, by decide⟩ := by
    decide +kernel
  obtain ⟨h57, h58, h17⟩ := hentries _ hf.file
  have hlocks : ∀ c ∈ (s.dialogue first).map Prod.fst, c.Locks f.cells := by
    rw [hfirst]
    simpa using ⟨⟨_, _, rfl, _, _, h57⟩, ⟨_, _, rfl, _, _, h58⟩, ⟨_, _, rfl, _, _, h58⟩, ⟨_, _, rfl, _, _, h17⟩,
      ⟨_, _, rfl, _, _, h17⟩⟩
  have hlocks' : ∀ c ∈ (s.dialogue second).map Prod.fst, c.Locks f.cells := by
    rw [hsecond]
    simpa using ⟨⟨_, _, rfl, _, _, h17⟩, ⟨_, _, rfl, _, _, h58⟩, ⟨_, _, rfl, _, _, h17⟩, ⟨_, _, rfl, _, _, h58⟩,
      ⟨_, _, rfl, _, _, h57⟩⟩
  obtain ⟨hsame, g, hg, hg', -⟩ := locks_commute hreached hreached hf.file hf.file hs hs
    (fun r hr => ⟨hkeys.1 r hr, hwilling.1 r hr⟩) (fun r hr => ⟨hkeys.2 r hr, hwilling.2 r hr⟩) hlocks hlocks' hcalls
  exact ⟨by decide +kernel, hsame, hg'.trans hg.symm⟩

end Shared

end VersionBoard
