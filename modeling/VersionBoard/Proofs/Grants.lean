import VersionBoard.Proofs.Seats

/-!
# When a lock is granted

Between whole calls a request for a lock has one of four outcomes, and the table
says which. It is refused if the partition is not tracked or somebody is in the
way; it fails if the version is new and its slot is crowded; it is a violation if
there are as many readers as can be counted; and else it is granted
(`LockMode.Decides`). Whoever is granted a lock finds the version in its entry or
gets it a seat, and adds one holder; nothing else changes, and without a grant
nothing at all (`Shared.acquire_exact`).
-/

namespace VersionBoard

variable {p : Partition} {txn : Txn} {i : Nat} {e : EntryIndex}

/-! ### Lock words -/

namespace LockWord

variable {u : LockWord}

/-- A reader is refused by a writer, or there are too many already, or it is added. -/
theorem Proper.addReader_cases (h : Proper u) :
    (hasWriter u = true ∧ addReader u = .writer) ∨ ((readers u).toNat = 2 ^ 48 - 1 ∧ addReader u = .overflow) ∨
      hasWriter u = false ∧ (readers u).toNat ≠ 2 ^ 48 - 1 ∧ addReader u = .added (u + 1) := by
  have hmask : readerMask.toNat = 2 ^ 48 - 1 := rfl
  have hlt : (readers u).toNat < 2 ^ 48 := by
    rw [toNat_readers]
    omega
  rw [addReader, h.isReserved, if_neg Bool.false_ne_true]
  cases hwriter : hasWriter u with
  | true => exact .inl ⟨rfl, if_pos rfl⟩
  | false =>
    rw [if_neg Bool.false_ne_true]
    split_ifs with hroom <;> rw [UInt64.lt_iff_toNat_lt, hmask] at hroom
    · exact .inr (.inr ⟨rfl, by omega, rfl⟩)
    · exact .inr (.inl ⟨by omega, rfl⟩)

/-- A writer is refused by whoever holds the version, or it is added. -/
theorem Proper.addWriter_cases (h : Proper u) :
    (InUse u ∧ addWriter u = .busy) ∨ ¬ InUse u ∧ addWriter u = .acquired writeBit := by
  rw [addWriter, h.isReserved, h.inUse_iff]
  by_cases hzero : u = 0
  · exact .inr ⟨not_not.mpr hzero, if_pos hzero⟩
  · exact .inl ⟨hzero, if_neg hzero⟩

end LockWord

namespace LockMode

/-- Who holds the version is in the way of one more holder. -/
def Bars : LockMode → LockWord → Prop
  | read, u => LockWord.hasWriter u = true
  | write, u => LockWord.InUse u

/-- There are as many holders as can be counted. -/
def Overflows : LockMode → LockWord → Prop
  | read, u => (LockWord.readers u).toNat = 2 ^ 48 - 1
  | write, _ => False

variable (mode : LockMode)

theorem not_bars_zero : ¬ mode.Bars 0 := by
  cases mode <;> simp [Bars, LockWord.hasWriter_zero, LockWord.not_inUse_zero]

theorem not_overflows_zero : ¬ mode.Overflows 0 := by
  cases mode <;> simp [Overflows, LockWord.readers_zero]

/-- A writer is not one of too many readers. -/
theorem not_overflows_of_bars {u : LockWord} (h : LockWord.Proper u) (hbars : mode.Bars u) : ¬ mode.Overflows u := by
  cases mode with
  | read =>
    rw [Bars, h.hasWriter_iff] at hbars
    subst hbars
    simp [Overflows, LockWord.readers, LockWord.writeBit, LockWord.readerMask]
  | write => exact id

/-- The words once the version in entry `e` of slot `i` has one holder more. -/
def grant (w : Words) (i : Nat) (e : EntryIndex) : LockMode → Words
  | read => (w.set (.lock i e) (w (.lock i e) + 1)).set .readLocks (w .readLocks + 1)
  | write => w.set (.lock i e) LockWord.writeBit

theorem edit_gain (w : Words) (i : Nat) (e : EntryIndex) : w.edit (mode.gain i e) = mode.grant w i e := by
  cases mode <;> rfl

/-- A version keeps its entry when it gets a holder. -/
theorem registeredAt_grant {w : Words} (h : w.RegisteredAt p txn i e) : (mode.grant w i e).RegisteredAt p txn i e := by
  cases mode <;> exact h

/-- A proper lock word that nobody bars and that can count on has one holder more. -/
theorem held_grant {w : Words} (h : LockWord.Proper (w (.lock i e))) (hbars : ¬ mode.Bars (w (.lock i e)))
    (hoverflows : ¬ mode.Overflows (w (.lock i e))) :
    LockWord.held mode (mode.grant w i e (.lock i e)) = LockWord.held mode (w (.lock i e)) + 1 := by
  cases mode with
  | read =>
    rcases h.addReader_cases with ⟨hwriter, -⟩ | ⟨hfull, -⟩ | ⟨-, -, hadded⟩
    · exact absurd hwriter hbars
    · exact absurd hfull hoverflows
    · have hlock : read.grant w i e (.lock i e) = w (.lock i e) + 1 := by simp [grant, Words.set_apply]
      rw [hlock, LockWord.held, LockWord.held, h.readers_add_one hadded]
  | write =>
    have hlock : write.grant w i e (.lock i e) = LockWord.writeBit := by simp [grant]
    have hzero : w (.lock i e) = 0 := not_not.mp fun hne => hbars (h.inUse_iff.mpr hne)
    rw [hlock, hzero]
    decide

/-! ### Plans -/

variable {w : Words} {v : Nat}

theorem acquire_of_none (h : w.findOrRegister v p txn = .answer none) :
    (mode.acquire p txn).plan w v = .answer (.flag false) := by
  cases mode <;>
    simp [acquire, TableCall.plan, Words.acquireRead, Words.acquireWrite, h, Plan.map, Plan.andThen, Plan.answer, Except.map]

theorem acquire_of_stop {x : Halt} (h : w.findOrRegister v p txn = .stop x) :
    (mode.acquire p txn).plan w v = .stop x := by
  cases mode <;>
    simp [acquire, TableCall.plan, Words.acquireRead, Words.acquireWrite, h, Plan.map, Plan.andThen, Plan.stop, Except.map]

/-- Once the version has an entry, its lock word decides. -/
theorem acquire_of_some (h : (w.findOrRegister v p txn).1 = .ok (some (i, e))) (hproper : LockWord.Proper (w (.lock i e))) :
    (mode.Bars (w (.lock i e)) ∧
        (mode.acquire p txn).plan w v = (.ok (.flag false), (w.findOrRegister v p txn).2)) ∨
      (mode.Overflows (w (.lock i e)) ∧
        (mode.acquire p txn).plan w v = (.error (.violated .readerOverflow), (w.findOrRegister v p txn).2)) ∨
      ¬ mode.Bars (w (.lock i e)) ∧ ¬ mode.Overflows (w (.lock i e)) ∧
        (mode.acquire p txn).plan w v = (.ok (.flag true), (w.findOrRegister v p txn).2 ++ [mode.gain i e]) := by
  cases mode with
  | read =>
    have hplan : (read.acquire p txn).plan w v = (w.acquireRead v p txn).map .flag := rfl
    rcases hproper.addReader_cases with ⟨hwriter, hadd⟩ | ⟨hfull, hadd⟩ | ⟨hwriter, hfull, hadd⟩ <;>
      simp only [hplan, Words.acquireRead, Plan.andThen, h, hadd, Plan.map, Plan.answer, Plan.stop, Except.map,
        List.append_nil]
    · exact .inl ⟨hwriter, trivial⟩
    · exact .inr (.inl ⟨hfull, trivial⟩)
    · exact .inr (.inr ⟨by simp [Bars, hwriter], hfull, rfl⟩)
  | write =>
    have hplan : (write.acquire p txn).plan w v = (w.acquireWrite v p txn).map .flag := rfl
    rcases hproper.addWriter_cases with ⟨huse, hadd⟩ | ⟨huse, hadd⟩ <;>
      simp only [hplan, Words.acquireWrite, Plan.andThen, h, hadd, Plan.map, Plan.answer, Except.map, List.append_nil]
    · exact .inl ⟨huse, trivial⟩
    · exact .inr (.inr ⟨huse, id, rfl⟩)

end LockMode

/-! ### The entry of a version -/

namespace Words

variable {w u : Words}

/-- Entry `e` of slot `i` is the version's or becomes so, and `u` are the words once it is. -/
inductive Houses (w : Words) (p : Partition) (txn : Txn) (i : Nat) (e : EntryIndex) : Words → Prop
  /-- The version is registered there. -/
  | known (hat : w.RegisteredAt p txn i e) : w.Houses p txn i e w
  /-- The version is new and gets its seat. -/
  | fresh {u : Words} (hseats : w.Seats p txn i e u) : w.Houses p txn i e u

theorem not_exists_lock (hnew : ¬ w.Registered p txn) {P : LockWord → Prop} :
    ¬ ∃ j d, w.RegisteredAt p txn j d ∧ P (w (.lock j d)) := by
  rintro ⟨j, d, hat, -⟩
  exact hnew ⟨j, d, hat⟩

namespace Houses

theorem tracks (h : w.Houses p txn i e u) : w.Tracks i p := by
  cases h with
  | known hat => exact hat.1
  | fresh hseats => exact hseats.tracks

theorem registeredAt (h : w.Houses p txn i e u) (htxn : txn.number ≤ Txn.max.number) : u.RegisteredAt p txn i e := by
  cases h with
  | known hat => exact hat
  | fresh hseats => exact hseats.registeredAt htxn

theorem lock_eq (h : w.Houses p txn i e u) : u (.lock i e) = w (.lock i e) := by
  cases h with
  | known => rfl
  | fresh hseats => exact hseats.lock_eq i e

theorem not_crowded (h : w.Houses p txn i e u) (hw : w.Calm) : ¬ w.Crowded p txn := by
  cases h with
  | known hat => exact fun hcrowded => hcrowded.1 ⟨i, e, hat⟩
  | fresh hseats => exact hseats.not_crowded hw

/-- What does not hold of the lock word there holds of no lock word of the version. -/
theorem not_exists_lock (h : w.Houses p txn i e u) (hw : w.Coherent) {P : LockWord → Prop} (hP : ¬ P (w (.lock i e))) :
    ¬ ∃ j d, w.RegisteredAt p txn j d ∧ P (w (.lock j d)) := by
  cases h with
  | known hat =>
    rintro ⟨j, d, hat', hP'⟩
    obtain ⟨rfl, rfl⟩ := hw.registeredAt_unique hat hat'
    exact hP hP'
  | fresh hseats => exact Words.not_exists_lock hseats.unregistered

/-- A version whose lock word is not zero was registered before. -/
theorem eq_of_lock_ne_zero (h : w.Houses p txn i e u) (hw : w.Calm) (hlock : w (.lock i e) ≠ 0) :
    u = w ∧ w.RegisteredAt p txn i e := by
  cases h with
  | known hat => exact ⟨rfl, hat⟩
  | fresh hseats => exact absurd (hseats.lock_eq_zero hw) hlock

end Houses

/-- The partition is not tracked, or the slot is crowded, or the version is housed. -/
theorem Calm.findOrRegister_cases (h : w.Calm) (htxn : txn.number ≤ Txn.max.number) :
    ((∀ i, ¬ w.Tracks i p) ∧ w.findOrRegister w.used p txn = .answer none) ∨
      (w.Crowded p txn ∧
        w.findOrRegister w.used p txn = .stop (.failed (.versionsExhausted p entriesPerSlot))) ∨
      ∃ i e u, w.Houses p txn i e u ∧ (w.findOrRegister w.used p txn).1 = .ok (some (i, e)) ∧
        w.edits (w.findOrRegister w.used p txn).2 = u := by
  by_cases hp : ∃ i, w.Tracks i p
  · obtain ⟨i, hi⟩ := hp
    right
    by_cases hreg : w.Registered p txn
    · obtain ⟨j, e, hat⟩ := hreg
      rw [h.findOrRegister_registered hat]
      exact .inr ⟨j, e, w, .known hat, rfl, rfl⟩
    · have hk := Txn.key?_of_le htxn
      have hfind : w.findOrRegister w.used p txn = (w.claim i p (txn.number + 1)).map fun e => some (i, e) := by
        simp only [findOrRegister, h.slot?_eq_some_iff.mpr hi, withKey, hk, entryWith?_eq_none hi hreg hk]
      rw [hfind]
      rcases h.claim_cases hi hreg with ⟨e, u, hseats, hok, hedits⟩ | ⟨hcrowded, hstop⟩
      · exact .inr ⟨i, e, u, .fresh hseats, by rw [Plan.map, hok]; rfl, hedits⟩
      · exact .inl ⟨hcrowded, by rw [hstop]; rfl⟩
  · have hnone := not_exists.mp hp
    refine .inl ⟨hnone, ?_⟩
    rw [findOrRegister, slot?_eq_none_iff.mpr fun i _ => hnone i]

end Words

/-! ### Decisions -/

/-- What a request for a lock comes to: the outcome `o`, and the words `v` where there were `w`. -/
structure LockMode.Decides (mode : LockMode) (p : Partition) (txn : Txn) (w : Words) (o : Except Halt Answer) (v : Words) :
    Prop where
  /-- It is refused just if the partition is not tracked or somebody is in the way. -/
  refused : o = .ok (.flag false) ↔
    (∀ i, ¬ w.Tracks i p) ∨ ∃ i e, w.RegisteredAt p txn i e ∧ mode.Bars (w (.lock i e))
  /-- It fails just if the version is new and there is no place for it. -/
  exhausted : o = .error (.failed (.versionsExhausted p entriesPerSlot)) ↔ w.Crowded p txn
  /-- It is a violation just if no more readers can be counted. -/
  overflowed : o = .error (.violated .readerOverflow) ↔
    ∃ i e, w.RegisteredAt p txn i e ∧ mode.Overflows (w (.lock i e))
  /-- These are all outcomes without a grant, and they change nothing. -/
  unchanged : o ≠ .ok (.flag true) →
    v = w ∧ o ∈ [.ok (.flag false), .error (.failed (.versionsExhausted p entriesPerSlot)),
      .error (.violated .readerOverflow)]
  /-- A grant registers the version if it is new, and adds a holder. -/
  granted : o = .ok (.flag true) → ∃ i e u, w.Houses p txn i e u ∧ v = mode.grant u i e ∧ v.RegisteredAt p txn i e ∧
    LockWord.held mode (v (.lock i e)) = LockWord.held mode (w (.lock i e)) + 1

/-- For a version that is housed, the lock word decides. -/
theorem LockMode.decides_of_houses (mode : LockMode) {w u : Words} (hw : w.Calm) (htxn : txn.number ≤ Txn.max.number)
    (hhouses : w.Houses p txn i e u) (hfound : (w.findOrRegister w.used p txn).1 = .ok (some (i, e)))
    (hedits : w.edits (w.findOrRegister w.used p txn).2 = u) :
    mode.Decides p txn w ((mode.acquire p txn).plan w w.used).1 (w.edits ((mode.acquire p txn).plan w w.used).2) := by
  have hproper := Words.proper_lock hw.toCoherent hw.idle i e
  have hcrowded := hhouses.not_crowded hw
  have htracked : ¬ ∀ i, ¬ w.Tracks i p := fun hnone => hnone i hhouses.tracks
  rcases mode.acquire_of_some hfound hproper with ⟨hbars, hplan⟩ | ⟨hoverflows, hplan⟩ | ⟨hbars, hoverflows, hplan⟩
  · have hlock : w (.lock i e) ≠ 0 := fun hzero => mode.not_bars_zero (hzero ▸ hbars)
    have hoverflows := mode.not_overflows_of_bars hproper hbars
    obtain ⟨rfl, hat⟩ := hhouses.eq_of_lock_ne_zero hw hlock
    rw [hplan, hedits]
    exact {
      refused := iff_of_true rfl (.inr ⟨i, e, hat, hbars⟩)
      exhausted := iff_of_false (by simp) hcrowded
      overflowed := iff_of_false (by simp) (hhouses.not_exists_lock hw.toCoherent hoverflows)
      unchanged := fun _ => ⟨rfl, by simp⟩
      granted := by simp }
  · have hlock : w (.lock i e) ≠ 0 := fun hzero => mode.not_overflows_zero (hzero ▸ hoverflows)
    have hbars : ¬ mode.Bars (w (.lock i e)) := fun hbars => mode.not_overflows_of_bars hproper hbars hoverflows
    obtain ⟨rfl, hat⟩ := hhouses.eq_of_lock_ne_zero hw hlock
    rw [hplan, hedits]
    exact {
      refused := iff_of_false (by simp) (not_or.mpr ⟨htracked, hhouses.not_exists_lock hw.toCoherent hbars⟩)
      exhausted := iff_of_false (by simp) hcrowded
      overflowed := iff_of_true rfl ⟨i, e, hat, hoverflows⟩
      unchanged := fun _ => ⟨rfl, by simp⟩
      granted := by simp }
  · have hafter : w.edits ((mode.acquire p txn).plan w w.used).2 = mode.grant u i e := by
      rw [hplan, Words.edits_append, hedits, ← mode.edit_gain]
      rfl
    rw [hafter, hplan]
    refine {
      refused := iff_of_false (by simp) (not_or.mpr ⟨htracked, hhouses.not_exists_lock hw.toCoherent hbars⟩)
      exhausted := iff_of_false (by simp) hcrowded
      overflowed := iff_of_false (by simp) (hhouses.not_exists_lock hw.toCoherent hoverflows)
      unchanged := fun hne => absurd rfl hne
      granted := fun _ => ⟨i, e, u, hhouses, rfl, mode.registeredAt_grant (hhouses.registeredAt htxn), ?_⟩ }
    rw [← hhouses.lock_eq] at hproper hbars hoverflows ⊢
    exact mode.held_grant hproper hbars hoverflows

/-- What a request for a lock plans is what it must come to. -/
theorem LockMode.decides (mode : LockMode) {w : Words} (hw : w.Calm) (htxn : txn.number ≤ Txn.max.number) :
    mode.Decides p txn w ((mode.acquire p txn).plan w w.used).1 (w.tell (.table (mode.acquire p txn))) := by
  have htell : w.tell (.table (mode.acquire p txn)) = w.edits ((mode.acquire p txn).plan w w.used).2 := rfl
  rw [htell]
  rcases hw.findOrRegister_cases (p := p) htxn with ⟨hnone, hfound⟩ | ⟨hcrowded, hfound⟩ | ⟨i, e, u, hhouses, hfound, hedits⟩
  · have hnew : ¬ w.Registered p txn := Words.not_registered_of_untracked hnone
    rw [mode.acquire_of_none hfound]
    exact {
      refused := iff_of_true rfl (.inl hnone)
      exhausted := iff_of_false (by simp [Plan.answer]) (Words.not_crowded_of_untracked hnone)
      overflowed := iff_of_false (by simp [Plan.answer]) (Words.not_exists_lock hnew)
      unchanged := fun _ => ⟨rfl, by simp [Plan.answer]⟩
      granted := by simp [Plan.answer] }
  · obtain ⟨hnew, j, hj, -⟩ := id hcrowded
    rw [mode.acquire_of_stop hfound]
    exact {
      refused := iff_of_false (by simp [Plan.stop]) (not_or.mpr ⟨fun hnone => hnone j hj, Words.not_exists_lock hnew⟩)
      exhausted := iff_of_true rfl hcrowded
      overflowed := iff_of_false (by simp [Plan.stop]) (Words.not_exists_lock hnew)
      unchanged := fun _ => ⟨rfl, by simp [Plan.stop]⟩
      granted := by simp [Plan.stop] }
  · exact mode.decides_of_houses hw htxn hhouses hfound hedits

/-! ### Requests -/

namespace Shared

variable {s : Shared} {name : String} {h : Handle} {c : BoardCall} {f g : Image} {o : Except Halt Answer}

/-- A call by way of `name` has the outcome `o`; the file holds `f` before it and `g` after it, with the same bytes
outside of words. -/
structure CarriesOut [Processor] (s : Shared) (name : String) (c : BoardCall) (f : Image) (o : Except Halt Answer)
    (g : Image) : Prop where
  before : s.file? = some f
  outcome : (s.step (.call name c)).1.map (·.outcome) = some o
  after : (s.step (.call name c)).2.file? = some g
  kept : ∀ b, (∀ c : Cell, b < c.offset ∨ c.offset + 8 ≤ b) → g.byte b = f.byte b

/-- A call that leaves the words and the length as they were leaves the file as it was. -/
theorem CarriesOut.eq [Processor] (hcall : s.CarriesOut name c f o g) (hsize : g.size = f.size)
    (hcells : g.cells = f.cells) : g = f :=
  Image.ext_cells hsize hcells hcall.kept

/-- By way of an open handle whose host refuses nothing, a call does what its plan says. -/
theorem Reached.carriesOut [Processor] (hs : s.Reached) (hget : s.handles.get? name = some h) (hopen : h.isOpen = true)
    (hw : h.region.host.Willing) (hc : c.Trackable) :
    ∃ f, f.Sound ∧ s.CarriesOut name c f (c.plan f.cells).1 (f.tell c) ∧ (f.tell c).cells = f.cells.tell c := by
  obtain ⟨f, hf, hsound⟩ := hs.sound
  obtain ⟨reply, hreply, hout, hopened, -, hcells⟩ := hf.call_willing hsound hget hopen hw hc
  refine ⟨f, hsound, ⟨hf.file, ?_, hopened.file, fun b hb => ?_⟩, hcells⟩
  · rw [hreply, Option.map_some, hout]
  · exact Image.byte_tellAll_of_no_cell f [c] hb

/-- A request for a lock, by way of an open handle whose host refuses nothing, comes to what the table says. It leaves
the file as it was, or changes just the words that a grant changes. -/
theorem acquire_exact [Processor] (hs : s.Reached) (hget : s.handles.get? name = some h) (hopen : h.isOpen = true)
    (hw : h.region.host.Willing) (mode : LockMode) (p : Partition) (txn : Txn) (htxn : txn.number ≤ Txn.max.number) :
    ∃ f o g, s.CarriesOut name (.table (mode.acquire p txn)) f o g ∧ mode.Decides p txn f.cells o g.cells ∧
      g.size = f.size ∧ (o ≠ .ok (.flag true) → g = f) := by
  have hc : BoardCall.Trackable (.table (mode.acquire p txn)) := by
    cases mode <;> exact fun t ht => Option.some.inj ht ▸ htxn
  obtain ⟨f, hsound, hcall, hcells⟩ := hs.carriesOut hget hopen hw hc
  obtain ⟨hsize, -⟩ := Image.tell_table hsound.fits (mode.acquire p txn)
  have hdecides := mode.decides (p := p) ⟨hsound.table, hsound.idle⟩ htxn
  rw [← hcells] at hdecides
  exact ⟨f, _, _, hcall, hdecides, hsize, fun hne => hcall.eq hsize (hdecides.unchanged hne).1⟩

/-- All fourteen entries are registered and the lowest three are read; a new reader gets the fourth one. -/
theorem acquire_exact_of_full_slot :
    let lock (t : UInt64) : Request := .call "a" (.table (.acquireRead ⟨5⟩ ⟨t⟩))
    let rs : List Request := .openBoard "a" "board" .willing .default ::
      (List.range 14).map (fun t => .call "a" (.add ⟨5⟩ ⟨UInt64.ofNat t⟩)) ++ [lock 0, lock 1, lock 2]
    ∃ f g, (created.run rs).2.CarriesOut "a" (.table (.acquireRead ⟨5⟩ ⟨99⟩)) f (.ok (.flag true)) g ∧ f.cells.Full 0 ∧
      LockMode.read.Decides ⟨5⟩ ⟨99⟩ f.cells (.ok (.flag true)) g.cells ∧
      g.cells.RegisteredAt ⟨5⟩ ⟨99⟩ 0 ⟨3, by decide⟩ := by
  intro lock rs
  have hkeys : ∀ r ∈ rs, r.Trackable := by decide
  have hwilling : ∀ r ∈ rs, r.Willing := by
    simp only [rs, lock, List.cons_append, List.mem_cons, List.mem_append, List.mem_map, List.not_mem_nil, or_false]
    rintro r (rfl | ⟨t, -, rfl⟩ | rfl | rfl | rfl)
    · exact Host.willing_willing
    all_goals trivial
  have hw := reached_created.willing_run willing_created fun r hr => ⟨hkeys r hr, hwilling r hr⟩
  obtain ⟨hhas, hfull, hout, hat⟩ : ((created.run rs).2.handles.get? "a").map Handle.isOpen = some true ∧
      (∀ f ∈ (created.run rs).2.file?, f.cells.Full 0) ∧
      ((created.run rs).2.step (.call "a" (.table (LockMode.read.acquire ⟨5⟩ ⟨99⟩)))).1.map (·.outcome) =
        some (.ok (.flag true)) ∧
      ∀ g ∈ ((created.run rs).2.step (.call "a" (.table (LockMode.read.acquire ⟨5⟩ ⟨99⟩)))).2.file?,
        g.cells.RegisteredAt ⟨5⟩ ⟨99⟩ 0 ⟨3, by decide⟩ := by decide +kernel
  obtain ⟨h, hget, hopen⟩ := Option.map_eq_some_iff.mp hhas
  obtain ⟨f, o, g, hcall, hdecides, -⟩ :=
    acquire_exact (reached_created.run hkeys) hget hopen (hw "a" h hget) .read ⟨5⟩ ⟨99⟩ (by decide)
  obtain rfl : o = .ok (.flag true) := Option.some.inj (hcall.outcome.symm.trans hout)
  exact ⟨f, g, hcall, hfull _ hcall.before, hdecides, hat _ hcall.after⟩

end Shared

end VersionBoard
