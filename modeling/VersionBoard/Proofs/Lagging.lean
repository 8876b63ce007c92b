import VersionBoard.Proofs.Accesses
import VersionBoard.Proofs.Changes
import VersionBoard.Proofs.Confined
import VersionBoard.Proofs.Pending

/-!
# Mappings that lag behind

A handle that works on a table without catching up first may have mapped fewer
slots than are in use. It is not told anything wrong. As a partition has one slot
only, a call about it finds the same slot as it would with everything mapped, and
goes on from there the same way, or it finds none and ends as for a partition
that is not tracked (`TableCall.Misses`). A new partition gets the slot that is
next as far as the mapping tells, or else the call is a violation and changes
nothing (`Image.Appends`). Either way nothing is read or written that is not
mapped (`Shared.lagging_exact`).
-/

namespace VersionBoard

/-! ### Plans with some of the slots -/

namespace Words

variable {w : Words} {v v' i : Nat} {p : Partition} {txn : Txn}

/-- The slot of a partition is found among any slots that it is one of. -/
theorem Coherent.slot?_of_tracks (h : w.Coherent) (hi : w.Tracks i p) (hv : i < v) : w.slot? v p = some i := by
  cases hj : w.slot? v p with
  | none => exact absurd hi (slot?_eq_none_iff.mp hj i hv)
  | some j => rw [h.unique j i p (of_slot? hj).2 hi]

theorem untrack_congr (h : w.slot? v p = w.slot? v' p) (txn : Txn) : w.untrack v p txn = w.untrack v' p txn := by
  rw [untrack, untrack, h]

theorem untrack_of_none (h : w.slot? v p = none) (txn : Txn) : w.untrack v p txn = .answer false := by
  rw [untrack, h]

end Words

namespace TableCall

variable {w : Words} {v v' : Nat} {p : Partition} {c : TableCall}

/-- How a call about a partition ends where no slot tracks it. -/
inductive Misses (p : Partition) : TableCall → Except Halt Answer → Prop
  /-- A lock is refused. -/
  | acquire (mode : LockMode) (txn : Txn) : Misses p (mode.acquire p txn) (.ok (.flag false))
  /-- To give a lock back is a violation. -/
  | release (mode : LockMode) (txn : Txn) :
      Misses p (mode.release p txn) (.error (.violated (.untrackedRelease mode p txn)))
  | readerCount (txn : Txn) : Misses p (.readerCount p txn) (.ok (.count 0))
  | hasWriter (txn : Txn) : Misses p (.hasWriter p txn) (.ok (.flag false))
  | slotOfVersion (txn : Txn) : Misses p (.slotOfVersion p txn) (.ok (.slot none))
  | versions : Misses p (.versions p) (.ok (.versions []))

/-- Of the slots that are looked at, a call's plan depends on nothing but which one is found. -/
theorem plan_congr (hc : c.partition? = some p) (h : w.slot? v p = w.slot? v' p) : c.plan w v = c.plan w v' := by
  cases c <;> cases hc <;>
    simp only [plan, Words.acquireRead, Words.acquireWrite, Words.releaseRead, Words.releaseWrite, Words.findOrRegister,
      Words.find, Words.versions, h]

/-- If none is found, the plan is to miss the partition. -/
theorem plan_of_none (hc : c.partition? = some p) (h : w.slot? v p = none) :
    ∃ o, Misses p c o ∧ c.plan w v = (o, []) := by
  have hfind : ∀ txn, w.find v p txn = .answer none := fun txn => by rw [Words.find, h]
  have hregister : ∀ txn, w.findOrRegister v p txn = .answer none := fun txn => by rw [Words.findOrRegister, h]
  cases c <;> cases hc
  case acquireRead txn => exact ⟨_, .acquire .read txn, by rw [plan, Words.acquireRead, hregister]; rfl⟩
  case releaseRead txn => exact ⟨_, .release .read txn, by rw [plan, Words.releaseRead, hfind]; rfl⟩
  case acquireWrite txn => exact ⟨_, .acquire .write txn, by rw [plan, Words.acquireWrite, hregister]; rfl⟩
  case releaseWrite txn => exact ⟨_, .release .write txn, by rw [plan, Words.releaseWrite, hfind]; rfl⟩
  case readerCount txn => exact ⟨_, .readerCount txn, by rw [plan, hfind]; rfl⟩
  case hasWriter txn => exact ⟨_, .hasWriter txn, by rw [plan, hfind]; rfl⟩
  case slotOfVersion txn => exact ⟨_, .slotOfVersion txn, by rw [plan, hfind]; rfl⟩
  case versions => exact ⟨_, .versions, by rw [plan, Words.versions, h]; rfl⟩

/-- What a call that is about no partition looks at is in the header. -/
theorem plan_of_no_partition (hc : c.partition? = none) : c.plan w v = c.plan w v' := by
  cases c <;> first | rfl | cases hc

end TableCall

/-! ### Tracking a partition -/

namespace Image

variable {f : Image} {n i : Nat} {p : Partition} {txn : Txn}

/-- What comes of putting version `txn` of `p` into a new slot where the first `c` slots can be reached. -/
inductive Appends (f : Image) (c : Nat) (p : Partition) (txn : Txn) : Except Halt Nat → Image → Prop
  /-- It gets the lowest of these that is retired, -/
  | reused {i : Nat} {e : EntryIndex} {g : Image} (hi : IsLeast {j | j < c ∧ f.cells (.state j) = SlotState.retired} i)
      (hsize : g.size = f.size) (hg : f.cells.Founds p txn i e g.cells) : f.Appends c p txn (.ok i) g
  /-- or if none is, the one after all used ones, -/
  | added {e : EntryIndex} {g : Image} (hnone : ∀ j, j < c → f.cells (.state j) ≠ SlotState.retired)
      (hc : f.cells.used < c) (hsize : g.size = f.size) (hg : f.cells.Founds p txn f.cells.used e g.cells) :
      f.Appends c p txn (.ok f.cells.used) g
  /-- and if that cannot be reached, nothing changes. -/
  | beyond (hnone : ∀ j, j < c → f.cells (.state j) ≠ SlotState.retired) (hc : c ≤ f.cells.used) :
      f.Appends c p txn (.error (.violated (.slotBeyondCapacity f.cells.used c))) f

/-- A slot without a partition is given to the next one. -/
theorem Sound.track_of_next [Processor] (hf : f.Sound) (hn : headerSize ≤ n) (hs : n ≤ f.size)
    (hnext : f.cells.next (min f.cells.used (slotsIn n)) = i) (hi : i < slotsIn n) (hdead : ¬ f.cells.Live i)
    (p : Partition) (htxn : txn.number ≤ Txn.max.number) :
    ∃ e g, Table.track (.upTo n) p txn f = (.ok i, g) ∧ g.size = f.size ∧ f.cells.Founds p txn i e g.cells := by
  have hvacant := hf.table.key_eq_zero hdead
  have hroom : i + 1 < 2 ^ 64 := by
    have hmax := hf.size_le
    simp only [slotsIn, headerSize, slotSize, Region.maxSize, UInt64.size] at hi hmax
    omega
  obtain ⟨e, hfree⟩ : ∃ e, f.cells.free? i = some e := by
    refine Option.ne_none_iff_exists'.mp fun hnone => ?_
    have hfirst : (⟨0, by decide⟩ : EntryIndex) ∈ f.cells.clean i := ⟨hvacant _, hf.idle i _ (hvacant _)⟩
    rwa [show f.cells.clean i = ∅ from eq_empty_of_find? hnone] at hfirst
  obtain ⟨⟨-, hlock⟩, hlow⟩ := isLeast_of_find? hfree
  have hplan : f.cells.track (min f.cells.used (slotsIn n)) p txn = (.ok i, [.track i e p (txn.number + 1)]) := by
    simp only [Words.track, hnext, hfree, Txn.key?_of_le htxn]
  have hrun := (Table.track_follows hn hs (by rwa [hnext]) (hf.table.slotsFree _) p txn).eq_of_ends
    (by rw [hplan]; exact Plan.ends_ok _ _)
  rw [hplan, edits_singleton] at hrun
  refine ⟨e, _, hrun, size_edit .., ?_⟩
  have hholds : f.Holds (Edit.track i e p (txn.number + 1)).slot := Table.holds_of_lt_slotsIn hn hs hi
  rw [cells_edit hholds]
  exact Words.founds_edit_track ⟨hlock, fun d hd => hlow ⟨hvacant d, hd⟩⟩ hvacant hroom p txn

/-- A new partition gets the slot that is next as far as the mapping tells, if it is mapped. -/
theorem Sound.appends [Processor] (hf : f.Sound) (hn : headerSize ≤ n) (hs : n ≤ f.size) (p : Partition)
    (htxn : txn.number ≤ Txn.max.number) :
    ∃ o g, Table.track (.upTo n) p txn f = (o, g) ∧ f.Appends (slotsIn n) p txn o g := by
  have hstate : ∀ j, f.cells (.state j) = SlotState.retired → ¬ f.cells.Live j := fun j hj hlive => by
    rw [Words.Live, hj] at hlive
    exact absurd hlive (by decide)
  have hretired : ∀ j, f.cells (.state j) = SlotState.retired → j < f.cells.used := fun j hj => by
    by_contra hle
    rw [hf.table.unused j (by omega)] at hj
    exact absurd hj (by decide)
  cases hfind : (List.range (min f.cells.used (slotsIn n))).find? fun j => f.cells (.state j) = SlotState.retired with
  | none =>
    have hnext : f.cells.next (min f.cells.used (slotsIn n)) = f.cells.used := by rw [Words.next, hfind, Option.getD_none]
    have hnone : ∀ j, j < slotsIn n → f.cells (.state j) ≠ SlotState.retired := fun j hj hj' => by
      have hlt := hretired j hj'
      simpa [hj'] using List.find?_eq_none.mp hfind j (List.mem_range.mpr (by omega))
    by_cases hlast : f.cells.used < slotsIn n
    · obtain ⟨e, g, hrun, hsize, hg⟩ := hf.track_of_next hn hs hnext hlast
        (fun hlive => Nat.lt_irrefl _ (hf.table.lt_used_of_live hlive)) p htxn
      exact ⟨_, g, hrun, .added hnone hlast hsize hg⟩
    · have hrun := Board.track_beyond (f := f) hn p txn (by rwa [hnext])
      rw [hnext] at hrun
      exact ⟨_, f, hrun, .beyond hnone (by omega)⟩
  | some i =>
    obtain ⟨hi, hmem, hbefore⟩ := List.find?_range_eq_some.mp hfind
    have hi : f.cells (.state i) = SlotState.retired := by simpa using hi
    have hlt : i < slotsIn n := by
      rw [List.mem_range] at hmem
      omega
    obtain ⟨e, g, hrun, hsize, hg⟩ := hf.track_of_next hn hs (by rw [Words.next, hfind, Option.getD_some]) hlt (hstate i hi)
      p htxn
    refine ⟨_, g, hrun, .reused ⟨⟨hlt, hi⟩, fun j hj => ?_⟩ hsize hg⟩
    by_contra hji
    simpa [hj.2] using hbefore j (by omega)

/-! ### What a handle sees -/

/-- What a handle is told that has mapped the first `n` bytes of the file. -/
structure Lags [Processor] (f : Image) (n : Nat) : Prop where
  /-- If one of the mapped slots tracks the partition, the call does what it does where all used slots are mapped. -/
  found : ∀ p i, i < slotsIn n → f.cells.Tracks i p → ∀ m, sizeFor f.cells.used ≤ m → m ≤ f.size →
    (∀ c : TableCall, c.partition? = some p → c.run (.upTo n) f = c.run (.upTo m) f) ∧
      ∀ txn, Table.untrack (.upTo n) p txn f = Table.untrack (.upTo m) p txn f
  /-- If none does, it ends as for a partition that is not tracked, and nothing changes. -/
  missed : ∀ p, (∀ i, i < slotsIn n → ¬ f.cells.Tracks i p) →
    (∀ c : TableCall, c.partition? = some p → ∃ o, TableCall.Misses p c o ∧ c.run (.upTo n) f = (o, f)) ∧
      ∀ txn, Table.untrack (.upTo n) p txn f = (.ok false, f)
  /-- The words of the header are the same for all. -/
  counted : ∀ c : TableCall, c.partition? = none → ∀ m, headerSize ≤ m → m ≤ f.size →
    c.run (.upTo n) f = c.run (.upTo m) f
  /-- No call waits. -/
  ends : (∀ (c : TableCall) (x : Wait), (c.run (.upTo n) f).1 ≠ .error (.waits x)) ∧
    ∀ (p : Partition) (txn : Txn) (x : Wait), (Table.untrack (.upTo n) p txn f).1 ≠ .error (.waits x)
  /-- No call is a violation but by what it asks for. -/
  misuse : (∀ (c : TableCall) (x : Violation), (c.run (.upTo n) f).1 = .error (.violated x) →
      (BoardCall.table c).Misuse x) ∧
    ∀ (p : Partition) (txn : Txn) (x : Violation), (Table.untrack (.upTo n) p txn f).1 = .error (.violated x) →
      (BoardCall.remove p txn).Misuse x
  /-- A new partition gets the next slot, as far as the mapping tells and reaches. -/
  appended : ∀ (p : Partition) (txn : Txn), txn.number ≤ Txn.max.number →
    ∃ o g, Table.track (.upTo n) p txn f = (o, g) ∧ f.Appends (slotsIn n) p txn o g

variable {m : Nat}

theorem Sound.run_eq [Processor] (hf : f.Sound) (hn : headerSize ≤ n) (hs : n ≤ f.size) (c : TableCall) :
    c.run (.upTo n) f = ((c.plan f.cells (min f.cells.used (slotsIn n))).1,
      f.edits (c.plan f.cells (min f.cells.used (slotsIn n))).2) :=
  (c.run_follows hn hs hf.table.slotsFree).eq_of_ends (c.ends_plan hf.table hf.idle _)

theorem Sound.untrack_eq [Processor] (hf : f.Sound) (hn : headerSize ≤ n) (hs : n ≤ f.size) (p : Partition)
    (txn : Txn) : Table.untrack (.upTo n) p txn f = ((f.cells.untrack (min f.cells.used (slotsIn n)) p txn).1,
      f.edits (f.cells.untrack (min f.cells.used (slotsIn n)) p txn).2) :=
  (Table.untrack_follows hn hs hf.table.slotsFree p txn).eq_of_ends (Words.ends_untrack _ _ p txn)

/-- Between whole calls a handle is told so whatever it has mapped. -/
theorem Sound.lags [Processor] (hf : f.Sound) (hn : headerSize ≤ n) (hs : n ≤ f.size) : f.Lags n where
  found p i hi htracks m hm hsize := by
    have hheader : headerSize ≤ m := Nat.le_trans (headerSize_le_sizeFor _) hm
    have hused := hf.table.lt_used_of_live htracks.1
    have hall := le_slotsIn_of_sizeFor_le hm
    have hslot : f.cells.slot? (min f.cells.used (slotsIn n)) p = f.cells.slot? (min f.cells.used (slotsIn m)) p := by
      rw [hf.table.slot?_of_tracks htracks (by omega), hf.table.slot?_of_tracks htracks (by omega)]
    refine ⟨fun c hc => ?_, fun txn => ?_⟩
    · rw [hf.run_eq hn hs, hf.run_eq hheader hsize, TableCall.plan_congr hc hslot]
    · rw [hf.untrack_eq hn hs, hf.untrack_eq hheader hsize, Words.untrack_congr hslot]
  missed p hnone := by
    have hslot : f.cells.slot? (min f.cells.used (slotsIn n)) p = none :=
      Words.slot?_eq_none_iff.mpr fun i hi => hnone i (by omega)
    refine ⟨fun c hc => ?_, fun txn => ?_⟩
    · obtain ⟨o, ho, hplan⟩ := TableCall.plan_of_none hc hslot
      refine ⟨o, ho, ?_⟩
      rw [hf.run_eq hn hs, hplan]
      rfl
    · rw [hf.untrack_eq hn hs, Words.untrack_of_none hslot]
      rfl
  counted c hc m hm hsize := by
    rw [hf.run_eq hn hs, hf.run_eq hm hsize, TableCall.plan_of_no_partition hc]
  ends := by
    refine ⟨fun c x => ?_, fun p txn x => ?_⟩
    · rw [hf.run_eq hn hs]
      exact c.ends_plan hf.table hf.idle _ x
    · rw [hf.untrack_eq hn hs]
      exact Words.ends_untrack _ _ p txn x
  misuse := by
    refine ⟨fun c x hx => ?_, fun p txn x hx => ?_⟩
    · rw [hf.run_eq hn hs] at hx
      exact c.violatesOnly_plan _ _ x hx
    · rw [hf.untrack_eq hn hs] at hx
      exact Words.violatesOnly_untrack _ _ p txn x hx
  appended p _ htxn := hf.appends hn hs p htxn

end Image

namespace Shared

variable {s : Shared}

/-- Whatever was asked before, a handle that has mapped any part of the file with the header is told of the slots in
this part what it would be told with all slots mapped, and of others that they are not there; and whatever is in the
file, no call reads or writes anything behind what is mapped. -/
theorem lagging_exact [Processor] (hs : s.Reached) : ∃ f, s.file? = some f ∧
    ∀ n, headerSize ≤ n → n ≤ f.size → f.Lags n ∧ (∀ c : TableCall, (c.run (.upTo n)).Confined n) ∧
      ∀ p txn, (Table.untrack (.upTo n) p txn).Confined n ∧ (Table.track (.upTo n) p txn).Confined n := by
  obtain ⟨f, hopened, hf⟩ := hs.sound
  exact ⟨f, hopened.file, fun n hn hsize => ⟨hf.lags hn hsize, fun c => c.confined_run n,
    fun p txn => ⟨Table.confined_untrack n p txn, Table.confined_track n p txn⟩⟩⟩

/-- Three partitions have slots, and the handle has mapped the first slot only. -/
theorem lagging_exact_of_three_partitions :
    let add (p : Int64) : Request := .call "a" (.add ⟨p⟩ ⟨7⟩)
    let rs : List Request := [.openBoard "a" "board" .willing .default, add 5, add 6, add 9]
    ∃ f, (created.run rs).2.file? = some f ∧ f.size = 1664 ∧
      (TableCall.acquireRead ⟨5⟩ ⟨7⟩).run (.upTo 320) f = (TableCall.acquireRead ⟨5⟩ ⟨7⟩).run (.upTo 1664) f ∧
      (TableCall.releaseRead ⟨6⟩ ⟨7⟩).run (.upTo 320) f =
        (.error (.violated (.untrackedRelease .read ⟨6⟩ ⟨7⟩)), f) ∧
      Table.track (.upTo 320) ⟨8⟩ ⟨7⟩ f = (.error (.violated (.slotBeyondCapacity 3 1)), f) := by
  intro add rs
  have hfacts : ∀ f ∈ (created.run rs).2.file?, f.size = 1664 ∧ f.cells.used = 3 ∧
      f.cells.Tracks 0 ⟨5⟩ ∧ ¬ f.cells.Tracks 0 ⟨6⟩ ∧
        f.cells (.state 0) ≠ SlotState.retired := by
    decide +kernel
  obtain ⟨f, hfile, hlags⟩ := lagging_exact (s := (created.run rs).2) (reached_created.run (by decide))
  obtain ⟨hsize, hused, hfirst, hsecond, hlive⟩ := hfacts _ hfile
  have hone : slotsIn 320 = 1 := rfl
  obtain ⟨h, -⟩ := hlags 320 (by decide) (by omega)
  refine ⟨f, hfile, hsize, ?_, ?_, ?_⟩
  · exact (h.found ⟨5⟩ 0 (by decide) hfirst 1664 (by rw [hused]; decide) (by omega)).1 _ rfl
  · obtain ⟨o, ho, hrun⟩ := (h.missed ⟨6⟩ fun i hi => by
      obtain rfl : i = 0 := by omega
      exact hsecond).1 (.releaseRead ⟨6⟩ ⟨7⟩) rfl
    rw [hrun]
    generalize hc : TableCall.releaseRead ⟨6⟩ ⟨7⟩ = c at ho
    cases ho with
    | release mode txn => cases mode <;> cases hc; rfl
    | acquire mode txn => cases mode <;> cases hc
    | _ => cases hc
  · obtain ⟨o, g, hrun, happends⟩ := h.appended ⟨8⟩ ⟨7⟩ (by decide)
    rw [hrun]
    cases happends with
    | @reused i e g hi =>
      obtain ⟨hlt, hretired⟩ := hi.1
      obtain rfl : i = 0 := by omega
      exact absurd hretired hlive
    | added _ hc => omega
    | beyond => rw [hused, hone]

end Shared

end VersionBoard
