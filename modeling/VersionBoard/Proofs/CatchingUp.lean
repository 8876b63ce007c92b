import VersionBoard.Proofs.Ideal
import VersionBoard.Proofs.Stamp

/-!
# Catching up

A call without a structural change works through the mapping as it is, as long
as that holds every used slot. Else another handle has put slots beyond it, and
the file is mapped anew, all of it. This would make the file longer if it were
too short for the used slots; but no run of requests leaves it so, whatever was
refused on the way. So the call asks its host for no more than how long the file
is and for the mapping, and takes no lock (`Shared.call_table_exact`).
-/

namespace VersionBoard

/-! ### How catching up ends -/

/-- What comes of having every used slot mapped of a file with the contents `f`, of which the first `n` bytes are
mapped: the outcome, the calls on the host, and how many bytes are mapped then. -/
inductive Image.CatchesUp (f : Image) (n : Nat) (path : String) : Except Halt Unit → List CallRecord → Nat → Prop
  /-- They are mapped. -/
  | whole (h : f.cells.used ≤ slotsIn n) : f.CatchesUp n path (.ok ()) [] n
  | unmeasured (h : slotsIn n < f.cells.used) (why : Refusal) :
      f.CatchesUp n path (.error (.failed (.cannotOpen path (.refused why)))) [⟨.length, some why⟩] n
  /-- The file is mapped, all of it. -/
  | mapped (h : slotsIn n < f.cells.used) :
      f.CatchesUp n path (.ok ()) [⟨.length, none⟩, ⟨.map f.size, none⟩] f.size
  | unmapped (h : slotsIn n < f.cells.used) (why : Refusal) :
      f.CatchesUp n path (.error (.failed (.cannotMap path (.refused why))))
        [⟨.length, none⟩, ⟨.map f.size, some why⟩] n

/-- With success every used slot is mapped, and only what there is. -/
theorem Image.CatchesUp.covers {f : Image} {n m : Nat} {path : String} {calls : List CallRecord}
    (h : f.CatchesUp n path (.ok ()) calls m) (hheader : headerSize ≤ n) (hinside : n ≤ f.size)
    (hfits : sizeFor f.cells.used ≤ f.size) : headerSize ≤ m ∧ m ≤ f.size ∧ f.cells.used ≤ slotsIn m := by
  cases h with
  | whole h => exact ⟨hheader, hinside, h⟩
  | mapped => exact ⟨Nat.le_trans hheader hinside, Nat.le_refl _, le_slotsIn_of_sizeFor_le hfits⟩

namespace Board

open Region

variable {α : Type} {s : Scene} {n : Nat}

/-- A file that holds its used slots is not made longer to have them mapped. -/
theorem catchUp_ends (hm : s.Mapped n) (hfits : sizeFor s.file.image.cells.used ≤ s.file.image.size)
    (hlt : slotsIn n < s.file.image.cells.used) :
    ∃ o calls m, catchUp s = (o, s.after calls s.file.image m) ∧ s.region.host.Says calls ∧
      s.file.image.CatchesUp n s.region.path o calls m := by
  obtain ⟨o, calls, g, m, hrun, hsaid, hends⟩ := reach_ends hm.mapping (sizeFor s.file.image.cells.used)
  rw [catchUp_apply hm, hrun]
  cases hends with
  | here h => exact absurd (le_slotsIn_of_sizeFor_le h) (Nat.not_le.mpr hlt)
  | unmeasured _ why => exact ⟨_, _, _, rfl, hsaid, .unmeasured hlt why⟩
  | mapped => exact ⟨_, _, _, rfl, hsaid, .mapped hlt⟩
  | unmapped _ _ why => exact ⟨_, _, _, rfl, hsaid, .unmapped hlt why⟩
  | ungrown _ hshort => exact absurd hfits (Nat.not_le.mpr hshort)
  | grown _ hshort => exact absurd hfits (Nat.not_le.mpr hshort)
  | grownUnmapped _ hshort => exact absurd hfits (Nat.not_le.mpr hshort)

/-- What is done on a whole table is done through the mapping once that holds every used slot, or it is not done. -/
theorem onWholeTable_ends (hm : s.Mapped n) (hfits : sizeFor s.file.image.cells.used ≤ s.file.image.size)
    (f : Mapping → Act Image α) :
    ∃ o calls m, s.region.host.Says calls ∧ s.file.image.CatchesUp n s.region.path o calls m ∧
      (∀ x, o = .error x → onWholeTable f s = (.error x, s.after calls s.file.image m)) ∧
      (o = .ok () → onWholeTable f s = onTable f (s.after calls s.file.image m)) := by
  rw [onWholeTable_apply hm]
  split_ifs with hlt
  · obtain ⟨o, calls, m, hrun, hsaid, hends⟩ := catchUp_ends hm hfits hlt
    refine ⟨o, calls, m, hsaid, hends, ?_, ?_⟩
    · rintro x rfl
      exact Act.bind_of_error hrun
    · rintro rfl
      exact Act.bind_of_ok hrun
  · refine ⟨.ok (), [], n, trivial, .whole (Nat.le_of_not_lt hlt), nofun, fun _ => ?_⟩
    rw [Scene.after_nil hm.mapping]

end Board

/-! ### What the header keeps -/

namespace Words

variable {w : Words} {ed : Edit}

/-- An edit that names no slot and removes no version leaves the counts of slots as they are. -/
theorem slotCounts_edit (hnamed : ed.named = none) (hremovals : ed.removals = 0) :
    w.edit ed .liveSlots = w .liveSlots ∧ w.edit ed .usedSlots = w .usedSlots := by
  cases ed with
  | unregister => cases hremovals
  | retire => cases hremovals
  | track => cases hnamed
  | abandon => cases hnamed
  | _ => simp [edit, Edit.writes, set_apply]

theorem slotCounts_edits {es : List Edit} (hes : ∀ ed ∈ es, ed.named = none ∧ ed.removals = 0) :
    w.edits es .liveSlots = w .liveSlots ∧ w.edits es .usedSlots = w .usedSlots :=
  ⟨edits_apply fun ed hed _ => (slotCounts_edit (hes ed hed).1 (hes ed hed).2).1,
    edits_apply fun ed hed _ => (slotCounts_edit (hes ed hed).1 (hes ed hed).2).2⟩

end Words

namespace TableCall

variable {c : TableCall} {f : Image} {m : Nat}

/-- A call without a structural change removes no version. -/
theorem removals_of_mem_plan {w : Words} {v : Nat} {ed : Edit} (h : ed ∈ (c.plan w v).2) : ed.removals = 0 := by
  rcases c.edits_cases w v with hnil | ⟨first, rest, heq, hrest, hfirst⟩
  · rw [hnil] at h
    cases h
  · rw [heq] at h
    rcases List.mem_cons.mp h with rfl | h
    · exact hfirst
    · exact Edit.removals_of_locked (hrest ed h)

/-- What a call leaves of a file with the contents `f`, of which `m` bytes were mapped when catching up had ended: its
outcome, and the contents then. -/
structure Leaves (c : TableCall) (f : Image) (m : Nat) (caught : Except Halt Unit) (o : Except Halt Answer) (g : Image) :
    Prop where
  /-- If the host refused something, so does the call, and it has done nothing. -/
  refused : ∀ x, caught = .error x → o = .error x ∧ g = f
  /-- Else it has every used slot mapped, -/
  covers : caught = .ok () → sizeFor f.cells.used ≤ m ∧ m ≤ f.size
  /-- and it ends as planned. -/
  answered : caught = .ok () → o = (c.plan f.cells f.cells.used).1 ∧ g = f.edits (c.plan f.cells f.cells.used).2
  /-- The file is as long as it was, -/
  size : g.size = f.size
  /-- the header lock and the counts of slots are as they were, -/
  header : g.cells .headerLock = f.cells .headerLock
  liveSlots : g.cells .liveSlots = f.cells .liveSlots
  usedSlots : g.cells .usedSlots = f.cells .usedSlots
  /-- and for a question, everything is. -/
  question : c.isQuestion = true → g = f

theorem leaves_refused (c : TableCall) (f : Image) (m : Nat) (x : Halt) :
    c.Leaves f m (.error x) (.error x) f where
  refused _ hx := ⟨congrArg _ (Except.error.inj hx), rfl⟩
  covers := nofun
  answered := nofun
  size := rfl
  header := rfl
  liveSlots := rfl
  usedSlots := rfl
  question _ := rfl

theorem leaves_planned (c : TableCall) (hm : headerSize ≤ m) (hinside : m ≤ f.size) (hused : f.cells.used ≤ slotsIn m) :
    c.Leaves f m (.ok ()) (c.plan f.cells f.cells.used).1 (f.edits (c.plan f.cells f.cells.used).2) := by
  have hholds : ∀ ed ∈ (c.plan f.cells f.cells.used).2, f.Holds ed.slot := fun ed hed =>
    Table.holds_of_lt_slotsIn hm hinside (Nat.lt_of_lt_of_le (slot_of_mem_plan hed) hused)
  have hkeep : ∀ ed ∈ (c.plan f.cells f.cells.used).2, ed.named = none ∧ ed.removals = 0 := by
    intro ed hed
    obtain ⟨-, -, -, hnamed⟩ := of_mem_plan hed
    exact ⟨hnamed, removals_of_mem_plan hed⟩
  obtain ⟨hlive, hcount⟩ := Words.slotCounts_edits hkeep
  rw [← Image.cells_edits hholds] at hlive hcount
  exact {
    refused := nofun
    covers := fun _ => ⟨sizeFor_le_of_le_slotsIn hm hused, hinside⟩
    answered := fun _ => ⟨rfl, rfl⟩
    size := Image.size_edits ..
    header := Image.cells_edits_guard Cell.isGuard_headerLock hholds
    liveSlots := hlive
    usedSlots := hcount
    question := fun hc => by rw [edits_of_isQuestion hc, Image.edits_nil] }

/-- A call on an open board catches up if it must, and then does what its plan says. -/
theorem run_unstuck [Processor] {s : Scene} {n : Nat} (hm : s.Mapped n) (hf : s.file.image.Sound) (c : TableCall) :
    ∃ caught calls m o g, (BoardCall.table c).run s = (o, s.after calls g m) ∧ s.region.host.Says calls ∧
      s.file.image.CatchesUp n s.region.path caught calls m ∧ c.Leaves s.file.image m caught o g := by
  obtain ⟨caught, calls, m, hsaid, hends, herror, hok⟩ := Board.onWholeTable_ends hm hf.fits fun m => c.run m
  rcases caught with x | ⟨⟩
  · exact ⟨_, calls, m, _, _, herror x rfl, hsaid, hends, c.leaves_refused ..⟩
  · obtain ⟨hheader, hinside, hused⟩ := hends.covers hm.header hm.inside hf.fits
    have hrun := (c.run_follows hheader hinside hf.table.slotsFree).eq_of_ends (c.ends_plan hf.table hf.idle _)
    rw [Nat.min_eq_left hused] at hrun
    refine ⟨_, calls, m, _, _, (hok rfl).trans (Region.onTable_of_eq hrun), hsaid, hends, ?_⟩
    exact c.leaves_planned hheader hinside hused

end TableCall

/-- A handle that is open is on a board and has some of the file mapped. -/
theorem Handle.Fits.of_isOpen {size : Nat} {h : Handle} (hh : h.Fits size) (hopen : h.isOpen = true) :
    ∃ region config n, h = .board region config ∧ region.mapping = .upTo n ∧ headerSize ≤ n ∧ n ≤ size := by
  cases h with
  | bare => exact hh.elim
  | board region config =>
    rcases hh with hclosed | ⟨n, hn⟩
    · rw [isOpen, Handle.region, hclosed] at hopen
      cases hopen
    · exact ⟨region, config, n, rfl, hn⟩

namespace Shared

variable {u : Shared} {rs : List Request} {name : String} {h : Handle}

/-- Whatever has been asked for on a file that was missing or blank, a call without a structural change through an
open handle maps the file anew if a used slot is not mapped, and leaves it as long as it is. -/
theorem call_table_exact [Processor] (hu : u.Fresh) (hkeys : ∀ r ∈ rs, r.Trackable)
    (hget : (u.run rs).2.handles.get? name = some h) (hopen : h.isOpen = true) (c : TableCall) :
    ∃ f n caught calls m o g, (u.run rs).2.file? = some f ∧ h.region.mapping = .upTo n ∧
      h.region.host.Says calls ∧ f.CatchesUp n h.region.path caught calls m ∧ c.Leaves f m caught o g ∧
      (u.run rs).2.step (.call name (.table c)) = (some ⟨o, if h.region.host.silent then [] else calls⟩,
        { file? := some g
          handles := (u.run rs).2.handles.put name
            (h.withRegion { h.region with mapping := .upTo m, host := h.region.host.told calls }) }) := by
  rcases run_fresh_or_sound hu hkeys with ⟨hfresh, -⟩ | ⟨f, hf, hsound⟩
  · cases (hfresh.get? name).symm.trans hget
  · obtain ⟨region, config, n, rfl, hmapping, hheader, hinside⟩ := (hf.handles name h hget).of_isOpen hopen
    have hm : ((u.run rs).2.scene name (.board region config) f).Mapped n := ⟨hmapping, hheader, hinside⟩
    obtain ⟨caught, calls, m, o, g, hrun, hsaid, hends, hleaves⟩ := c.run_unstuck hm hsound
    refine ⟨f, n, caught, calls, m, o, g, hf.file, hmapping, hsaid, hends, hleaves, ?_⟩
    have hact := act_of_get? (g := fun h => h.call? (.table c)) hget hf.file rfl
    have hregion : (Handle.board region config).region = region := rfl
    rw [hregion, hrun] at hact
    rw [step, through, hact, ← Host.reportSince_told]
    rfl

/-- Through a handle that has mapped the header only, a slot is read that another one has added since. The file has got
longer for it, and is mapped as it is. -/
theorem call_table_exact_of_added :
    let rs : List Request := [.openBoard "a" "board" .willing (Config.default.withPolicy .day),
      .openBoard "b" "board" .willing .default, .call "a" (.add ⟨5⟩ ⟨7⟩)]
    ∃ f g h, (run {} rs).2.file? = some f ∧ f.size = 640 ∧ g.size = 640 ∧
      (run {} rs).2.step (.call "b" (.table (.acquireRead ⟨5⟩ ⟨7⟩))) =
        (some ⟨.ok (.flag true), [⟨.length, none⟩, ⟨.map 640, none⟩]⟩,
          { file? := some g, handles := (run {} rs).2.handles.put "b" h }) := by
  intro rs
  obtain ⟨hhandle, hsizes, hout⟩ : ((run {} rs).2.handles.get? "b").map (fun h =>
        (h.isOpen, h.region.host.silent, h.region.mapping.size)) = some (true, false, 64) ∧
      (∀ f ∈ (run {} rs).2.file?, f.size = 640 ∧ f.cells.used = 1) ∧
      ((run {} rs).2.step (.call "b" (.table (.acquireRead ⟨5⟩ ⟨7⟩)))).1.map (·.outcome) = some (.ok (.flag true)) := by
    decide +kernel
  obtain ⟨h, hget, hh⟩ := Option.map_eq_some_iff.mp hhandle
  obtain ⟨hopen, hsilent, hmapped⟩ : h.isOpen = true ∧ h.region.host.silent = false ∧ h.region.mapping.size = 64 := by
    simpa using hh
  obtain ⟨f, n, caught, calls, m, o, g, hfile, hmapping, -, hends, hleaves, hstep⟩ :=
    call_table_exact fresh_empty (by decide) hget hopen (.acquireRead ⟨5⟩ ⟨7⟩)
  obtain ⟨hsize, hused⟩ := hsizes _ hfile
  rw [hmapping] at hmapped
  obtain rfl : n = 64 := hmapped
  rw [hstep, hsilent] at hout
  obtain rfl : o = .ok (.flag true) := Option.some.inj hout
  have hcalls : calls = [⟨.length, none⟩, ⟨.map 640, none⟩] := by
    cases hends with
    | whole hle => rw [hused] at hle; exact absurd hle (by decide)
    | mapped => rw [hsize]
    | unmeasured _ why => cases (hleaves.refused _ rfl).1
    | unmapped _ why => cases (hleaves.refused _ rfl).1
  rw [hsilent, hcalls] at hstep
  exact ⟨f, g, _, hfile, hsize, hleaves.size.trans hsize, hstep⟩

end Shared

end VersionBoard
