import VersionBoard.Proofs.Ideal

/-!
# Violations

What a violation leaves behind: a release without an acquisition, a reader too
many, a transaction without a key. Unless the call abandons a slot
(`BoardCall.Abandons`) it leaves every word as it was, and later requests cannot
tell that it was made. The one call that abandons a slot, because it looks for
the key only when it has given the slot to the partition and reserved an entry,
does change words (`Shared.run_violation`).
-/

namespace VersionBoard

/-! ### What a violation does to the file -/

/-- A file that is not half as long as files can be has room for the next slot. -/
theorem Image.Coherent.sizeFor_next_le {f : Image} (hf : f.Coherent) (hsize : f.size < 2 ^ 63) :
    sizeFor (f.cells.next f.cells.used + 1) ≤ Region.maxSize :=
  Nat.le_trans (sizeFor_mono (Nat.succ_le_succ f.cells.next_le_used)) (hf.room hsize)

namespace BoardCall

variable {c : BoardCall} {x : Violation}

/-- A violation needs no longer file, unless the call abandons a slot or the file is as long as files can be. -/
theorem need_le_of_violated {f : Image} (hf : f.Coherent) (hx : (c.plan f.cells).1 = .error (.violated x))
    (hc : ¬ c.Abandons f.cells) (hsize : f.size < 2 ^ 63) : Board.need f.cells c ≤ f.size := by
  have hfits := hf.fits
  cases c with
  | table => exact hfits
  | remove => exact hfits
  | add p txn =>
    cases hp : f.cells.slot? f.cells.used p with
    | some i => simpa only [Board.need, hp, reduceCtorEq, if_false] using hfits
    | none =>
      exfalso
      rw [plan] at hx
      rcases f.cells.add_cases p txn with ⟨i, hi, -⟩ | ⟨-, ⟨hroom, heq⟩ | ⟨hroom, -⟩⟩
      · exact Option.some_ne_none i (hi.symm.trans hp)
      · rw [heq] at hx
        rcases f.cells.track_cases f.cells.used p txn with ⟨-, heq⟩ | ⟨e, -, ⟨k, -, heq⟩ | ⟨hk, -⟩⟩
        · rw [heq] at hx
          cases hx
        · rw [heq] at hx
          cases hx
        · exact hc ⟨p, txn, rfl, hp, hk, hroom⟩
      · exact hroom (hf.sizeFor_next_le hsize)

/-- After a violation the file is at most longer, exactly if the call abandons no slot. -/
theorem Does.eq_grow_iff {path : String} {calls : List CallRecord} {f g : Image}
    (h : c.Does path calls f (.error (.violated x)) g) :
    g = f.grow g.size ↔ ¬ c.Abandons f.cells := by
  generalize ho : Except.error (Halt.violated x) = o at h
  cases h with
  | refused => cases ho
  | @planned k _ _ _ hholds =>
    constructor
    · intro hgrown habandons
      rcases habandons.plan_cases with ⟨u, hu⟩ | ⟨i, e, p, hes, hlock⟩
      · rw [hu] at ho
        cases ho
      · have hcells := congrArg (fun g => g.cells (.lock i e)) hgrown
        rw [Image.cells_edits hholds, Image.cells_grow, Image.cells_grow, hlock, hes] at hcells
        exact absurd ((f.cells.lock_edit_abandon i e p).symm.trans hcells) (by decide)
    · intro hc
      rw [edits_of_error ho.symm hc]
      exact (Image.grow_size_grow f k).symm

/-- In a file that may still get longer, a violation that abandons no slot changes nothing at all. -/
theorem Does.eq_of_violated {path : String} {calls : List CallRecord} {f g : Image}
    (h : c.Does path calls f (.error (.violated x)) g) (hf : f.Coherent) (hc : ¬ c.Abandons f.cells)
    (hsize : f.size < 2 ^ 63) : g = f := by
  generalize ho : Except.error (Halt.violated x) = o at h
  cases h with
  | refused => cases ho
  | planned _ hkept =>
    rw [edits_of_error ho.symm hc]
    exact hkept (need_le_of_violated hf ho.symm hc hsize)

end BoardCall

/-! ### Requests that go elsewhere -/

/-- The handle that the request goes through or makes. -/
def Request.handle? : Request → Option String
  | openBoard name .. => some name
  | create .. => none
  | call name _ => some name
  | close name => some name
  | drop name => some name
  | setHost name _ => some name

namespace Shared

variable {s t : Shared} {f : Image} {name : String}

/-- Only what is kept under `name` differs, and not in whether it holds the advisory lock. -/
structure SameBut (name : String) (s t : Shared) : Prop where
  file : t.file? = s.file?
  handles : ∀ other, other ≠ name → t.handles.get? other = s.handles.get? other
  holds : (t.handles.get? name).map (·.region.holds) = (s.handles.get? name).map (·.region.holds)

namespace SameBut

theorem symm (h : SameBut name s t) : SameBut name t s :=
  ⟨h.file.symm, fun other hother => (h.handles other hother).symm, h.holds.symm⟩

theorem locked_of_locked (h : SameBut name s t) (hs : s.locked = true) : t.locked = true := by
  rw [locked, Named.any_eq_true_iff] at hs ⊢
  obtain ⟨other, hd, hget, hholds⟩ := hs
  by_cases hother : other = name
  · subst hother
    have hsame := h.holds
    rw [hget, Option.map_some] at hsame
    obtain ⟨hd', hget', hholds'⟩ := Option.map_eq_some_iff.mp hsame
    exact ⟨other, hd', hget', hholds'.trans hholds⟩
  · exact ⟨other, hd, (h.handles other hother).trans hget, hholds⟩

theorem locked (h : SameBut name s t) : t.locked = s.locked :=
  Bool.eq_iff_iff.mpr ⟨h.symm.locked_of_locked, h.locked_of_locked⟩

theorem found? (h : SameBut name s t) : t.found? = s.found? := by
  rw [Shared.found?, Shared.found?, h.file, h.locked]

theorem put (h : SameBut name s t) (file? : Option Image) {other : String} (hother : other ≠ name) (a : Handle) :
    SameBut name { file?, handles := s.handles.put other a } { file?, handles := t.handles.put other a } := by
  refine ⟨rfl, ?_, ?_⟩
  · intro third hthird
    by_cases heq : third = other
    · rw [heq, Named.get?_put_self, Named.get?_put_self]
    · rw [Named.get?_put_of_ne _ heq, Named.get?_put_of_ne _ heq, h.handles third hthird]
  · rw [Named.get?_put_of_ne _ hother.symm, Named.get?_put_of_ne _ hother.symm]
    exact h.holds

theorem forget (h : SameBut name s t) {other : String} (hother : other ≠ name) :
    SameBut name (s.forget other) (t.forget other) := by
  refine ⟨h.file, ?_, ?_⟩
  · intro third hthird
    by_cases heq : third = other
    · rw [heq, Shared.forget, Shared.forget, Named.get?_erase_self, Named.get?_erase_self]
    · rw [Shared.forget, Shared.forget, Named.get?_erase_of_ne _ heq, Named.get?_erase_of_ne _ heq,
        h.handles third hthird]
  · rw [Shared.forget, Shared.forget, Named.get?_erase_of_ne _ hother.symm, Named.get?_erase_of_ne _ hother.symm]
    exact h.holds

theorem scene (h : SameBut name s t) {other : String} (hother : other ≠ name) (hd : Handle) (f : Image) :
    t.scene other hd f = s.scene other hd f := by
  rw [Shared.scene, Shared.scene, (h.forget hother).locked]

theorem through (h : SameBut name s t) {other : String} (hother : other ≠ name) (g : Handle → Option (Act Scene Answer)) :
    (t.through other g).1 = (s.through other g).1 ∧ SameBut name (s.through other g).2 (t.through other g).2 := by
  cases hget : s.handles.get? other with
  | none =>
    rw [Shared.through, Shared.through, act_of_none g hget, act_of_none g ((h.handles other hother).trans hget)]
    exact ⟨rfl, h⟩
  | some hd =>
    have hget' := (h.handles other hother).trans hget
    cases hx : g hd with
    | none =>
      rw [Shared.through, Shared.through, act_of_barred hget hx, act_of_barred hget' hx]
      exact ⟨rfl, h⟩
    | some x =>
      cases hfile : s.file? with
      | none =>
        rw [Shared.through, Shared.through, act_of_missing g hfile, act_of_missing g (h.file.trans hfile)]
        exact ⟨rfl, h⟩
      | some f =>
        rw [Shared.through, Shared.through, act_of_get? hget hfile hx, act_of_get? hget' (h.file.trans hfile) hx,
          h.scene hother]
        exact ⟨rfl, h.put _ hother _⟩

theorem step [Processor] (h : SameBut name s t) {r : Request} (hr : r.handle? ≠ some name) :
    (t.step r).1 = (s.step r).1 ∧ SameBut name (s.step r).2 (t.step r).2 := by
  cases r with
  | openBoard other path host config =>
    have hother : other ≠ name := fun heq => hr (congrArg some heq)
    simp only [Shared.step, keep, h.found?]
    rcases Board.openAt path host config (.ok s.found?) with ⟨⟨_ | a, calls⟩, file?, region⟩
    · exact ⟨rfl, rfl, h.handles, h.holds⟩
    · exact ⟨rfl, h.put _ hother _⟩
  | create path host config =>
    simp only [Shared.step, h.found?, true_and]
    exact ⟨rfl, h.handles, h.holds⟩
  | call other c => exact h.through (fun heq => hr (congrArg some heq)) _
  | close other => exact h.through (fun heq => hr (congrArg some heq)) _
  | drop other =>
    have hother : other ≠ name := fun heq => hr (congrArg some heq)
    obtain ⟨hreply, hsame⟩ := h.through hother _
    exact ⟨hreply, hsame.forget hother⟩
  | setHost other host => exact h.through (fun heq => hr (congrArg some heq)) _

/-- Requests that go elsewhere get the same replies. -/
theorem run [Processor] (h : SameBut name s t) {rs : List Request} (hrs : ∀ r ∈ rs, r.handle? ≠ some name) :
    (t.run rs).1 = (s.run rs).1 := by
  induction rs generalizing s t with
  | nil => rfl
  | cons r rs ih =>
    obtain ⟨hreply, hsame⟩ := h.step (hrs r List.mem_cons_self)
    exact congrArg₂ List.cons hreply (ih hsame fun r' hr' => hrs r' (List.mem_cons_of_mem _ hr'))

end SameBut

/-! ### After a violation -/

/-- Only a call through an open handle can be a violation. -/
theorem Opened.step_violated [Processor] (hs : s.Opened f) {r : Request} {reply : Reply Answer} {x : Violation}
    (hreply : (s.step r).1 = some reply) (hx : reply.outcome = .error (.violated x)) :
    ∃ name c g h h' calls, r = .call name c ∧ (s.step r).2.Opened g ∧
      c.Does h.region.path calls f (.error (.violated x)) g ∧ s.handles.get? name = some h ∧
      (s.step r).2.handles = s.handles.put name h' ∧ h.Heard calls reply h' ∧ h'.isOpen = h.isOpen := by
  cases hr : r.call? with
  | none => exact absurd hx (((other_opened hs hr).2 reply hreply).1.ne_violated x)
  | some c =>
    obtain ⟨name, rfl⟩ := Request.call?_eq_some.mp hr
    cases hget : s.handles.get? name with
    | none =>
      rw [call_unknown hget] at hreply
      cases hreply
    | some h =>
      obtain ⟨reply', g, h', calls, hreply', hopened, hcases, hput, hheard, hopen, -⟩ := call_opened hs hget c
        fun reply' hreply' w hw => by
          obtain rfl := Option.some.inj (hreply.symm.trans hreply')
          rw [hx] at hw
          cases hw
      obtain rfl := Option.some.inj (hreply.symm.trans hreply')
      rw [hx] at hcases
      rcases hcases with ⟨-, hclosed, -⟩ | ⟨-, hdoes⟩
      · cases hclosed
      · exact ⟨name, c, g, h, h', calls, rfl, hopened, hdoes, hget, hput, hheard, hopen⟩

/-- From `t` on, requests go as they would from `s` on, where the handle under `name` may have mapped less. -/
structure GoesOn [Processor] (name : String) (s t : Shared) : Prop where
  /-- If the files are the same, requests that go elsewhere get the same replies, whatever hosts refuse. -/
  elsewhere : t.file? = s.file? → ∀ rs : List Request, (∀ r ∈ rs, r.handle? ≠ some name) → (t.run rs).1 = (s.run rs).1
  /-- If hosts refuse nothing, calls through any handle end alike. -/
  everywhere : (∀ other h, s.handles.get? other = some h → h.region.host.Willing) →
    ∀ rs : List Request, (∀ r ∈ rs, r.Willing) → (∀ reply, some reply ∈ (s.run rs).1 → reply.Unstuck) →
      (t.history rs).map Exchange.outcome? = (s.history rs).map Exchange.outcome?

/-- Two files with the same words, and the same handles but for what one of them has mapped and what its host has been
asked for. -/
theorem Opened.goesOn [Processor] {g : Image} (hs : s.Opened f) (ht : t.Opened g) (hcells : g.cells = f.cells)
    {h h' : Handle}
    (hget : s.handles.get? name = some h) (hput : t.handles = s.handles.put name h') {calls : List CallRecord}
    {reply : Reply Answer} (hheard : h.Heard calls reply h') (hopen : h'.isOpen = h.isOpen) : GoesOn name s t where
  elsewhere hfile rs hrs := by
    have hsame : SameBut name s t := by
      refine ⟨hfile, fun other hother => by rw [hput, Named.get?_put_of_ne _ hother], ?_⟩
      rw [hput, hget, Named.get?_put_self, Option.map_some, Option.map_some, hheard.holds]
    exact hsame.run hrs
  everywhere hwilling rs hrs hends := by
    have hshows : s.Shows ⟨f.cells, fun other => (s.handles.get? other).map Handle.face⟩ :=
      ⟨⟨f, hs, rfl⟩, fun _ => rfl, hwilling⟩
    refine run_alike hshows ⟨⟨g, ht, hcells⟩, fun other => ?_, ?_⟩ hrs hends
    · have hface : h'.face = h.face := by rw [Handle.face, hopen, hheard.holds]; rfl
      rw [hput, handles_update (fun _ => rfl), hface]
      exact congrFun (Function.update_eq_self_iff.mpr (by rw [hget]; rfl)) other
    · rw [hput]
      refine willing_put hwilling ?_
      rw [hheard.host]
      exact (hwilling name h hget).told calls

/-- A violation leaves every word of the file as it was, and the bytes behind them zero, exactly if the call does not
abandon a slot; and then requests go on as if it had not been made. -/
theorem run_violation [Processor] (hs : s.Fresh) {rs : List Request}
    (hends : ∀ reply, some reply ∈ (s.run rs).1 → reply.Unstuck)
    {r : Request} {reply : Reply Answer} {x : Violation} (hreply : ((s.run rs).2.step r).1 = some reply)
    (hx : reply.outcome = .error (.violated x)) :
    ∃ name c f g, r = .call name c ∧ (s.run rs).2.Opened f ∧ ((s.run rs).2.step r).2.Opened g ∧
      (g = f.grow g.size ↔ ¬ c.Abandons f.cells) ∧
      (¬ c.Abandons f.cells → (f.size < 2 ^ 63 → g = f) ∧ GoesOn name (s.run rs).2 ((s.run rs).2.step r).2) := by
  have hcases := run_cases (P := fun _ _ => True) hs rs hends (fun _ _ _ _ _ _ => trivial) fun _ _ _ _ _ _ _ _ _ => trivial
  rcases hcases with ⟨hfresh, -⟩ | ⟨f, hopened, -⟩
  · exact absurd hx ((hfresh.settled hreply).ne_violated x)
  · obtain ⟨name, c, g, h, h', calls, hr, hopened', hdoes, hget, hput, hheard, hopen⟩ := hopened.step_violated hreply hx
    have hgrown := hdoes.eq_grow_iff
    refine ⟨name, c, f, g, hr, hopened, hopened', hgrown, ?_⟩
    intro hc
    have hcells : g.cells = f.cells := by rw [hgrown.mpr hc, Image.cells_grow]
    refine ⟨?_, hopened.goesOn hopened' hcells hget hput hheard hopen⟩
    intro hsize
    exact hdoes.eq_of_violated hopened.coherent hc hsize

/-- A release without an acquisition: nothing changes, for any handle. -/
theorem run_violation_of_release :
    let release : Request := .call "a" (.table (.releaseRead ⟨5⟩ ⟨7⟩))
    ((run {} oneVersion).2.step release).1.map (·.outcome) = some (.error (.violated (.unmatchedRelease ⟨5⟩ ⟨7⟩))) ∧
      ∃ f, (run {} oneVersion).2.Opened f ∧ ((run {} oneVersion).2.step release).2.Opened f ∧
        GoesOn "a" (run {} oneVersion).2 ((run {} oneVersion).2.step release).2 := by
  intro release
  have houtcome : ((run {} oneVersion).2.step release).1.map (·.outcome) =
      some (.error (.violated (.unmatchedRelease ⟨5⟩ ⟨7⟩))) := by decide +kernel
  have hsize : (run {} oneVersion).2.file?.map (·.size) = some 640 := by decide +kernel
  obtain ⟨reply, hreply, hx⟩ := Option.map_eq_some_iff.mp houtcome
  obtain ⟨name, c, f, g, hr, hf, hg, -, hrest⟩ :=
    run_violation fresh_empty (run_unstuck fresh_empty (by decide)) hreply hx
  obtain ⟨rfl, rfl⟩ : "a" = name ∧ BoardCall.table (.releaseRead ⟨5⟩ ⟨7⟩) = c := Request.call.inj hr
  obtain ⟨hsame, hgoesOn⟩ := hrest (by rintro ⟨p, txn, hadd, -⟩; cases hadd)
  rw [hf.file] at hsize
  have hsize' : f.size = 640 := Option.some.inj hsize
  rw [hsame (by omega)] at hg
  exact ⟨houtcome, f, hf, hg, hgoesOn⟩

/-- A slot that one version has left is abandoned to a transaction without a key: it is given to the partition, and an
entry stays reserved for good. -/
theorem run_violation_of_untrackable :
    let rs := oneVersion ++ [.call "a" (.remove ⟨5⟩ ⟨7⟩)]
    let add : Request := .call "a" (.add ⟨6⟩ ⟨18446744073709551615⟩)
    let words : Shared → Option (UInt64 × UInt64) := fun s => s.file?.map fun f =>
      (f.cells (.partition 0), f.cells (.lock 0 ⟨0, by decide⟩))
    ((run {} rs).2.step add).1.map (·.outcome) = some (.error (.violated (.untrackable ⟨18446744073709551615⟩))) ∧
      words (run {} rs).2 = some (5, 0) ∧ words ((run {} rs).2.step add).2 = some (6, LockWord.reservedBit) := by
  decide +kernel

end Shared

end VersionBoard
