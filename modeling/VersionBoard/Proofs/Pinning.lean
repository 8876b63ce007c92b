import VersionBoard.Proofs.Ledger

/-!
# Versions in use stay

An entry with a lock word that is not zero is kept by every call, through
whatever handle, and even while attempts on free entries are pending
(`Takes.keeps`). So a version that was acquired stays where it is until it is
released, and cannot be removed (`Shared.run_pins`).
-/

namespace VersionBoard

/-! ### Pending attempts -/

/-- Free entries of the file have the given lock words, where attempts on their last versions are pending. -/
def Image.Frees (f : Image) (ws : List (Cell × UInt64)) : Prop := ∀ x ∈ ws, ∃ i e, x.1 = .lock i e ∧ f.cells (.key i e) = 0

/-- A table is coherent whatever the lock words of its free entries are. -/
theorem Words.Coherent.of_free {w u : Words} (h : w.Coherent)
    (hsame : ∀ c, (∀ i e, c = .lock i e → w (.key i e) ≠ 0) → u c = w c) : u.Coherent := by
  have hword : ∀ {c : Cell}, (∀ i e, c ≠ .lock i e) → u c = w c := fun hc =>
    hsame _ fun i e heq => absurd heq (hc i e)
  have hkey : ∀ i e, u (.key i e) = w (.key i e) := fun i e => hword (by simp)
  have hstate : ∀ i, u (.state i) = w (.state i) := fun i => hword (by simp)
  have hpartition : ∀ i, u (.partition i) = w (.partition i) := fun i => hword (by simp)
  have hlock : ∀ i e, w (.key i e) ≠ 0 → u (.lock i e) = w (.lock i e) := fun i e hk =>
    hsame _ fun j d heq => by
      obtain ⟨rfl, rfl⟩ := Cell.lock.inj heq
      exact hk
  have hused : u.used = w.used := congrArg UInt64.toNat (hword (by simp))
  have hlive : ∀ i, u.Live i ↔ w.Live i := fun i => by rw [Live, Live, hstate]
  have htracks : ∀ i p, u.Tracks i p ↔ w.Tracks i p := fun i p => by rw [Tracks, Tracks, hlive, hpartition]
  have hheld : ∀ i e, u.heldAt i e = w.heldAt i e := by
    intro i e
    rw [heldAt, heldAt, hkey]
    split_ifs with hk
    · rfl
    · rw [hlock i e hk]
  exact {
    known := by
      intro i hi
      rw [hlive, hstate]
      exact h.known i (hused ▸ hi)
    unused := fun i hi => (hstate i).trans (h.unused i (hused ▸ hi))
    counted := by
      rw [hword (c := .liveSlots) (by simp), liveCount, hused]
      simp only [hlive]
      exact h.counted
    unique := fun i j p hi hj => h.unique i j p ((htracks i p).mp hi) ((htracks j p).mp hj)
    peopled := by
      intro i
      simp only [hlive, hkey]
      exact h.peopled i
    apart := by
      intro i d e hd heq
      rw [hkey] at hd heq
      rw [hkey] at heq
      exact h.apart i d e hd heq
    proper := by
      intro i e hk
      rw [hkey] at hk
      rw [hlock i e hk]
      exact h.proper i e hk
    tallied := by
      rw [hword (c := .readLocks) (by simp), readerTotal, hused]
      simp only [hheld]
      exact h.tallied
    headerFree := (hword (c := .headerLock) (by simp)).trans h.headerFree
    slotsFree := fun i => (hword (c := .slotLock i) (by simp)).trans (h.slotsFree i) }

theorem Image.Coherent.setCells {f : Image} (h : f.Coherent) {ws : List (Cell × UInt64)} (hws : f.Frees ws) :
    (f.setCells ws).Coherent := by
  have hsame : ∀ c, (∀ i e, c = .lock i e → f.cells (.key i e) ≠ 0) → (f.setCells ws).cells c = f.cells c := by
    intro c hc
    refine Image.word_setCells_of_ne f ?_
    intro x hx heq
    obtain ⟨i, e, hxc, hk⟩ := hws x hx
    exact hc i e (by rw [← Cell.offset_div_inj heq, hxc]) hk
  have hused : (f.setCells ws).cells.used = f.cells.used := congrArg UInt64.toNat (hsame _ (by simp))
  exact {
    signed := (Image.read_signature_setCells f ws).trans h.signed
    fits := by
      rw [hused, Image.size_setCells]
      exact h.fits
    size_le := by
      rw [Image.size_setCells]
      exact h.size_le
    table := h.table.of_free hsame }

namespace Shared

variable {s t : Shared} {f g : Image}

/-- The file as it is while attempts on free entries are pending. -/
def pend (s : Shared) (ws : List (Cell × UInt64)) : Shared :=
  { s with file? := s.file?.map (·.setCells ws) }

theorem Opened.pend (hs : s.Opened f) {ws : List (Cell × UInt64)} (hws : f.Frees ws) :
    (s.pend ws).Opened (f.setCells ws) where
  file := by
    rw [Shared.pend, hs.file]
    rfl
  coherent := hs.coherent.setCells hws
  handles name h hname := by
    rw [Image.size_setCells]
    exact hs.handles name h hname

/-! ### One request -/

/-- Whatever is requested, an entry in use is kept. -/
theorem Takes.keeps {r : Request} {reply? : Option (Reply Answer)} (ht : s.Takes f r reply? g) (hf : f.Coherent)
    {i : Nat} {e : EntryIndex} (hl : f.cells (.lock i e) ≠ 0) : f.cells.Keeps g.cells i e := by
  cases ht with
  | @call _ c _ _ _ _ _ _ _ hdoes =>
    rcases hdoes.cells_cases with ⟨-, hcells⟩ | ⟨-, -, hcells⟩
    · rw [hcells]
      exact .refl ..
    · rw [hcells]
      exact c.keeps_plan hf.table hl
  | _ => exact .refl ..

end Shared

/-! ### Versions in use -/

/-- The version of `p` with key `k` is registered in entry `e` of slot `i`, and somebody holds it. -/
structure Image.InUse (f : Image) (p : Partition) (k : UInt64) (i : Nat) (e : EntryIndex) : Prop where
  tracks : f.cells.Tracks i p
  key : f.cells (.key i e) = k
  lock : f.cells (.lock i e) ≠ 0

theorem Words.Ledger.holding_ne_zero {w : Words} {h : List Exchange} (hl : w.Ledger h) {mode : LockMode} {p : Partition}
    {txn : Txn} {k : UInt64} (hk : txn.key? = some k) (hpos : 0 < balance h mode p txn) : w.holding p k ≠ 0 := by
  intro h0
  rw [← hl.held mode p txn k hk, h0, LockWord.held_zero] at hpos
  exact absurd hpos (by decide)

namespace Shared

variable {s t : Shared} {f g : Image} {mode : LockMode} {p : Partition} {txn : Txn} {k : UInt64} {i : Nat} {e : EntryIndex}

theorem Opened.answers_of_inUse [Processor] (ht : t.Opened f) (hk : txn.key? = some k) (hf : f.InUse p k i e) :
    t.Answers (.table (.slotOfVersion p txn)) (.slot (some i)) ∧ t.Answers (.remove p txn) (.flag false) := by
  have hk0 := Txn.ne_zero_of_key? hk
  constructor
  · have hat := (ht.coherent.table.at?_eq_some_iff hk0).mpr ⟨hf.tracks, hf.key⟩
    have hslot := ht.answers_slotOfVersion (p := p) hk
    rwa [hat] at hslot
  · have hplan : (BoardCall.remove p txn).plan f.cells = (.ok (.flag false), []) := by
      rw [BoardCall.plan, Words.untrack, ht.coherent.table.slot?_eq_some_iff.mpr hf.tracks]
      dsimp only
      rw [Words.unregister, Words.withKey, hk]
      dsimp only
      rw [(ht.coherent.table.entryWith?_eq_some_iff hk0).mpr hf.key]
      dsimp only
      rw [if_neg hf.lock]
      rfl
    exact ht.gets (by rw [hplan]; exact Plan.ends_ok _ _) fun _ _ => congrArg Prod.fst hplan

/-- After a run a version with a lock out is in use somewhere. -/
theorem run_inUse [Processor] (hs : s.Fresh) {rs : List Request} (hkeys : ∀ r ∈ rs, r.Trackable)
    (hk : txn.key? = some k) (hpos : 0 < balance (s.history rs) mode p txn) :
    ∃ f, (s.run rs).2.Opened f ∧ f.Sound ∧ f.cells.holding p k ≠ 0 ∧ ∃ i e, f.InUse p k i e := by
  rcases run_booked hs hkeys with ⟨-, hnone⟩ | ⟨f, ht, hf, hl⟩
  · rw [balance_of_fruitless fun x hx => (hnone x hx).1] at hpos
    exact absurd hpos (Int.lt_irrefl 0)
  · have hne := hl.holding_ne_zero hk hpos
    obtain ⟨i, e, hp, he, hlock⟩ := hf.table.exists_of_holding (Txn.ne_zero_of_key? hk) hne
    exact ⟨f, ht, hf, hne, i, e, hp, he, by rwa [hlock]⟩

/-- As long as a lock of a version is out, the version stays where it is. -/
theorem run_stays [Processor] (hs : s.Fresh) {rs ds : List Request} (hkeys : ∀ r ∈ rs ++ ds, r.Trackable)
    (hk : txn.key? = some k)
    (hpos : ∀ es, es <+: ds → 0 < balance (s.history (rs ++ es)) mode p txn) (hrs : (s.run rs).2.Opened f)
    (hf : f.InUse p k i e) {es : List Request} (hes : es <+: ds) :
    ∃ g, (s.run (rs ++ es)).2.Opened g ∧ g.InUse p k i e := by
  induction es using List.reverseRecOn with
  | nil => exact ⟨f, by rwa [List.append_nil], hf⟩
  | append_singleton es r ih =>
    obtain ⟨g, hg, huse⟩ := ih ((List.prefix_append es [r]).trans hes)
    have hkeys' : ∀ r' ∈ rs ++ (es ++ [r]), r'.Trackable := fun r' hr' =>
      hkeys r' (((List.prefix_append_right_inj rs).mpr hes).subset hr')
    obtain ⟨g', hg', hsound, hne, -⟩ := run_inUse hs hkeys' hk (hpos _ hes)
    rw [← List.append_assoc] at hg' hkeys' ⊢
    have hends : ∀ reply, ((s.run (rs ++ es)).2.step r).1 = some reply → reply.Unstuck := fun reply hreply =>
      run_unstuck hs hkeys' reply (by
        rw [replies_concat, hreply]
        exact List.mem_append_right _ List.mem_cons_self)
    obtain ⟨u, hu, htakes⟩ := step_opened hg r hends
    have hkeeps := htakes.keeps hg.coherent huse.lock
    rw [run_concat] at hg' ⊢
    have hug : u = g' := by
      have hfile := hu.file.symm.trans hg'.file
      simpa using hfile
    subst hug
    have hkey : u.cells (.key i e) = k := hkeeps.key.trans huse.key
    have htracks := hkeeps.tracks (by rw [huse.key]; exact Txn.ne_zero_of_key? hk) p huse.tracks
    refine ⟨u, hu, htracks, hkey, ?_⟩
    rwa [← hsound.table.holding_eq (Txn.ne_zero_of_key? hk) htracks hkey]

/-- In the run no more of the locks are given back than are acquired in it: those that were out before it stay out. -/
def Retains [Processor] (s : Shared) (ds : List Request) (mode : LockMode) (p : Partition) (txn : Txn) : Prop :=
  ∀ es, es <+: ds → 0 ≤ balance (s.history es) mode p txn

/-- A granted acquisition, and what follows until the release, leave the balance positive. -/
theorem balance_of_grants [Processor] (hs : s.Fresh) {rs ds : List Request} {r : Request}
    (hkeys : ∀ r' ∈ rs, r'.Trackable)
    (hk : txn.key? = some k) (hgrants : (Exchange.mk r ((s.run rs).2.step r).1).Grants mode p txn)
    (hretains : ((s.run rs).2.step r).2.Retains ds mode p txn) {es : List Request} (hes : es <+: ds) :
    0 < balance (s.history (rs ++ [r] ++ es)) mode p txn := by
  have hbefore : 0 ≤ balance (s.history rs) mode p txn := by
    rcases run_booked hs hkeys with ⟨-, hnone⟩ | ⟨f, -, -, hl⟩
    · rw [balance_of_fruitless fun x hx => (hnone x hx).1]
    · rw [← hl.held mode p txn k hk]
      exact Int.natCast_nonneg _
  have hreturns : ¬ (Exchange.mk r ((s.run rs).2.step r).1).Returns mode p txn := fun h =>
    nomatch Option.some.inj (h.2.symm.trans hgrants.2)
  have hafter := hretains es hes
  rw [history_append, balance_append, history_concat, balance_concat, run_concat, Exchange.weight_eq, if_pos hgrants,
    if_neg hreturns]
  omega

/-- An entry in use is kept by every request, also while attempts on free entries are pending. Hence a version
that was acquired stays in its slot and is not removed until it is released. -/
theorem run_pins [Processor] (hs : s.Fresh) :
    (∀ rs, (∀ r ∈ rs, r.Trackable) → (∃ x ∈ s.history rs, x.Opens) → ∃ f, (s.run rs).2.Opened f ∧
      ∀ ws, f.Frees ws → ∀ r, (∀ reply, (((s.run rs).2.pend ws).step r).1 = some reply → reply.Unstuck) →
        ∃ g, (((s.run rs).2.pend ws).step r).2.Opened g ∧
          ∀ i e, (f.setCells ws).cells (.lock i e) ≠ 0 → (f.setCells ws).cells.Keeps g.cells i e) ∧
    ∀ rs r ds mode p txn, (∀ r' ∈ rs ++ [r] ++ ds, r'.Trackable) →
      (Exchange.mk r ((s.run rs).2.step r).1).Grants mode p txn → ((s.run rs).2.step r).2.Retains ds mode p txn →
      ∃ i e k, txn.key? = some k ∧ ∀ es, es <+: ds →
        (∃ g, (((s.run rs).2.step r).2.run es).2.Opened g ∧ g.InUse p k i e) ∧
        (((s.run rs).2.step r).2.run es).2.Answers (.table (.slotOfVersion p txn)) (.slot (some i)) ∧
        (((s.run rs).2.step r).2.run es).2.Answers (.remove p txn) (.flag false) := by
  constructor
  · intro rs hkeys hopens
    rcases run_booked hs hkeys with ⟨-, hnone⟩ | ⟨f, ht, -, -⟩
    · obtain ⟨x, hx, hx'⟩ := hopens
      exact absurd hx' (hnone x hx).2
    refine ⟨f, ht, ?_⟩
    intro ws hws r hends
    have hpend := ht.pend hws
    obtain ⟨g, hg, htakes⟩ := step_opened hpend r hends
    exact ⟨g, hg, fun i e hl => htakes.keeps hpend.coherent hl⟩
  · intro rs r ds mode p txn hkeys hgrants hretains
    have hrs : ∀ r' ∈ rs, r'.Trackable := fun r' hr' => hkeys r' (List.mem_append_left _ (List.mem_append_left _ hr'))
    have hr : ∀ r' ∈ rs ++ [r], r'.Trackable := fun r' hr' => hkeys r' (List.mem_append_left _ hr')
    have htxn : txn.number ≤ Txn.max.number := by
      have htrack := hkeys r (List.mem_append_left _ (List.mem_append_right _ List.mem_cons_self)) _ hgrants.1
      cases mode with
      | read => exact htrack txn rfl
      | write => exact htrack txn rfl
    have hk := Txn.key?_of_le htxn
    have hpos := fun es (hes : es <+: ds) => balance_of_grants hs hrs hk hgrants hretains hes
    have hfirst := hpos [] List.nil_prefix
    rw [List.append_nil] at hfirst
    obtain ⟨f, hf, -, -, i, e, huse⟩ := run_inUse hs hr hk hfirst
    refine ⟨i, e, _, hk, ?_⟩
    intro es hes
    obtain ⟨g, hg, huse'⟩ := run_stays hs hkeys hk hpos hf huse hes
    rw [run_append, run_concat] at hg
    exact ⟨⟨g, hg, huse'⟩, hg.answers_of_inUse hk huse'⟩

/-- A pending attempt is left alone by a registration beside it; a version with a reader stays through a removal,
a closing and a reopening. -/
theorem run_pins_of_reader :
    let e₁ : EntryIndex := ⟨1, by decide⟩
    let read : Request := .call "a" (.table (.acquireRead ⟨5⟩ ⟨7⟩))
    (∃ f g, (run {} oneVersion).2.Opened f ∧
      (((run {} oneVersion).2.pend [(.lock 0 e₁, 5)]).step (.call "a" (.add ⟨5⟩ ⟨8⟩))).2.Opened g ∧
      (f.setCells [(.lock 0 e₁, 5)]).cells.Keeps g.cells 0 e₁) ∧
    ∃ i e k, Txn.key? ⟨7⟩ = some k ∧ ∃ g, (((run {} oneVersion).2.step read).2.run
      [.call "a" (.remove ⟨5⟩ ⟨7⟩), .close "a", .create "board" .willing .default]).2.Opened g ∧ g.InUse ⟨5⟩ k i e := by
  intro e₁ read
  obtain ⟨hpending, hheld⟩ := run_pins fresh_empty
  constructor
  · obtain ⟨f, hf, hkeeps⟩ := hpending oneVersion (by decide) (by decide +kernel)
    have hfree : (run {} oneVersion).2.file?.map (fun f => f.cells (.key 0 e₁)) = some 0 := by decide +kernel
    have hfrees : f.Frees [(.lock 0 e₁, 5)] := by
      intro x hx
      rw [hf.file] at hfree
      exact ⟨0, e₁, congrArg Prod.fst (List.mem_singleton.mp hx), Option.some.inj hfree⟩
    have houtcome : (((run {} oneVersion).2.pend [(.lock 0 e₁, 5)]).step (.call "a" (.add ⟨5⟩ ⟨8⟩))).1.map (·.outcome) =
        some (.ok (.flag true)) := by decide +kernel
    obtain ⟨g, hg, hall⟩ := hkeeps _ hfrees (.call "a" (.add ⟨5⟩ ⟨8⟩)) fun reply hreply w hw => by
      rw [hreply, Option.map_some, hw] at houtcome
      cases houtcome
    have hlock : (run {} oneVersion).2.file?.map (fun f => (f.setCells [(.lock 0 e₁, 5)]).cells (.lock 0 e₁)) =
        some 5 := by decide +kernel
    rw [hf.file] at hlock
    have hfive : (f.setCells [(.lock 0 e₁, 5)]).cells (.lock 0 e₁) = 5 := Option.some.inj hlock
    exact ⟨f, g, hf, hg, hall 0 e₁ (by rw [hfive]; decide)⟩
  · have hretains : ∀ es ∈ List.inits
        [.call "a" (.remove ⟨5⟩ ⟨7⟩), .close "a", .create "board" .willing .default],
        0 ≤ balance (((run {} oneVersion).2.step read).2.history es) .read ⟨5⟩ ⟨7⟩ := by decide +kernel
    obtain ⟨i, e, k, hk, hall⟩ := hheld oneVersion read _ .read ⟨5⟩ ⟨7⟩ (by decide) (by decide +kernel)
      fun es hes => hretains es ((List.mem_inits _ _).mpr hes)
    exact ⟨i, e, k, hk, (hall _ (List.prefix_refl _)).1⟩

end Shared

end VersionBoard
