import VersionBoard.Proofs.Isolation
import VersionBoard.Proofs.NewBoards

/-!
# How far a board reaches

A slot that retires is given away again before a new one is put to use, so as
many slots are in use as partitions were ever tracked at a time, in whatever
order they came and went. A file gets longer only when a slot is wanted that
does not fit, and then it becomes twice as long as it must be; an attempt that
failed half-way, or a handle that has mapped little, does not make it longer
once more (`Image.Widens`). So its length is known but for the factor of two
(`Shared.run_extent`).
-/

namespace VersionBoard

/-! ### Slots in use -/

namespace Words

variable {w : Words} {es : List Edit} {c : BoardCall}

/-- If there is no retired slot to give away, all used slots are live. -/
theorem Coherent.liveCount_of_next (h : w.Coherent) (hnext : w.next w.used = w.used) : w.liveCount = w.used := by
  have hnone : (List.range w.used).find? (fun i => w (.state i) = SlotState.retired) = none := by
    by_contra hsome
    obtain ⟨i, hi⟩ := Option.ne_none_iff_exists'.mp hsome
    have hlt := List.mem_range.mp (List.mem_of_find?_eq_some hi)
    rw [next, hi] at hnext
    exact absurd hnext (Nat.ne_of_lt hlt)
  have hlive : ∀ i, i < w.used → w.Live i := by
    intro i hi
    refine (h.known i hi).resolve_right ?_
    simpa using List.find?_eq_none.mp hnone i (List.mem_range.mpr hi)
  rw [liveCount, Finset.filter_true_of_mem fun i hi => hlive i (Finset.mem_range.mp hi), Finset.card_range]

/-- An edit that names no slot puts none to use. -/
theorem used_edits_of_named (ha : w.Allows es) (hes : ∀ ed ∈ es, ed.named = none) : (w.edits es).used = w.used := by
  induction es generalizing w with
  | nil => rfl
  | cons ed es ih =>
    refine (ih ha.2 fun d hd => hes d (List.mem_cons_of_mem _ hd)).trans ?_
    have hnamed := hes ed List.mem_cons_self
    rw [used_edit ha.1, if_neg]
    intro hstated
    cases ed with
    | track => cases hnamed
    | retire => simp [Edit.stated, SlotState.live, SlotState.retired] at hstated
    | _ => cases hstated

/-- A call names no slot, or all that it does is to give the next slot away. -/
theorem Calm.names (h : w.Calm) (hroom : sizeFor (w.used + 1) ≤ Region.maxSize) (hc : c.Trackable) :
    (∀ ed ∈ (c.plan w).2, ed.named = none) ∨ ∃ e p k, (c.plan w).2 = [.track (w.next w.used) e p k] := by
  by_cases hnamed : ∀ ed ∈ (c.plan w).2, ed.named = none
  · exact .inl hnamed
  · right
    push Not at hnamed
    obtain ⟨ed, hed, hsome⟩ := hnamed
    obtain ⟨p, hp, ⟨-, hnone⟩ | ⟨hslot, -⟩⟩ := BoardCall.of_mem_plan hed
    · exact absurd hnone hsome
    · by_cases hadd : ∃ txn, c = .add p txn
      · obtain ⟨txn, rfl⟩ := hadd
        obtain ⟨e, -, hplan⟩ := h.plan_add hslot hroom (Txn.key?_of_le (hc txn rfl))
        exact ⟨e, p, _, congrArg Prod.snd hplan⟩
      · have hnil := (plan_of_slot?_eq_none hslot hslot hp fun txn heq => hadd ⟨txn, heq⟩).2
        rw [hnil] at hed
        cases hed

/-- A call puts at most one slot more to use, and only if all used slots are live then. -/
theorem Calm.used_tell (h : w.Calm) (hroom : sizeFor (w.used + 1) ≤ Region.maxSize) (hc : c.Trackable) :
    (w.tell c).used = w.used ∨ (w.tell c).used = w.used + 1 ∧ (w.tell c).liveCount = (w.tell c).used := by
  have hallows := c.allows_plan h.toCoherent
  rw [Words.tell]
  rcases h.names hroom hc with hnamed | ⟨e, p, k, hplan⟩
  · exact .inl (used_edits_of_named hallows hnamed)
  · rw [hplan] at hallows ⊢
    have hused : (w.edit (.track (w.next w.used) e p k)).used = if w.next w.used = w.used then w.used + 1 else w.used := by
      simpa [Edit.stated] using used_edit hallows.1
    show (w.edit (.track (w.next w.used) e p k)).used = w.used ∨ (w.edit (.track (w.next w.used) e p k)).used = w.used + 1 ∧
      (w.edit (.track (w.next w.used) e p k)).liveCount = (w.edit (.track (w.next w.used) e p k)).used
    rw [hused]
    split_ifs with hnext
    · have hcount := liveCount_edit_track h.toCoherent hallows.1 rfl
      rw [h.liveCount_of_next hnext] at hcount
      exact .inr ⟨rfl, hcount⟩
    · exact .inl rfl

end Words

/-! ### One request -/

namespace Region

variable {required size : Nat}

theorem size_le_roomFor (hmax : size ≤ maxSize) : size ≤ roomFor required size := by
  unfold roomFor grownSize
  split_ifs <;> omega

end Region

/-- What a request can do to how far a board reaches: one slot more is in use only if all slots are live then, and the
file gets longer only for a slot that does not fit. -/
structure Image.Widens (f g : Image) : Prop where
  used : g.cells.used = f.cells.used ∨ g.cells.used = f.cells.used + 1 ∧ g.cells.liveCount = g.cells.used
  size : g.size = f.size ∨
    ∃ n, f.size < n ∧ n ≤ sizeFor (f.cells.used + 1) ∧ g.size = Region.grownSize n

theorem Image.Widens.refl (f : Image) : f.Widens f := ⟨.inl rfl, .inl rfl⟩

/-- What becomes longer becomes more than twice as long, as long as a length is far from the largest there can be. -/
theorem Image.Widens.size_cases {f g : Image} (h : f.Widens g) (hsize : g.size < 2 ^ 63) :
    g.size = f.size ∨ 2 * f.size < g.size ∧ g.size ≤ 2 * sizeFor (f.cells.used + 1) := by
  rcases h.size with hsame | ⟨n, hlt, hn, hgrown⟩
  · exact .inl hsame
  · right
    have hmax : Region.maxSize = 2 ^ 64 - 1 := rfl
    rw [Region.grownSize] at hgrown
    omega

/-- No call needs the file to hold more than one slot more than are in use. -/
theorem Board.need_le (w : Words) (c : BoardCall) : need w c ≤ sizeFor (w.used + 1) := by
  have hused := sizeFor_mono (Nat.le_succ w.used)
  have hnext := sizeFor_mono (Nat.succ_le_succ w.next_le_used)
  cases c with
  | add p txn =>
    rw [need]
    split_ifs
    · exact hnext
    · exact hused
  | _ => exact hused

theorem BoardCall.Does.widens {c : BoardCall} {path : String} {calls : List CallRecord} {f g : Image}
    {o : Except Halt Answer} (h : c.Does path calls f o g) (hf : f.Sound) (hc : c.Trackable)
    (hsize : f.size < 2 ^ 63) : f.Widens g where
  used := by
    rcases h.cells_cases with ⟨-, hcells⟩ | ⟨-, -, hcells⟩
    · exact .inl (by rw [hcells])
    · rw [show g.cells = f.cells.tell c from hcells]
      exact Words.Calm.used_tell ⟨hf.table, hf.idle⟩ (hf.room hsize) hc
  size := by
    have hneed := Board.need_le f.cells c
    have hcases : g.size = f.size ∨ g.size = Region.roomFor (Board.need f.cells c) f.size := by
      cases h with
      | refused _ _ _ hsize => exact hsize
      | planned _ _ _ _ hsize =>
        rw [Image.size_edits]
        exact .inr hsize
    refine hcases.elim .inl fun hroom => ?_
    rw [hroom, Region.roomFor]
    split_ifs with hle
    · exact .inl rfl
    · exact .inr ⟨_, Nat.lt_of_not_le hle, hneed, rfl⟩

namespace Shared

variable {s t : Shared} {f g : Image} {r : Request} {rs ds es : List Request}

theorem Takes.widens {reply? : Option (Reply Answer)} (h : s.Takes f r reply? g) (hf : f.Sound) (hr : r.Trackable)
    (hsize : f.size < 2 ^ 63) : f.Widens g := by
  cases h with
  | call _ _ _ hdoes => exact hdoes.widens hf (hr _ rfl) hsize
  | _ => exact .refl f

theorem Takes.size_le {reply? : Option (Reply Answer)} (h : s.Takes f r reply? g) : f.size ≤ g.size := by
  cases h with
  | call _ _ _ hdoes => exact hdoes.size_le
  | _ => exact Nat.le_refl _

/-! ### Lengths -/

/-- How long the file is. -/
def length (s : Shared) : Nat := Image.lengthOf s.file?

theorem Opened.length_eq (hs : s.Opened f) : s.length = f.size := by
  rw [length, hs.file]
  rfl

/-- A board that was just set up is as long as its file was, or long enough for one slot. -/
theorem newSize_le (policy : Policy) (n : Nat) : Board.newSize policy n ≤ max n (2 * sizeFor 1) := by
  have hcases : sizeFor policy.initialPartitions = 64 ∨ sizeFor policy.initialPartitions = 320 := by
    cases policy <;> decide
  have hone : sizeFor 1 = 320 := rfl
  have hheader : headerSize = 64 := rfl
  simp only [Board.newSize, Region.roomFor, Region.grownSize]
  rcases hcases with h | h <;> rw [h] <;> split_ifs <;> omega

theorem le_newSize (policy : Policy) {n : Nat} (hn : n ≤ Region.maxSize) : n ≤ Board.newSize policy n := by
  have hmax : max n headerSize ≤ Region.maxSize := Nat.max_le.mpr ⟨hn, by decide⟩
  exact Nat.le_trans (Nat.le_max_left ..) (Region.size_le_roomFor hmax)

/-- When a board is set up or should have been, the file gets no shorter, and no longer than one slot needs it. -/
theorem Fresh.length_step_of_opens [Processor] (hs : s.Fresh) {path : String} {host : Host} {config : Config}
    (hr : r.Opens path host config) :
    s.length ≤ (s.step r).2.length ∧ (s.step r).2.length ≤ max s.length (2 * sizeFor 1) := by
  have hmax : Image.lengthOf s.file? ≤ Region.maxSize := Image.lengthOf_le fun f hfile => (hs.file f hfile).2
  rw [length, length, (step_of_opens hr s).2, found?]
  rcases Board.opening_of_blank r.gentle_onceOpen path host config hs.file s.locked with
    ⟨t, m, ⟨k, n, hk, himage, -⟩, -, -, hfile, -⟩ | ⟨-, hblank, hsize, hle⟩
  · have hlength : Image.lengthOf (some t.file.image) = k := by
      rw [Image.lengthOf, Option.getD_some, himage, Image.size_newBoard]
    rw [hfile, hlength, hk]
    exact ⟨le_newSize _ hmax, newSize_le _ _⟩
  · refine ⟨hle, ?_⟩
    have hmax' : Image.lengthOf (Board.opening path host config (.ok s.found?) r.onceOpen).2.1 ≤ Region.maxSize :=
      Image.lengthOf_le fun f hfile => (hblank f hfile).2
    calc Image.lengthOf (Board.opening path host config (.ok s.found?) r.onceOpen).2.1
        ≤ Board.newSize config.policy (Image.lengthOf (Board.opening path host config (.ok s.found?) r.onceOpen).2.1) :=
          le_newSize _ hmax'
      _ = Board.newSize config.policy (Image.lengthOf s.file?) := hsize
      _ ≤ max (Image.lengthOf s.file?) (2 * sizeFor 1) := newSize_le _ _

/-- Before a board is set up, and when it is, a file gets no shorter, and no longer than one slot needs it. -/
theorem Fresh.length_step [Processor] (hs : s.Fresh) (r : Request) :
    s.length ≤ (s.step r).2.length ∧ (s.step r).2.length ≤ max s.length (2 * sizeFor 1) := by
  have hsame : (s.step r).2.file? = s.file? →
      s.length ≤ (s.step r).2.length ∧ (s.step r).2.length ≤ max s.length (2 * sizeFor 1) := by
    intro hfile
    rw [length, length, hfile]
    exact ⟨Nat.le_refl _, Nat.le_max_left ..⟩
  cases r with
  | openBoard name path host config => exact hs.length_step_of_opens (.keep name)
  | create path host config => exact hs.length_step_of_opens .create
  | call name c => exact hsame (congrArg (·.2.file?) (hs.through _))
  | close name => exact hsame (file?_close s name)
  | drop name => exact hsame (file?_close s name)
  | setHost name host => exact hsame (congrArg (·.2.file?) (hs.through _))

/-- A request makes the file no shorter. -/
theorem length_le_step [Processor] (hs : s.Fresh ∨ ∃ f, s.Opened f ∧ f.Sound) (r : Request) :
    s.length ≤ (s.step r).2.length := by
  rcases hs with hfresh | ⟨f, hf, hsound⟩
  · exact (hfresh.length_step r).1
  · obtain ⟨g, hg, htakes⟩ := step_opened hf r (hf.unstuck hsound r)
    rw [hf.length_eq, hg.length_eq]
    exact htakes.size_le

theorem Fresh.length_le_run [Processor] (hs : s.Fresh) (hkeys : ∀ r ∈ rs ++ ds, r.Trackable) :
    (s.run rs).2.length ≤ (s.run (rs ++ ds)).2.length := by
  induction ds using List.reverseRecOn with
  | nil => rw [List.append_nil]
  | append_singleton ds r ih =>
    rw [← List.append_assoc] at hkeys ⊢
    have hbefore : ∀ d ∈ rs ++ ds, d.Trackable := fun d hd => hkeys d (List.mem_append_left _ hd)
    rw [run_concat]
    exact Nat.le_trans (ih hbefore) (length_le_step ((run_fresh_or_sound hs hbefore).imp_left And.left) r)

/-! ### Runs -/

/-- What the file holds in the course of a run, from the first successful opening on. -/
def boards [Processor] (s : Shared) (rs : List Request) : Set Image :=
  {f | ∃ ds, ds <+: rs ∧ (∃ x ∈ s.history ds, x.Opens) ∧ (s.run ds).2.file? = some f}

theorem boards_eq_empty [Processor] (hnone : ∀ x ∈ s.history rs, ¬ x.Opens) : s.boards rs = ∅ := by
  refine Set.eq_empty_of_forall_notMem ?_
  rintro f ⟨ds, ⟨es, rfl⟩, hopens, -⟩
  obtain ⟨x, hx, hx'⟩ := opens_append hopens es
  exact hnone x hx hx'

theorem boards_concat [Processor] (hopens : ∃ x ∈ s.history (rs ++ [r]), x.Opens)
    (hg : (s.run (rs ++ [r])).2.Opened g) : s.boards (rs ++ [r]) = insert g (s.boards rs) := by
  ext f
  simp only [boards, List.prefix_concat_iff, Set.mem_insert_iff, Set.mem_ofPred_eq]
  constructor
  · rintro ⟨ds, rfl | hds, hopens', hf⟩
    · rw [hg.file] at hf
      exact .inl (Option.some.inj hf).symm
    · exact .inr ⟨ds, hds, hopens', hf⟩
  · rintro (rfl | ⟨ds, hds, hopens', hf⟩)
    · exact ⟨_, .inl rfl, hopens, hg.file⟩
    · exact ⟨ds, .inr hds, hopens', hf⟩

/-- The board has as many slots in use as partitions were ever tracked at a time, and is no longer than that takes, or
than the file was at first. -/
structure Spans [Processor] (s : Shared) (rs : List Request) (f : Image) : Prop where
  opens : ∃ x ∈ s.history rs, x.Opens
  greatest : IsGreatest ((fun g => (g.cells .liveSlots).toNat) '' s.boards rs) f.cells.used
  size_le : f.size ≤ max (max s.length 64) (2 * sizeFor (f.cells.used + 1))

/-- The first board spans its policy's partitions. -/
theorem Spans.new [Processor] {policy : Policy} {k : Nat} (hroom : sizeFor policy.initialPartitions ≤ k)
    (hnone : ∀ x ∈ s.history rs, ¬ x.Opens) (hopens : ∃ x ∈ s.history (rs ++ [r]), x.Opens)
    (hg : (s.run (rs ++ [r])).2.Opened (Image.newBoard policy k)) (hk : k ≤ max s.length (2 * sizeFor 1)) :
    s.Spans (rs ++ [r]) (Image.newBoard policy k) where
  opens := hopens
  greatest := by
    have hlive : ((Image.newBoard policy k).cells .liveSlots).toNat = (Image.newBoard policy k).cells.used := by
      rw [Words.used, Image.cells_newBoard hroom]
      cases policy <;> rfl
    rw [boards_concat hopens hg, boards_eq_empty hnone, insert_empty_eq, Set.image_singleton, hlive]
    exact isGreatest_singleton
  size_le := by
    have hone := sizeFor_mono (Nat.le_add_left 1 (Image.newBoard policy k).cells.used)
    rw [Image.size_newBoard]
    omega

/-- A request that widens the board leaves it spanning what it must. -/
theorem Spans.step [Processor] (h : s.Spans rs f) (hwidens : f.Widens g) (hg : (s.run (rs ++ [r])).2.Opened g)
    (hsize : g.size < 2 ^ 63) : s.Spans (rs ++ [r]) g where
  opens := opens_append h.opens [r]
  greatest := by
    have hcounted := hg.coherent.table.counted
    rw [boards_concat (opens_append h.opens [r]) hg, Set.image_insert_eq]
    constructor
    · rcases hwidens.used with hsame | ⟨-, hall⟩
      · rw [hsame]
        exact .inr h.greatest.1
      · exact .inl (hall.symm.trans hcounted.symm)
    · rintro n (rfl | hn)
      · exact Nat.le_trans (Nat.le_of_eq hcounted) (Words.liveCount_le _)
      · have hold := h.greatest.2 hn
        rcases hwidens.used with hsame | ⟨hmore, -⟩ <;> omega
  size_le := by
    have hle := h.size_le
    have hused : f.cells.used ≤ g.cells.used := by rcases hwidens.used with hsame | ⟨hmore, -⟩ <;> omega
    have hmono : sizeFor (f.cells.used + 1) ≤ sizeFor (g.cells.used + 1) := sizeFor_mono (Nat.succ_le_succ hused)
    rcases hwidens.size_cases hsize with hsame | ⟨-, hgrown⟩ <;> omega

/-- A run leads to no board, and to a file that is hardly longer than at first, or to a board that spans what it must. -/
theorem Fresh.run_spans [Processor] (hs : s.Fresh) (hkeys : ∀ r ∈ rs, r.Trackable)
    (hsize : (s.run rs).2.length < 2 ^ 63) :
    ((s.run rs).2.Fresh ∧ (∀ x ∈ s.history rs, ¬ x.Opens) ∧ (s.run rs).2.length ≤ max s.length (2 * sizeFor 1)) ∨
      ∃ f, (s.run rs).2.Opened f ∧ f.Sound ∧ s.Spans rs f := by
  induction rs using List.reverseRecOn with
  | nil => exact .inl ⟨hs, fun x hx => absurd hx List.not_mem_nil, Nat.le_max_left ..⟩
  | append_singleton rs r ih =>
    have hbefore : ∀ d ∈ rs, d.Trackable := fun d hd => hkeys d (List.mem_append_left _ hd)
    have hlast : r.Trackable := hkeys r (List.mem_append_right _ List.mem_cons_self)
    have hle := hs.length_le_run hkeys
    rcases ih hbefore (by omega) with ⟨hfresh, hnone, hlength⟩ | ⟨f, hf, hsound, hspans⟩
    · obtain ⟨-, hmost⟩ := hfresh.length_step r
      have hmost' : ((s.run rs).2.step r).2.length ≤ max s.length (2 * sizeFor 1) := by omega
      rcases step_fresh hfresh r with ⟨⟨policy, k, hroom, hk, hopened⟩, hopening, reply, a, hreply, ha⟩ | ⟨hfresh', hfailed⟩
      · right
        have hopens : ∃ x ∈ s.history (rs ++ [r]), x.Opens := by
          refine ⟨⟨r, ((s.run rs).2.step r).1⟩, ?_, hopening, ?_⟩
          · rw [history_concat]
            exact List.mem_append_right _ List.mem_cons_self
          · simp [Exchange.answer?, hreply, ha, Except.toOption]
        rw [← run_concat] at hopened hmost'
        rw [hopened.length_eq, Image.size_newBoard] at hmost'
        exact ⟨_, hopened, Image.sound_newBoard policy hroom hk, .new hroom hnone hopens hopened hmost'⟩
      · have hanswer : (Exchange.mk r ((s.run rs).2.step r).1).answer? = none :=
          Exchange.answer?_eq_none fun reply hreply => (hfailed reply hreply).imp' _ fun _ he => he
        refine .inl ⟨by rwa [run_concat], ?_, by rwa [run_concat]⟩
        rw [history_concat]
        exact List.forall_mem_append.mpr ⟨hnone, List.forall_mem_singleton.mpr (Exchange.not_opens hanswer)⟩
    · right
      obtain ⟨g, hg, htakes⟩ := step_opened hf r (hf.unstuck hsound r)
      rw [← run_concat] at hg
      rw [hg.length_eq] at hsize
      rw [hf.length_eq, hg.length_eq] at hle
      have hwidens := htakes.widens hsound hlast (Nat.lt_of_le_of_lt hle hsize)
      exact ⟨g, hg, htakes.sound hlast hsound, hspans.step hwidens hg hsize⟩

/-- Once a board is opened, as many of its slots are in use as partitions were ever tracked at a time. The file has room
for these and at most for twice as many and one more, unless it was longer at first; it never gets shorter, and when it
gets longer it gets more than twice as long. -/
theorem run_extent [Processor] (hs : s.Fresh) (rs : List Request) (hkeys : ∀ r ∈ rs, r.Trackable)
    (hopens : ∃ x ∈ s.history rs, x.Opens) (hsize : (s.run rs).2.length < 2 ^ 63) :
    ∃ f, (s.run rs).2.file? = some f ∧
      IsGreatest ((fun g => (g.cells .liveSlots).toNat) '' s.boards rs) (f.cells .usedSlots).toNat ∧
      sizeFor (f.cells .usedSlots).toNat ≤ f.size ∧
      f.size ≤ max (max s.length 64) (2 * sizeFor ((f.cells .usedSlots).toNat + 1)) ∧
      (∀ ds r, ds ++ [r] <+: rs → (s.run ds).2.length ≤ (s.run (ds ++ [r])).2.length) ∧
      ∀ ds r, ds ++ [r] <+: rs → (∃ x ∈ s.history ds, x.Opens) →
        (s.run (ds ++ [r])).2.length = (s.run ds).2.length ∨
          2 * (s.run ds).2.length < (s.run (ds ++ [r])).2.length := by
  rcases hs.run_spans hkeys hsize with ⟨-, hnone, -⟩ | ⟨f, hf, hsound, hspans⟩
  · obtain ⟨x, hx, hx'⟩ := hopens
    exact absurd hx' (hnone x hx)
  · refine ⟨f, hf.file, hspans.greatest, hsound.fits, hspans.size_le, ?_, ?_⟩
    · rintro ds r ⟨es, rfl⟩
      exact hs.length_le_run fun d hd => hkeys d (List.mem_append_left _ hd)
    · rintro ds r ⟨es, rfl⟩ hds
      have hlast := hs.length_le_run hkeys
      have hkeys' : ∀ d ∈ ds ++ [r], d.Trackable := fun d hd => hkeys d (List.mem_append_left _ hd)
      obtain ⟨g, hg, hsound'⟩ := run_sound hs (fun d hd => hkeys' d (List.mem_append_left _ hd)) hds
      obtain ⟨g', hg', htakes⟩ := step_opened hg r (hg.unstuck hsound' r)
      rw [← run_concat] at hg'
      have hle := htakes.size_le
      rw [hg'.length_eq] at hlast
      have hwidens := htakes.widens hsound' (hkeys' r (List.mem_append_right _ List.mem_cons_self)) (by omega)
      rw [hg.length_eq, hg'.length_eq]
      exact (hwidens.size_cases (by omega)).imp_right And.left

/-- The file is made longer for a first slot that cannot be mapped yet; then two slots are put to use by way of two
handles, and the one that retires first is used again for a third partition. -/
theorem run_extent_of_reused_slot :
    let faulty : Host := HostSettings.host { outages := [⟨.map, 1, 1⟩] }
    let add (name : String) (p : Int64) : Request := .call name (.add ⟨p⟩ ⟨7⟩)
    let rs : List Request := [.openBoard "a" "board" faulty (Config.default.withPolicy .day), add "a" 5,
      .openBoard "b" "board" .willing .default, add "a" 5, add "b" 6, .call "a" (.remove ⟨5⟩ ⟨7⟩), add "b" 1]
    ((run {} rs).1.map fun reply? => reply?.bind (·.outcome.toOption)) = [some (.size 64), none, some (.size 640),
        some (.flag true), some (.flag true), some (.flag true), some (.flag true)] ∧
      IsGreatest ((fun g => (g.cells .liveSlots).toNat) '' boards {} rs) 2 ∧ (run {} rs).2.length = 640 := by
  intro faulty add rs
  have hused : ∀ f ∈ (run {} rs).2.file?, (f.cells .usedSlots).toNat = 2 := by decide +kernel
  obtain ⟨f, hf, hgreatest, -⟩ := run_extent fresh_empty rs (by decide) (by decide +kernel) (by decide +kernel)
  rw [hused _ hf] at hgreatest
  exact ⟨by decide +kernel, hgreatest, by decide +kernel⟩

end Shared

end VersionBoard
