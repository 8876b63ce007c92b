import VersionBoard.Proofs.Dialogue

/-!
# Nobody waits

Whoever finds a lock taken, an entry reserved, or a version gone from where it
was, would wait and try again. Between whole calls none of this is ever found,
however the calls before have ended: the locks are free, every version is held in
a proper way, and a slot with no free entry is full (`Image.Sound.unhindered`). So
each attempt of a call is its last, but for those that the processor lets miss,
and they change nothing. Every request to a handle that is there has a reply
(`Shared.run_unhindered`).

One thing can be waited for, outside of the file: its advisory lock. Only an
opening takes it, and only a host that refuses to take it back can leave it with
a handle, until that handle is closed.
-/

namespace VersionBoard

/-- The action does not end in waiting. -/
def Act.Ends {σ α : Type} (x : Act σ α) (s : σ) : Prop := ∀ w, (x s).1 ≠ .error (.waits w)

theorem Act.Follows.ends {α : Type} {x : Act Image α} {f : Image} {plan : Plan α} (h : x.Follows f plan)
    (hplan : plan.Ends) : x.Ends f := by
  intro w hw
  exact hplan w (h.1.symm.trans hw)

/-! ### Lock words -/

namespace Mapping

variable {c : Cell} {f : Image} {n : Nat}

/-- The lock word `c` is free to be taken. -/
structure Yields [Processor] (m : Mapping) (c : Cell) (f : Image) : Prop where
  /-- The first attempt takes it. -/
  first : m.tryExchange c.offset 0 taken false f = (.ok true, f.setCell c taken)
  /-- If the first attempt misses, everything is as it was. -/
  missed : m.tryExchange c.offset 0 taken true f = (.ok false, f)
  /-- However many attempts miss, the one after them takes it. -/
  rounds : ∀ misses, m.exchangeAfter c.offset take? misses f = (.ok 0, f.setCell c taken)
  /-- So whoever takes it goes on. -/
  take : m.take c.offset f = (.ok (), f.setCell c taken)

theorem yields_of_free [Processor] (hn : headerSize ≤ n) (hc : c.Within (slotsIn n)) (h0 : f.cells c = 0) :
    (upTo n).Yields c f := by
  have hload : (upTo n).load c.offset f = (.ok 0, f) := by rw [← h0]; exact get_apply hn c hc f
  refine ⟨tryExchange_of_made hload (put_apply hn c hc Mapping.taken f), tryExchange_of_misses hload Mapping.taken,
    fun misses => ?_, take_apply hn c hc h0⟩
  rw [exchangeAfter_apply hn c hc, h0]
  rfl

end Mapping

/-! ### Files -/

namespace Image

/-- Nothing in the file makes anyone wait who has its first `n` bytes mapped. -/
structure Unhindered [Processor] (f : Image) (n : Nat) : Prop where
  /-- The header lock is free. -/
  header : (Mapping.upTo n).Yields .headerLock f
  /-- So is the lock of every slot. -/
  slot : ∀ i, i < slotsIn n → (Mapping.upTo n).Yields (.slotLock i) f
  /-- A version is found or registered where it was looked for at first. -/
  finds : ∀ p txn, (Table.findOrRegister (.upTo n) p txn).Ends f
  /-- Locks are acquired or refused, and given back, at the first attempt; and so are questions answered. -/
  calls : ∀ c : TableCall, (c.run (.upTo n)).Ends f
  /-- An entry is given away in the first search, or there is none. -/
  registers : ∀ i, i < slotsIn n → ∀ p txn, (Table.register (.upTo n) i p txn).Ends f
  /-- The slot for the next new partition has a free entry. -/
  tracks : f.cells.used < slotsIn n → ∀ p txn, (Table.track (.upTo n) p txn).Ends f

variable {f : Image} {n : Nat}

/-- A sound file makes nobody wait, however much of it is mapped. -/
theorem Sound.unhindered [Processor] (h : f.Sound) (hn : headerSize ≤ n) (hs : n ≤ f.size) : f.Unhindered n where
  header := Mapping.yields_of_free hn trivial h.table.headerFree
  slot i hi := Mapping.yields_of_free hn hi (h.table.slotsFree i)
  finds p txn := (Table.findOrRegister_follows hn hs h.table.slotsFree p txn).ends
    (Words.ends_findOrRegister h.idle _ p txn)
  calls c := (c.run_follows hn hs h.table.slotsFree).ends (c.ends_plan h.table h.idle _)
  registers i hi p txn := (Table.register_follows hn hs hi (h.table.slotsFree i) p txn).ends
    (Words.ends_register h.idle i p txn)
  tracks hused p txn := by
    have hmin : min f.cells.used (slotsIn n) = f.cells.used := by omega
    have hnext : f.cells.next f.cells.used < slotsIn n := Nat.lt_of_le_of_lt f.cells.next_le_used hused
    have hfollows := Table.track_follows hn hs (by rwa [hmin]) (h.table.slotsFree _) p txn
    rw [hmin] at hfollows
    exact hfollows.ends (Words.ends_track h.table h.idle p txn)

end Image

/-! ### Requests -/

/-- The handle that a request goes through. -/
def Request.through? : Request → Option String
  | openBoard .. => none
  | create .. => none
  | call name _ => some name
  | close name => some name
  | drop name => some name
  | setHost name _ => some name

/-- The request opens a board to keep it, through a host that may keep the advisory lock. -/
def Request.MayKeepLock : Request → Prop
  | openBoard _ _ host _ => host.MayKeepLock
  | _ => False

namespace Shared

variable {s : Shared} {f : Image} {r : Request} {rs : List Request} {name : String}

/-- What is asked of a handle that is there gets a reply. -/
theorem exists_reply_through {g : Handle → Option (Act Scene Answer)} {h : Handle} {x : Act Scene Answer}
    (hget : s.handles.get? name = some h) (hfile : s.file? = some f) (hx : g h = some x) :
    ∃ reply, (s.through name g).1 = some reply := by
  rw [through, act_of_get? hget hfile hx]
  exact ⟨_, rfl⟩

/-- Every request to a handle that is there has a reply. -/
theorem Opened.exists_reply [Processor] (hs : s.Opened f) (hthere : ∀ name ∈ r.through?, (s.handles.get? name).isSome) :
    ∃ reply, (s.step r).1 = some reply := by
  have hclose : ∀ name, (s.handles.get? name).isSome → ∃ reply, (s.close name).1 = some reply := by
    intro name hname
    obtain ⟨h, hget⟩ := Option.isSome_iff_exists.mp hname
    exact exists_reply_through hget hs.file rfl
  cases r with
  | openBoard => exact ⟨_, rfl⟩
  | create => exact ⟨_, rfl⟩
  | call name c =>
    obtain ⟨h, hget⟩ := Option.isSome_iff_exists.mp (hthere name rfl)
    have hfits := hs.handles name h hget
    cases h with
    | bare region => exact hfits.elim
    | board region config => exact exists_reply_through hget hs.file rfl
  | close name => exact hclose name (hthere name rfl)
  | drop name => exact hclose name (hthere name rfl)
  | setHost name host =>
    obtain ⟨h, hget⟩ := Option.isSome_iff_exists.mp (hthere name rfl)
    exact exists_reply_through hget hs.file rfl

/-- Before a board is opened there are no handles, and an opening has a reply. -/
theorem Fresh.exists_reply [Processor] (hs : s.Fresh) (hthere : ∀ name ∈ r.through?, (s.handles.get? name).isSome) :
    ∃ reply, (s.step r).1 = some reply := by
  have hnone : r.through? = none := by
    by_contra hsome
    obtain ⟨name, hname⟩ := Option.ne_none_iff_exists'.mp hsome
    have hget := hthere name hname
    rw [hs.get?] at hget
    cases hget
  cases r with
  | openBoard => exact ⟨_, rfl⟩
  | create => exact ⟨_, rfl⟩
  | _ => cases hnone

/-! ### Who holds the advisory lock -/

/-- What is done through a handle that does not take the advisory lock. -/
theorem locked_of_through {g : Handle → Option (Act Scene Answer)} {x : Act Scene Answer} (hg : ∀ h, g h = some x)
    (hx : ∀ t : Scene, (x t).2.region.holds = true → t.region.holds = true)
    (hlocked : (s.through name g).2.locked = true) : s.locked = true := by
  cases hget : s.handles.get? name with
  | none => rwa [through, act_of_none g hget] at hlocked
  | some h =>
    cases hfile : s.file? with
    | none => rwa [through, act_of_missing g hfile] at hlocked
    | some f =>
      rw [through, act_of_get? hget hfile (hg h), locked] at hlocked
      rcases Named.any_of_any_put hlocked with hholds | hbefore
      · rw [Handle.region_withRegion] at hholds
        exact Named.any_eq_true_iff.mpr ⟨name, h, hget, hx _ hholds⟩
      · exact hbefore

/-- A request leaves the advisory lock with a handle only if one had it before, or the host it opens a board through may
keep it. -/
theorem locked_of_step [Processor] (hs : s.Fresh ∨ ∃ f, s.Opened f)
    (hends : ∀ reply, (s.step r).1 = some reply → reply.Unstuck) (hlocked : (s.step r).2.locked = true) :
    s.locked = true ∨ r.MayKeepLock := by
  have hclose : ∀ name, (s.close name).2.locked = true → s.locked = true := fun name =>
    locked_of_through (fun _ => rfl) fun t ht => nomatch ht
  cases r with
  | openBoard name path host config =>
    have hput : ∀ h : Handle, TookLock host s.locked h.region.holds →
        (s.step (.openBoard name path host config)).2.handles = s.handles.put name h →
          s.locked = true ∨ host.MayKeepLock := by
      intro h htook hhandles
      rw [locked, hhandles] at hlocked
      exact (Named.any_of_any_put hlocked).symm.imp_right htook.kept
    rcases hs with hfresh | ⟨f, hopened⟩
    · rcases keep_fresh hfresh name path host config with ⟨h, htook, hhandles, -⟩ | ⟨hfresh', -⟩
      · exact hput h htook hhandles
      · exact absurd (hfresh'.locked.symm.trans hlocked) Bool.false_ne_true
    · rcases keep_opened hopened name path host config with ⟨h, -, htook, -, hstep, -⟩ | ⟨hsame, -⟩
      · exact hput h htook (congrArg Shared.handles hstep)
      · exact .inl (hsame ▸ hlocked)
  | create path host config =>
    rcases hs with hfresh | ⟨f, hopened⟩
    · rw [locked, (create_fresh hfresh path host config).1] at hlocked
      cases hlocked
    · exact .inl ((create_opened hopened path host config).1 ▸ hlocked)
  | call name c =>
    left
    cases hget : s.handles.get? name with
    | none => rwa [call_unknown hget] at hlocked
    | some h =>
      rcases hs with hfresh | ⟨f, hopened⟩
      · rw [hfresh.get?] at hget
        cases hget
      · obtain ⟨reply, g, h', calls, -, -, -, hhandles, hheard, -⟩ := call_opened hopened hget c hends
        rw [locked, hhandles] at hlocked
        rcases Named.any_of_any_put hlocked with hholds | hbefore
        · rw [hheard.holds] at hholds
          exact Named.any_eq_true_iff.mpr ⟨name, h, hget, hholds⟩
        · exact hbefore
  | close name => exact .inl (hclose name hlocked)
  | drop name => exact .inl (hclose name (Named.any_of_any_erase hlocked))
  | setHost name host =>
    exact .inl (locked_of_through (fun _ => rfl) (fun t ht => (changeHost_keeps host t).2.2.1 ▸ ht) hlocked)

/-- A handle that holds the advisory lock after a run had it from a host that may keep it. -/
theorem locked_of_run [Processor] (hs : s.Fresh) (hkeys : ∀ r ∈ rs, r.Trackable)
    (hlocked : (s.run rs).2.locked = true) : ∃ r ∈ rs, r.MayKeepLock := by
  induction rs using List.reverseRecOn with
  | nil => exact absurd (hs.locked.symm.trans hlocked) Bool.false_ne_true
  | append_singleton rs r ih =>
    have hkeys' : ∀ r ∈ rs, r.Trackable := fun r hr => hkeys r (List.mem_append_left _ hr)
    rw [run_concat] at hlocked
    have hends : ∀ reply, ((s.run rs).2.step r).1 = some reply → reply.Unstuck := by
      intro reply hreply
      refine run_unstuck hs hkeys reply ?_
      rw [replies_concat, hreply]
      exact List.mem_append_right _ List.mem_cons_self
    rcases locked_of_step (run_fresh_or_opened hs (run_unstuck hs hkeys')) hends hlocked with hbefore | hkeeps
    · obtain ⟨d, hd, hkeeps⟩ := ih hkeys' hbefore
      exact ⟨d, List.mem_append_left _ hd, hkeeps⟩
    · exact ⟨r, List.mem_append_right _ List.mem_cons_self, hkeeps⟩

/-! ### Runs -/

/-- After any run from a file that was missing or blank, a request to a handle that is there has a reply. It does not
wait for anything, unless it is an opening, and a handle holds the advisory lock that a host has refused to take back.
If a board was opened, the file makes nobody wait, however much of it he has mapped. -/
theorem run_unhindered [Processor] (hs : s.Fresh) (rs : List Request) (hkeys : ∀ r ∈ rs, r.Trackable) :
    (∀ r, r.Trackable → (∀ name ∈ r.through?, ((s.run rs).2.handles.get? name).isSome) →
      ∃ reply, ((s.run rs).2.step r).1 = some reply ∧ ∀ w, reply.outcome = .error (.waits w) →
        w = .advisoryLock ∧ r.isOpening = true ∧ (s.run rs).2.locked = true) ∧
      ((s.run rs).2.locked = true → ∃ r ∈ rs, r.MayKeepLock) ∧
      ((∃ x ∈ s.history rs, x.Opens) → ∃ f, (s.run rs).2.file? = some f ∧
        ∀ n, headerSize ≤ n → n ≤ f.size → f.Unhindered n) := by
  refine ⟨?_, locked_of_run hs hkeys, ?_⟩
  · intro r hr hthere
    rcases run_fresh_or_sound hs hkeys with ⟨hfresh, -⟩ | ⟨f, hf, hsound⟩
    · obtain ⟨reply, hreply⟩ := hfresh.exists_reply hthere
      refine ⟨reply, hreply, fun w hw => ?_⟩
      rcases step_fresh hfresh r with ⟨-, -, reply', a, hreply', ha⟩ | ⟨-, hfailed⟩
      · obtain rfl := Option.some.inj (hreply.symm.trans hreply')
        exact nomatch ha.symm.trans hw
      · obtain ⟨e, he⟩ := hfailed reply hreply
        exact nomatch he.symm.trans hw
    · obtain ⟨reply, hreply⟩ := hf.exists_reply hthere
      refine ⟨reply, hreply, fun w hw => ?_⟩
      obtain rfl := hf.unstuck hsound r reply hreply w hw
      obtain ⟨hopening, hlocked, -⟩ := opening_of_waits hf hreply hw
      exact ⟨rfl, hopening, hlocked⟩
  · intro hopens
    obtain ⟨f, hf, hsound⟩ := run_sound hs hkeys hopens
    exact ⟨f, hf.file, fun n => hsound.unhindered⟩

/-- A call fails since its host refuses to map the file, and one is a violation; a third one waits for neither. -/
theorem run_unhindered_of_faults :
    let faulty : Host := HostSettings.host { outages := [⟨.map, 1, 1⟩] }
    let rs : List Request := [.create "board" .willing (Config.default.withPolicy .day), .openBoard "a" "board" faulty .default,
      .call "a" (.add ⟨5⟩ ⟨7⟩), .call "a" (.add ⟨5⟩ ⟨7⟩), .call "a" (.table (.releaseRead ⟨5⟩ ⟨7⟩))]
    let r : Request := .call "a" (.table (.acquireWrite ⟨5⟩ ⟨7⟩))
    (run {} rs).1.map (fun reply? => reply?.map (·.outcome)) = [some (.ok .done), some (.ok (.size 64)),
        some (.error (.failed (.cannotMap "board" (.refused (.injected .map))))), some (.ok (.flag true)),
        some (.error (.violated (.unmatchedRelease ⟨5⟩ ⟨7⟩)))] ∧
      (∃ reply, ((run {} rs).2.step r).1 = some reply ∧ ∀ w, reply.outcome ≠ .error (.waits w)) ∧
      ∃ f, (run {} rs).2.file? = some f ∧ f.Unhindered 64 := by
  intro faulty rs r
  have hsize : ∀ f ∈ (run {} rs).2.file?, 64 ≤ f.size := by decide +kernel
  have hthere : ∀ name ∈ r.through?, ((run {} rs).2.handles.get? name).isSome := by decide +kernel
  obtain ⟨hreply, -, hboard⟩ := run_unhindered fresh_empty rs (by decide)
  obtain ⟨reply, hreply, hwaits⟩ := hreply r (by decide) hthere
  obtain ⟨f, hf, hunhindered⟩ := hboard (by decide +kernel)
  exact ⟨by decide +kernel, ⟨reply, hreply, fun w hw => Bool.false_ne_true (hwaits w hw).2.1⟩, f, hf,
    hunhindered 64 (by decide) (hsize _ hf)⟩

/-- The host of the first handle refuses to take the advisory lock back and keeps it; the next opening waits for it,
until the handle is closed. -/
example :
    let keeping : Host := { HostSettings.host { outages := [⟨.unlock, 0, 1⟩] } with keepsLock := fun _ => true }
    let again : Request := .openBoard "b" "board" .willing .default
    (run {} [.openBoard "a" "board" keeping .default, again, .close "a", again]).1.map
        (fun reply? => reply?.map (·.outcome)) =
      [some (.ok (.size 640)), some (.error (.waits .advisoryLock)), some (.ok .done), some (.ok (.size 640))] := by
  decide +kernel

end Shared

end VersionBoard
