import VersionBoard.Proofs.Runs

/-!
# Boards whose hosts refuse nothing

If no host refuses anything, all that matters of a file and its handles is what
the words say, which handles are open and which hold the advisory lock. An
`Ideal` is just that, and requests do to a file what they do to the ideal that it
shows (`Shared.run_shows`): so two files that show the same ideal answer all
later calls alike.
-/

namespace VersionBoard

/-- What shows of a handle: whether it is open, and whether it holds the advisory lock. -/
structure Face where
  isOpen : Bool
  holds : Bool

/-- The words of a board, and what shows of every known handle. -/
structure Ideal where
  words : Words
  handles : String → Option Face

namespace Ideal

/-- A handle holds the advisory lock. -/
def Locked (a : Ideal) : Prop := ∃ name face, a.handles name = some face ∧ face.holds = true

open Classical in
/-- What a request does, and how it ends if it is a call through a known handle. -/
noncomputable def step (a : Ideal) : Request → Option (Except Halt Answer) × Ideal
  | .call name c =>
    match a.handles name with
    | none => (none, a)
    | some face =>
      if face.isOpen then (some (c.plan a.words).1, { a with words := a.words.edits (c.plan a.words).2 })
      else (some (.error (.failed .closed)), a)
  | .openBoard name _ _ _ =>
    (none, if a.Locked then a else { a with handles := Function.update a.handles name (some ⟨true, false⟩) })
  | .close name =>
    (none, { a with handles := Function.update a.handles name ((a.handles name).map fun _ => ⟨false, false⟩) })
  | .drop name => (none, { a with handles := Function.update a.handles name none })
  | _ => (none, a)

/-- How the calls in a row of requests end. -/
noncomputable def run (a : Ideal) : List Request → List (Option (Except Halt Answer)) × Ideal
  | [] => ([], a)
  | r :: rs => ((a.step r).1 :: ((a.step r).2.run rs).1, ((a.step r).2.run rs).2)

end Ideal

/-- The hosts that the request brings along refuse nothing. -/
def Request.Willing : Request → Prop
  | openBoard _ _ host _ => host.Willing
  | setHost _ host => host.Willing
  | _ => True

/-- How a call ended; nothing for other requests. -/
def Exchange.outcome? (x : Exchange) : Option (Except Halt Answer) :=
  if x.request.call?.isSome then x.reply?.map (·.outcome) else none

/-- The handle is open. -/
def Handle.isOpen (h : Handle) : Bool := h.region.mapping.isOpen

/-- What shows of the handle. -/
def Handle.face (h : Handle) : Face := ⟨h.isOpen, h.region.holds⟩

/-- The file holds a board with the words of the ideal, and has its handles, on hosts that refuse nothing. -/
structure Shared.Shows (s : Shared) (a : Ideal) : Prop where
  board : ∃ f, s.Opened f ∧ f.cells = a.words
  handles : ∀ name, (s.handles.get? name).map Handle.face = a.handles name
  willing : ∀ name h, s.handles.get? name = some h → h.region.host.Willing

namespace Shared

variable {s t : Shared} {a : Ideal} {name : String}

/-- An ideal is locked exactly if the file that shows it is. -/
theorem Shows.locked_iff (hs : s.Shows a) : s.locked = true ↔ a.Locked := by
  rw [locked, Named.any_eq_true_iff]
  constructor
  · rintro ⟨name, h, hget, hholds⟩
    exact ⟨name, h.face, by rw [← hs.handles, hget, Option.map_some], hholds⟩
  · rintro ⟨name, face, hface, hholds⟩
    rw [← hs.handles] at hface
    obtain ⟨h, hget, rfl⟩ := Option.map_eq_some_iff.mp hface
    exact ⟨name, h, hget, hholds⟩

theorem handles_update {l : Named Handle} {faces : String → Option Face}
    (hl : ∀ name, (l.get? name).map Handle.face = faces name) (h : Handle) (name other : String) :
    ((l.put name h).get? other).map Handle.face = Function.update faces name (some h.face) other := by
  by_cases hother : other = name
  · rw [hother, Named.get?_put_self, Function.update_self]
    rfl
  · rw [Named.get?_put_of_ne _ hother, Function.update_of_ne hother, hl]

theorem willing_put {l : Named Handle} (hl : ∀ name h, l.get? name = some h → h.region.host.Willing) {h : Handle}
    (hh : h.region.host.Willing) (other : String) (h' : Handle) (hget : (l.put name h).get? other = some h') :
    h'.region.host.Willing := by
  by_cases hother : other = name
  · rw [hother, Named.get?_put_self] at hget
    obtain rfl := Option.some.inj hget
    exact hh
  · rw [Named.get?_put_of_ne _ hother] at hget
    exact hl other h' hget

/-- A call through an open handle does what its plan says. -/
theorem call_shows [Processor] (hs : s.Shows a) (c : BoardCall)
    (hends : ∀ reply, (s.step (.call name c)).1 = some reply → reply.Unstuck) :
    (s.step (.call name c)).2.Shows (a.step (.call name c)).2 ∧
      (s.step (.call name c)).1.map (·.outcome) = (a.step (.call name c)).1 := by
  obtain ⟨f, hf, hwords⟩ := hs.board
  have hface := hs.handles name
  cases hget : s.handles.get? name with
  | none =>
    rw [hget] at hface
    rw [call_unknown hget, Ideal.step, ← hface]
    exact ⟨hs, rfl⟩
  | some h =>
    obtain ⟨reply, g, h', calls, hreply, hg, hcases, hput, hheard, hopen, -⟩ := call_opened hf hget c hends
    have hface' : h'.face = h.face := by rw [Handle.face, Handle.isOpen, hopen, hheard.holds]; rfl
    have hhandles : ∀ other, ((s.step (.call name c)).2.handles.get? other).map Handle.face = a.handles other := by
      intro other
      rw [hput, handles_update hs.handles, hface', ← show a.handles name = some h.face by rw [← hface, hget]; rfl,
        Function.update_eq_self]
    have hwilling : ∀ other h, (s.step (.call name c)).2.handles.get? other = some h → h.region.host.Willing := by
      rw [hput]
      refine willing_put hs.willing ?_
      rw [hheard.host]
      exact (hs.willing name h hget).told calls
    rw [hget] at hface
    rw [Ideal.step, ← hface, hreply]
    rcases hcases with ⟨hclosed, hout, rfl, -⟩ | ⟨hopened, hdoes⟩
    · simp only [Option.map_some, Handle.face, Handle.isOpen, hclosed, Bool.false_eq_true, if_false]
      exact ⟨⟨⟨g, hg, hwords⟩, hhandles, hwilling⟩, congrArg some hout⟩
    · obtain ⟨hout, hcells⟩ := hdoes.of_granted ((hs.willing name h hget).firstError?_eq_none hheard.said _)
      simp only [Option.map_some, Handle.face, Handle.isOpen, hopened, if_true, ← hwords]
      exact ⟨⟨⟨g, hg, hcells⟩, hhandles, hwilling⟩, congrArg some hout⟩

/-- What is done through a handle that leaves the file alone, and the host as willing as it was. -/
theorem through_shows (hs : s.Shows a) (name : String) {x : Act Scene Answer} {f : Face → Face}
    (hx : ∀ t : Scene, (∃ b, (x t).1 = .ok b) ∧ (x t).2.file = t.file ∧
      ((x t).2.region.mapping = t.region.mapping ∨ (x t).2.region.mapping = .closed))
    (hface : ∀ t : Scene, Face.mk (x t).2.region.mapping.isOpen (x t).2.region.holds =
      f ⟨t.region.mapping.isOpen, t.region.holds⟩)
    (hwilling : ∀ t : Scene, t.region.host.Willing → (x t).2.region.host.Willing) :
    (s.through name fun _ => some x).2.Shows
      { a with handles := Function.update a.handles name ((a.handles name).map f) } := by
  obtain ⟨image, hf, hwords⟩ := hs.board
  have hopened := (through_opened hf name (g := fun _ => some x) (fun _ => rfl) hx).1
  have hname := hs.handles name
  cases hget : s.handles.get? name with
  | none =>
    rw [hget] at hname
    rw [← hname, Option.map_none, Option.map_none, Function.update_eq_self_iff.mpr hname]
    rw [through, act_of_none _ hget]
    exact hs
  | some h =>
    rw [hget] at hname
    rw [through, act_of_get? hget hf.file rfl] at hopened ⊢
    refine ⟨⟨image, hopened, hwords⟩, fun other => ?_, willing_put hs.willing ?_⟩
    · rw [handles_update hs.handles, ← hname, Handle.face, Handle.isOpen, Handle.region_withRegion, hface]
      rfl
    · rw [Handle.region_withRegion]
      exact hwilling _ (hs.willing name h hget)

theorem keep_shows [Processor] (hs : s.Shows a) (name path : String) {host : Host} (hw : host.Willing)
    (config : Config) :
    (s.step (.openBoard name path host config)).2.Shows (a.step (.openBoard name path host config)).2 := by
  obtain ⟨f, hf, hwords⟩ := hs.board
  rcases keep_opened hf name path host config with
    ⟨h, hmapping, htook, hfaults, hsame, hopened, -⟩ | ⟨hsame, reply, -, hhindered⟩
  · have hunlocked : ¬ a.Locked := by
      rw [← hs.locked_iff, htook.free]
      exact Bool.false_ne_true
    have hface : h.face = ⟨true, false⟩ := by
      rw [Handle.face, Handle.isOpen, hmapping, htook.not_holds hw]
      rfl
    rw [hsame] at hopened ⊢
    rw [Ideal.step, if_neg hunlocked]
    refine ⟨⟨f, hopened, hwords⟩, fun other => ?_, willing_put hs.willing ((Host.willing_congr hfaults).mpr hw)⟩
    rw [handles_update hs.handles, hface]
  · have hlocked : a.Locked := by
      rw [← hs.locked_iff]
      exact hhindered.locked_of_willing hw
    rw [hsame, Ideal.step, if_pos hlocked]
    exact hs

theorem Shows.forget (hs : s.Shows a) (name : String) :
    (s.forget name).Shows { a with handles := Function.update a.handles name none } := by
  obtain ⟨f, hf, hwords⟩ := hs.board
  refine ⟨⟨f, hf.forget, hwords⟩, fun other => ?_, fun other h hget => ?_⟩
  · dsimp only
    by_cases hother : other = name
    · rw [hother, Shared.forget, Named.get?_erase_self, Function.update_self]
      rfl
    · rw [Shared.forget, Named.get?_erase_of_ne _ hother, Function.update_of_ne hother, hs.handles]
  · by_cases hother : other = name
    · rw [hother, Shared.forget, Named.get?_erase_self] at hget
      cases hget
    · rw [Shared.forget, Named.get?_erase_of_ne _ hother] at hget
      exact hs.willing other h hget

/-- Requests do to a file what they do to the ideal that it shows. -/
theorem step_shows [Processor] (hs : s.Shows a) {r : Request} (hr : r.Willing)
    (hends : ∀ reply, (s.step r).1 = some reply → reply.Unstuck) :
    (s.step r).2.Shows (a.step r).2 ∧ (Exchange.mk r (s.step r).1).outcome? = (a.step r).1 := by
  have hclose : ∀ name, (s.close name).2.Shows
      { a with handles := Function.update a.handles name ((a.handles name).map fun _ => ⟨false, false⟩) } := fun name =>
    through_shows hs name (fun t => ⟨⟨_, rfl⟩, rfl, .inr rfl⟩) (fun _ => rfl) fun _ hw => hw
  cases r with
  | call name c => exact call_shows hs c hends
  | openBoard name path host config => exact ⟨keep_shows hs name path hr config, rfl⟩
  | create path host config =>
    obtain ⟨f, hf, hwords⟩ := hs.board
    rw [(create_opened hf path host config).1]
    exact ⟨hs, rfl⟩
  | close name => exact ⟨hclose name, rfl⟩
  | drop name =>
    have hforget := (hclose name).forget name
    rw [Function.update_idem] at hforget
    exact ⟨hforget, rfl⟩
  | setHost name host =>
    have hchange := through_shows hs name (x := changeHost host) (f := id)
      (fun t => ⟨⟨_, rfl⟩, (changeHost_keeps host t).1, .inl (changeHost_keeps host t).2.1⟩)
      (fun t => by rw [(changeHost_keeps host t).2.1, (changeHost_keeps host t).2.2.1]; rfl) fun t hw => by
        rcases (changeHost_keeps host t).2.2.2 with h | h
        · rwa [h]
        · rw [h]
          exact hr
    rw [Option.map_id, id, Function.update_eq_self] at hchange
    exact ⟨hchange, rfl⟩

/-- A request is not stuck if what it does to the ideal is not. -/
theorem Shows.step_unstuck [Processor] (hs : s.Shows a) {r : Request}
    (hends : ∀ u, (a.step r).1 = some (.error (.waits u)) → u = .advisoryLock)
    (reply : Reply Answer) (hreply : (s.step r).1 = some reply) : reply.Unstuck := by
  obtain ⟨f, hf, hwords⟩ := hs.board
  refine Shared.step_unstuck hf r (fun name c h hr hget hopen u hu => ?_) reply hreply
  have hface := hs.handles name
  have htrue : h.face.isOpen = true := Mapping.isOpen_eq_true_iff.mpr hopen
  rw [hget, Option.map_some] at hface
  have hstep : (a.step r).1 = some (.error (.waits u)) := by
    rw [hr, Ideal.step, ← hface, ← hwords]
    simp only [htrue, if_true, hu]
  obtain rfl := hends u hstep
  exact c.plan_ne_advisoryLock _ hu

/-! ### Runs -/

/-- Requests in a row do to a file what they do to the ideal that it shows. -/
theorem run_shows [Processor] (hs : s.Shows a) {rs : List Request} (hrs : ∀ r ∈ rs, r.Willing)
    (hends : ∀ reply, some reply ∈ (s.run rs).1 → reply.Unstuck) :
    (s.run rs).2.Shows (a.run rs).2 ∧ (s.history rs).map Exchange.outcome? = (a.run rs).1 := by
  induction rs generalizing s a with
  | nil => exact ⟨hs, rfl⟩
  | cons r rs ih =>
    obtain ⟨hstep, hout⟩ := step_shows hs (hrs r List.mem_cons_self) fun reply hreply =>
      hends reply (List.mem_cons.mpr (.inl hreply.symm))
    obtain ⟨hrun, houts⟩ := ih hstep (fun r' hr' => hrs r' (List.mem_cons_of_mem _ hr'))
      fun reply hreply => hends reply (List.mem_cons_of_mem _ hreply)
    exact ⟨hrun, congrArg₂ List.cons hout houts⟩

/-- Of requests in a row none is stuck if none is on the ideal. -/
theorem Shows.run_unstuck [Processor] (hs : s.Shows a) {rs : List Request} (hrs : ∀ r ∈ rs, r.Willing)
    (hends : ∀ u, some (.error (.waits u)) ∈ (a.run rs).1 → u = .advisoryLock) (reply : Reply Answer)
    (hreply : some reply ∈ (s.run rs).1) : reply.Unstuck := by
  induction rs generalizing s a with
  | nil => cases hreply
  | cons r rs ih =>
    have hfirst := hs.step_unstuck (r := r) fun u hu => hends u (List.mem_cons.mpr (.inl hu.symm))
    rcases List.mem_cons.mp hreply with hreply | hreply
    · exact hfirst reply hreply.symm
    · exact ih (step_shows hs (hrs r List.mem_cons_self) hfirst).1 (fun r' hr' => hrs r' (List.mem_cons_of_mem _ hr'))
        (fun u hu => hends u (List.mem_cons_of_mem _ hu)) hreply

theorem unstuck_of_mem_history [Processor] {rs : List Request}
    (hends : ∀ reply, some reply ∈ (s.run rs).1 → reply.Unstuck) (u : Wait)
    (hmem : some (.error (.waits u)) ∈ (s.history rs).map Exchange.outcome?) : u = .advisoryLock := by
  induction rs generalizing s with
  | nil => exact absurd hmem List.not_mem_nil
  | cons r rs ih =>
    rcases List.mem_cons.mp hmem with hfirst | hmem
    · obtain ⟨-, hfirst⟩ := (Option.ite_none_right_eq_some ..).mp hfirst.symm
      obtain ⟨reply, hreply, hu⟩ := Option.map_eq_some_iff.mp hfirst
      exact hends reply (List.mem_cons.mpr (.inl hreply.symm)) u hu
    · exact ih (fun reply hreply => hends reply (List.mem_cons_of_mem _ hreply)) hmem

/-- Files that show the same ideal answer later calls alike. -/
theorem run_alike [Processor] (hs : s.Shows a) (ht : t.Shows a) {rs : List Request} (hrs : ∀ r ∈ rs, r.Willing)
    (hends : ∀ reply, some reply ∈ (s.run rs).1 → reply.Unstuck) :
    (t.history rs).map Exchange.outcome? = (s.history rs).map Exchange.outcome? := by
  have hout := (run_shows hs hrs hends).2
  have hends' := ht.run_unstuck hrs fun u => by
    rw [← hout]
    exact unstuck_of_mem_history hends u
  rw [hout]
  exact (run_shows ht hrs hends').2

end Shared

end VersionBoard
