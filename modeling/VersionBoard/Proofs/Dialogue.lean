import VersionBoard.Proofs.Ideal

/-!
# What a table is told and what it answers

The calls that a run makes through open handles, each with its outcome, are the
run's dialogue with the table. If hosts refuse nothing, the dialogue and all
bytes of the file follow from the calls and from the file as it was at first
(`Shared.Serves.run`). Through which handles the calls go, how much these have
mapped, and which boards are opened or closed in between makes no difference
(`Shared.dialogue_eq`).
-/

namespace VersionBoard

/-! ### Calls in a row -/

/-- The words after a call. -/
def Words.tell (w : Words) (c : BoardCall) : Words := w.edits (c.plan w).2

/-- The words after calls in a row. -/
def Words.tellAll (w : Words) (cs : List BoardCall) : Words := cs.foldl Words.tell w

/-- Calls in a row, each with the outcome that its plan has. -/
def Words.dialogue (w : Words) : List BoardCall → List (BoardCall × Except Halt Answer)
  | [] => []
  | c :: cs => (c, (c.plan w).1) :: (w.tell c).dialogue cs

/-- The file after a call: as long as the call needs it, with the edits of the plan. -/
def Image.tell (f : Image) (c : BoardCall) : Image :=
  (f.grow (Region.roomFor (Board.need f.cells c) f.size)).edits (c.plan f.cells).2

/-- The file after calls in a row. -/
def Image.tellAll (f : Image) (cs : List BoardCall) : Image := cs.foldl Image.tell f

/-- If the host refuses nothing, what a call leaves does not depend on the mapping. -/
theorem BoardCall.Does.eq_tell {c : BoardCall} {path : String} {calls : List CallRecord} {f g : Image}
    {o : Except Halt Answer} (h : c.Does path calls f o g) (hnone : firstError? path calls = none) : g = f.tell c := by
  cases h with
  | refused _ _ hfirst =>
    rw [hnone] at hfirst
    cases hfirst
  | planned _ _ _ _ hsize => rw [Image.tell, ← hsize, Image.grow_size_grow]

namespace Shared

variable {s t : Shared} {f : Image} {r : Request} {rs ts : List Request}

/-! ### Dialogues -/

/-- The call that a request makes through an open handle. -/
def reaching? (s : Shared) : Request → Option BoardCall
  | .call name c => if (s.handles.get? name).any Handle.isOpen then some c else none
  | _ => none

/-- The calls that a run makes through open handles, each with its outcome. -/
def dialogue [Processor] (s : Shared) : List Request → List (BoardCall × Except Halt Answer)
  | [] => []
  | r :: rs => ((s.reaching? r).bind fun c => (s.step r).1.map (c, ·.outcome)).toList ++ (s.step r).2.dialogue rs

theorem call?_of_reaching? {c : BoardCall} (h : s.reaching? r = some c) : r.call? = some c := by
  cases r with
  | call name c' =>
    rw [reaching?] at h
    split_ifs at h
    exact h
  | _ => cases h

/-- If all requests are about transactions with keys, so is the dialogue. -/
theorem trackable_of_mem_dialogue [Processor] (hrs : ∀ r ∈ rs, r.Trackable) :
    ∀ c ∈ (s.dialogue rs).map Prod.fst, c.Trackable := by
  induction rs generalizing s with
  | nil => exact fun c hc => absurd hc List.not_mem_nil
  | cons r rs ih =>
    intro c hc
    rw [dialogue, List.map_append] at hc
    rcases List.mem_append.mp hc with hc | hc
    · obtain ⟨x, hx, rfl⟩ := List.mem_map.mp hc
      obtain ⟨c, hsaid, hreply⟩ := Option.bind_eq_some_iff.mp (Option.mem_toList.mp hx)
      obtain ⟨reply, -, rfl⟩ := Option.map_eq_some_iff.mp hreply
      exact hrs r List.mem_cons_self c (call?_of_reaching? hsaid)
    · exact ih (fun r' hr' => hrs r' (List.mem_cons_of_mem _ hr')) c hc

/-- The hosts of all handles refuse nothing. -/
def Willing (s : Shared) : Prop := ∀ name h, s.handles.get? name = some h → h.region.host.Willing

/-- Requests have led here from a file that was missing or blank, and a board was opened. Every transaction had
a key. -/
def Reached [Processor] (s : Shared) : Prop :=
  ∃ (u : Shared) (rs : List Request),
    u.Fresh ∧ (∀ r ∈ rs, r.Trackable) ∧ (∃ x ∈ u.history rs, x.Opens) ∧ (u.run rs).2 = s

theorem Reached.sound [Processor] (hs : s.Reached) : ∃ f, s.Opened f ∧ f.Sound := by
  obtain ⟨u, rs, hu, hkeys, hopens, rfl⟩ := hs
  exact run_sound hu hkeys hopens

/-- A call through an open handle whose host refuses nothing is answered as its plan says. -/
theorem Opened.call_willing [Processor] (hs : s.Opened f) (hf : f.Sound) {name : String} {h : Handle} {c : BoardCall}
    (hget : s.handles.get? name = some h) (hopen : h.isOpen = true) (hw : h.region.host.Willing) (hc : c.Trackable) :
    ∃ reply, (s.step (.call name c)).1 = some reply ∧ reply.outcome = (c.plan f.cells).1 ∧
      (s.step (.call name c)).2.Opened (f.tell c) ∧ (f.tell c).Sound ∧ (f.tell c).cells = f.cells.tell c := by
  obtain ⟨reply, g, h', calls, hreply, hopened, hcases, -, hheard, -⟩ := call_opened hs hget c (hs.unstuck hf _)
  rcases hcases with ⟨hclosed, -⟩ | ⟨-, hdoes⟩
  · exact absurd (hclosed.symm.trans hopen) Bool.false_ne_true
  · have hnone := hw.firstError?_eq_none hheard.said h.region.path
    obtain ⟨hout, hcells⟩ := hdoes.of_granted hnone
    have hsound := hdoes.sound hc hf
    rw [hdoes.eq_tell hnone] at hopened hsound hcells
    exact ⟨reply, hreply, hout, hopened, hsound, hcells⟩

/-- The file holds a sound board, and hosts refuse nothing. -/
structure Serves (s : Shared) (f : Image) : Prop where
  opened : s.Opened f
  sound : f.Sound
  willing : s.Willing

theorem Reached.serves [Processor] (hs : s.Reached) (hw : s.Willing) : ∃ f, s.Serves f := by
  obtain ⟨f, hf, hsound⟩ := hs.sound
  exact ⟨f, hf, hsound, hw⟩

namespace Serves

theorem willing_step [Processor] (hs : s.Serves f) (hw : r.Willing) : (s.step r).2.Willing := by
  have hshows : s.Shows ⟨f.cells, fun name => (s.handles.get? name).map Handle.face⟩ :=
    ⟨⟨f, hs.opened, rfl⟩, fun _ => rfl, hs.willing⟩
  exact (step_shows hshows hw (hs.opened.unstuck hs.sound r)).1.willing

/-- A request tells the table something or it does not. -/
theorem step_cases [Processor] (hs : s.Serves f) (hr : r.Trackable) (hw : r.Willing) :
    s.reaching? r = none ∧ (s.step r).2.Serves f ∨
      ∃ c reply, s.reaching? r = some c ∧ (s.step r).1 = some reply ∧ reply.outcome = (c.plan f.cells).1 ∧
        (s.step r).2.Serves (f.tell c) ∧ (f.tell c).cells = f.cells.tell c := by
  have hwilling := hs.willing_step hw
  cases hcall : r.call? with
  | none =>
    refine .inl ⟨?_, (other_opened hs.opened hcall).1, hs.sound, hwilling⟩
    cases r with
    | call => cases hcall
    | _ => rfl
  | some c =>
    obtain ⟨name, rfl⟩ := Request.call?_eq_some.mp hcall
    cases hget : s.handles.get? name with
    | none =>
      rw [call_unknown hget]
      exact .inl ⟨by simp [reaching?, hget], hs⟩
    | some h =>
      cases hopen : h.isOpen with
      | false =>
        obtain ⟨-, g, -, -, -, hopened, ⟨-, -, rfl, -⟩ | ⟨htrue, -⟩, -⟩ :=
          call_opened hs.opened hget c (hs.opened.unstuck hs.sound _)
        · exact .inl ⟨by simp [reaching?, hget, hopen], hopened, hs.sound, hwilling⟩
        · exact absurd (hopen.symm.trans htrue) Bool.false_ne_true
      | true =>
        obtain ⟨reply, hreply, hout, hopened, hsound, hcells⟩ :=
          hs.opened.call_willing hs.sound hget hopen (hs.willing name h hget) (hr c rfl)
        exact .inr ⟨c, reply, by simp [reaching?, hget, hopen], hreply, hout, ⟨hopened, hsound, hwilling⟩, hcells⟩

/-- What is said in a run, and what becomes of the file, depends on nothing but the calls. -/
theorem run [Processor] (hs : s.Serves f) (hrs : ∀ r ∈ rs, r.Trackable ∧ r.Willing) :
    s.dialogue rs = f.cells.dialogue ((s.dialogue rs).map Prod.fst) ∧
      (s.run rs).2.Serves (f.tellAll ((s.dialogue rs).map Prod.fst)) ∧
      (f.tellAll ((s.dialogue rs).map Prod.fst)).cells = f.cells.tellAll ((s.dialogue rs).map Prod.fst) := by
  induction rs generalizing s f with
  | nil => exact ⟨rfl, hs, rfl⟩
  | cons r rs ih =>
    obtain ⟨hr, hw⟩ := hrs r List.mem_cons_self
    have hrest := fun r' hr' => hrs r' (List.mem_cons_of_mem _ hr')
    rw [dialogue]
    rcases hs.step_cases hr hw with ⟨hsilent, hs'⟩ | ⟨c, reply, hsaid, hreply, hout, hs', hcells⟩
    · rw [hsilent]
      exact ih hs' hrest
    · obtain ⟨hdialogue, hserves, hafter⟩ := ih hs' hrest
      rw [hcells] at hdialogue hafter
      rw [hsaid, hreply]
      refine ⟨?_, hserves, hafter⟩
      exact congrArg₂ List.cons (congrArg (c, ·) hout) hdialogue

end Serves

/-- Where requests lead from here they have led from the file at first. -/
theorem Reached.run [Processor] (hs : s.Reached) (hrs : ∀ r ∈ rs, r.Trackable) : (s.run rs).2.Reached := by
  obtain ⟨u, ds, hu, hkeys, hopens, rfl⟩ := hs
  exact ⟨u, ds ++ rs, hu, List.forall_mem_append.mpr ⟨hkeys, hrs⟩, opens_append hopens rs, by rw [run_append]⟩

theorem Reached.willing_run [Processor] (hs : s.Reached) (hw : s.Willing) (hrs : ∀ r ∈ rs, r.Trackable ∧ r.Willing) :
    (s.run rs).2.Willing := by
  obtain ⟨f, hf⟩ := hs.serves hw
  exact (hf.run hrs).2.1.willing

/-- Two runs that make the same calls on the same file, through whatever handles, get the same outcomes and leave
the same bytes. -/
theorem dialogue_eq [Processor] (hs : s.Reached) (ht : t.Reached) (hfile : t.file? = s.file?) (hsw : s.Willing)
    (htw : t.Willing) (hrs : ∀ r ∈ rs, r.Trackable ∧ r.Willing) (hts : ∀ r ∈ ts, r.Trackable ∧ r.Willing)
    (hcalls : (t.dialogue ts).map Prod.fst = (s.dialogue rs).map Prod.fst) :
    t.dialogue ts = s.dialogue rs ∧ (t.run ts).2.file? = (s.run rs).2.file? := by
  obtain ⟨f, hsf⟩ := hs.serves hsw
  obtain ⟨g, htg⟩ := ht.serves htw
  obtain rfl : g = f := by
    have h := hfile
    rw [htg.opened.file, hsf.opened.file] at h
    exact Option.some.inj h
  obtain ⟨hdialogue, hserves, -⟩ := hsf.run hrs
  obtain ⟨hdialogue', hserves', -⟩ := htg.run hts
  constructor
  · rw [hdialogue', hcalls, ← hdialogue]
  · rw [hserves'.opened.file, hserves.opened.file, hcalls]

/-- A board of a split table that nobody has open. -/
def created : Shared := (run {} [.create "board" .willing (Config.default.withPolicy .day)]).2

theorem reached_created : created.Reached := ⟨{}, _, fresh_empty, by decide, by decide +kernel, rfl⟩

theorem willing_created : created.Willing := by
  have hempty : created.handles.length = 0 := by decide +kernel
  intro name h hget
  rw [List.eq_nil_of_length_eq_zero hempty] at hget
  cases hget

/-- A handle that has mapped none of the slots reads what another one wrote after the file grew; in the other run the
calls go through handles that are closed and opened again in between. -/
theorem dialogue_eq_of_reopened :
    let track (name : String) (p : Int64) : Request := .call name (.add ⟨p⟩ ⟨7⟩)
    let read (name : String) : Request := .call name (.table (.acquireRead ⟨2⟩ ⟨7⟩))
    let find (name : String) : Request := .call name (.table (.slotOfVersion ⟨2⟩ ⟨7⟩))
    let first : List Request := [.openBoard "a" "board" .willing .default, .openBoard "b" "board" .willing .default,
      track "a" 0, track "a" 1, track "a" 2, read "b", find "a"]
    let second : List Request := [.openBoard "c" "board" .willing .default, track "c" 0, track "c" 1, .close "c",
      .create "board" .willing (Config.default.withPolicy .month), .openBoard "c" "board" .willing .default, track "c" 2,
      read "c", .drop "c", .openBoard "d" "board" .willing .default, find "d"]
    (created.dialogue first).map Prod.snd = [.ok (.flag true), .ok (.flag true), .ok (.flag true), .ok (.flag true),
        .ok (.slot (some 2))] ∧
      created.dialogue second = created.dialogue first ∧ (created.run second).2.file? = (created.run first).2.file? := by
  intro track read find first second
  have hkeys : (∀ r ∈ first, r.Trackable) ∧ ∀ r ∈ second, r.Trackable := by decide
  have hwilling : (∀ r ∈ first, r.Willing) ∧ ∀ r ∈ second, r.Willing := by
    simp [first, second, track, read, find, Request.Willing, Host.willing_willing]
  refine ⟨by decide +kernel, dialogue_eq reached_created reached_created rfl willing_created willing_created ?_ ?_ ?_⟩
  · exact fun r hr => ⟨hkeys.1 r hr, hwilling.1 r hr⟩
  · exact fun r hr => ⟨hkeys.2 r hr, hwilling.2 r hr⟩
  · decide +kernel

end Shared

end VersionBoard
