import VersionBoard.Shared
import VersionBoard.Proofs.Halting
import VersionBoard.Proofs.Opening

/-!
# One request

What one request does to a file that holds a board, whoever makes it and through
whatever handle (`Shared.step_opened`): a call does what its plan says or is
refused by a host, and no other request changes the file. A file that holds no
board yet becomes a new board or holds none still (`Shared.step_fresh`).
-/

namespace VersionBoard

/-! ### Calls that have ended -/

/-- The outcome and the contents of a file `f` after the call, made through a handle opened at `path` that asked its
host for `calls`. -/
inductive BoardCall.Does (c : BoardCall) (path : String) (calls : List CallRecord) (f : Image) :
    Except Halt Answer → Image → Prop
  /-- The host refused something, and the file is at most longer. -/
  | refused {e : Error} {k : Nat} (hk : k ≤ Region.maxSize) (hkept : Board.need f.cells c ≤ f.size → f.grow k = f)
      (hfirst : firstError? path calls = some e) (hsize : (f.grow k).size = f.size ∨
        (f.grow k).size = Region.roomFor (Board.need f.cells c) f.size) :
      c.Does path calls f (.error (.failed e)) (f.grow k)
  /-- The call did what its plan says, in a file that may have got longer for it. -/
  | planned {k : Nat} (hk : k ≤ Region.maxSize) (hkept : Board.need f.cells c ≤ f.size → f.grow k = f)
      (hnone : firstError? path calls = none)
      (hholds : ∀ ed ∈ (c.plan f.cells).2, (f.grow k).Holds ed.slot)
      (hsize : (f.grow k).size = Region.roomFor (Board.need f.cells c) f.size) :
      c.Does path calls f (c.plan f.cells).1 ((f.grow k).edits (c.plan f.cells).2)

/-- The reply is not that something in the table is waited for. -/
def Reply.Unstuck {α : Type} (reply : Reply α) : Prop :=
  ∀ w, reply.outcome = .error (.waits w) → w = .advisoryLock

/-- The reply is an answer or an error, or that someone else holds the advisory lock. -/
def Reply.Settled {α : Type} (reply : Reply α) : Prop :=
  (∃ a, reply.outcome = .ok a) ∨ (∃ e, reply.outcome = .error (.failed e)) ∨
    reply.outcome = .error (.waits .advisoryLock)

theorem Reply.Settled.unstuck {α : Type} {reply : Reply α} (h : reply.Settled) : reply.Unstuck := by
  intro w hw
  rcases h with ⟨a, h⟩ | ⟨e, h⟩ | h <;> rw [h] at hw <;> cases hw
  rfl

theorem Reply.Settled.ne_violated {α : Type} {reply : Reply α} (h : reply.Settled) (x : Violation) :
    reply.outcome ≠ .error (.violated x) := by
  intro hx
  rcases h with ⟨a, h⟩ | ⟨e, h⟩ | h <;> rw [h] at hx <;> cases hx

theorem Reply.Settled.of_hindered {host : Host} {locked : Bool} {reply : Reply Answer}
    (h : Hindered host locked reply.outcome) : reply.Settled := .inr (h.imp And.left And.left)

/-- Whether a board is to be opened. -/
def Request.isOpening : Request → Bool
  | openBoard .. => true
  | create .. => true
  | _ => false

/-- The call that is requested. -/
def Request.call? : Request → Option BoardCall
  | call _ c => some c
  | _ => none

theorem Request.call?_eq_some {r : Request} {c : BoardCall} : r.call? = some c ↔ ∃ name, r = .call name c := by
  cases r <;> simp [call?]

/-- A call never waits for the advisory lock. -/
theorem BoardCall.plan_ne_advisoryLock (c : BoardCall) (w : Words) :
    (c.plan w).1 ≠ .error (.waits .advisoryLock) := by
  intro hw
  have hx := c.halts_plan w _ hw
  cases hx

/-- A call ends if its plan does. -/
theorem BoardCall.run_ends [Processor] {s : Scene} {n : Nat} (hm : s.Mapped n) (hf : s.file.image.Coherent)
    {c : BoardCall} (hplan : (c.plan s.file.image.cells).Ends) (w : Wait) : (c.run s).1 ≠ .error (.waits w) := by
  obtain ⟨t, m, calls, -, -, -, ⟨e, herr, -⟩ | ⟨-, hout, -⟩⟩ := c.run_makes hm hf.ready
  · rw [herr]
    exact fun h => nomatch h
  · rw [hout]
    exact hplan w

/-- On a board that is set up, a call that is not stuck ends as `Does` says. -/
theorem BoardCall.run_does [Processor] {s : Scene} {n : Nat} (hm : s.Mapped n) (hf : s.file.image.Coherent)
    (c : BoardCall) (hends : ∀ w, (c.run s).1 = .error (.waits w) → w = .advisoryLock) :
    ∃ calls, c.Does s.region.path calls s.file.image (c.run s).1 (c.run s).2.file.image ∧
      s.Asked calls (c.run s).2 ∧ (c.run s).2.region.holds = s.region.holds ∧ ∃ m, n ≤ m ∧ (c.run s).2.Mapped m := by
  obtain ⟨t, m, calls, hext, hasked, hmt, hcases⟩ := c.run_makes hm hf.ready
  have hnm : n ≤ m := by
    obtain ⟨m', hle, hm'⟩ := hext.mapped n hm
    rwa [hmt.unique hm']
  obtain ⟨k, hk, hgrown⟩ := hext.grown
  have hkept : Board.need s.file.image.cells c ≤ s.file.image.size → s.file.image.grow k = s.file.image := fun hle =>
    hgrown.symm.trans (hext.kept hle)
  refine ⟨calls, ?_⟩
  rcases hcases with ⟨e, herr, hfirst⟩ | ⟨hnone, hout, hsize, hholds, himage⟩
  · rw [herr]
    refine ⟨?_, hasked, hext.holds, m, hnm, hmt⟩
    have hsized := hext.sized
    rw [hgrown] at hsized ⊢
    exact .refused hk hkept hfirst hsized
  · have hplan : (c.plan s.file.image.cells).Ends := by
      intro w hw
      obtain rfl := hends w (hout.trans hw)
      exact c.plan_ne_advisoryLock _ hw
    rw [himage hplan, hout]
    rw [hgrown] at hholds hsize
    refine ⟨?_, ⟨hasked.host, hasked.path, hasked.said⟩, hext.holds, m, hnm, ?_⟩
    · rw [Scene.image_withImage, hgrown]
      exact .planned hk hkept hnone hholds hsize
    · refine ⟨hmt.mapping, hmt.header, Nat.le_trans hmt.inside (Nat.le_of_eq ?_)⟩
      rw [Scene.image_withImage, Image.size_edits]

namespace BoardCall.Does

variable {c : BoardCall} {path : String} {calls : List CallRecord} {f g : Image} {o : Except Halt Answer}

theorem coherent (h : c.Does path calls f o g) (hf : f.Coherent) : g.Coherent := by
  cases h with
  | refused hk => exact hf.grow hk
  | planned hk _ _ hholds =>
    refine (hf.grow hk).edits ?_ hholds
    rw [Image.cells_grow]
    exact c.allows_plan hf.table

theorem size_le (h : c.Does path calls f o g) : f.size ≤ g.size := by
  cases h with
  | refused => exact Nat.le_max_left ..
  | planned =>
    rw [Image.size_edits]
    exact Nat.le_max_left ..

/-- A call that was refused something changed no word; any other did what its plan says. -/
theorem cells_cases (h : c.Does path calls f o g) :
    (∃ e, firstError? path calls = some e ∧ o = .error (.failed e)) ∧ g.cells = f.cells ∨
      firstError? path calls = none ∧ o = (c.plan f.cells).1 ∧ g.cells = f.cells.edits (c.plan f.cells).2 := by
  cases h with
  | refused _ _ hfirst => exact .inl ⟨⟨_, hfirst, rfl⟩, Image.cells_grow ..⟩
  | planned _ _ hnone hholds =>
    right
    refine ⟨hnone, rfl, ?_⟩
    rw [Image.cells_edits hholds, Image.cells_grow]

/-- If nothing was refused, the call did what its plan says. -/
theorem of_granted (h : c.Does path calls f o g) (hnone : firstError? path calls = none) :
    o = (c.plan f.cells).1 ∧ g.cells = f.cells.edits (c.plan f.cells).2 := by
  rcases h.cells_cases with ⟨⟨e, hfirst, -⟩, -⟩ | ⟨-, h⟩
  · rw [hnone] at hfirst
    cases hfirst
  · exact h

end BoardCall.Does

theorem Mapping.isOpen_eq_false_iff {m : Mapping} : m.isOpen = false ↔ m = .closed := by
  rcases m with ⟨_ | n⟩ <;> simp [isOpen, closed]

theorem Mapping.isOpen_eq_true_iff {m : Mapping} : m.isOpen = true ↔ m ≠ .closed := by
  rw [Ne, ← isOpen_eq_false_iff, Bool.not_eq_false]

/-- A host that is not silent tells what it was asked for. -/
theorem Host.reportSince_told (h : Host) (calls : List CallRecord) :
    (h.told calls).reportSince h = if h.silent then [] else calls := by
  rw [reportSince, told, List.drop_left]

/-- The handle `h'` is what a call has left of the handle `h`: these calls were made on its host, and the reply reports
them. -/
structure Handle.Heard (h : Handle) (calls : List CallRecord) (reply : Reply Answer) (h' : Handle) : Prop where
  host : h'.region.host = h.region.host.told calls
  path : h'.region.path = h.region.path
  holds : h'.region.holds = h.region.holds
  said : h.region.host.Says calls
  calls : reply.calls = if h.region.host.silent then [] else calls

theorem Handle.Heard.of_told (h h' : Handle) {calls : List CallRecord} {o : Except Halt Answer}
    (hhost : h'.region.host = h.region.host.told calls) (hpath : h'.region.path = h.region.path)
    (hholds : h'.region.holds = h.region.holds) (hsaid : h.region.host.Says calls) :
    h.Heard calls ⟨o, h'.region.host.reportSince h.region.host⟩ h' where
  host := hhost
  path := hpath
  holds := hholds
  said := hsaid
  calls := by
    dsimp only
    rw [hhost, Host.reportSince_told]

/-! ### A file and its handles -/

/-- The handle is on a board, closed or with a mapping of a file of `size` bytes. -/
def Handle.Fits (size : Nat) : Handle → Prop
  | board r _ => r.mapping = .closed ∨ ∃ n, r.mapping = .upTo n ∧ headerSize ≤ n ∧ n ≤ size
  | bare _ => False

theorem Handle.Fits.mono {a b : Nat} (hab : a ≤ b) {h : Handle} (hh : h.Fits a) : h.Fits b := by
  cases h with
  | bare => exact hh
  | board r c =>
    rcases hh with hh | ⟨n, h1, h2, h3⟩
    · exact .inl hh
    · exact .inr ⟨n, h1, h2, Nat.le_trans h3 hab⟩

/-- Nothing has been opened on the file: it is missing or blank. -/
structure Shared.Fresh (s : Shared) : Prop where
  handles : s.handles = []
  file : ∀ f, s.file? = some f → f.Blank ∧ f.size ≤ Region.maxSize

theorem Shared.fresh_empty : Shared.Fresh {} := ⟨rfl, fun _ h => nomatch h⟩

/-- The file holds a board with the contents `f`, and every handle has some of it mapped or is closed. -/
structure Shared.Opened (s : Shared) (f : Image) : Prop where
  file : s.file? = some f
  coherent : f.Coherent
  handles : ∀ name h, s.handles.get? name = some h → h.Fits f.size

/-- What a request does to a file with the contents `f`: its reply, if there is one, and the contents then. -/
inductive Shared.Takes (s : Shared) (f : Image) : Request → Option (Reply Answer) → Image → Prop
  /-- A request that is no call leaves the file alone. -/
  | other {r : Request} {reply? : Option (Reply Answer)} (hr : r.call? = none)
      (hreply : ∀ reply, reply? = some reply → reply.Settled) : s.Takes f r reply? f
  /-- A call needs a handle. -/
  | unknown {name : String} {c : BoardCall} (hname : s.handles.get? name = none) : s.Takes f (.call name c) none f
  /-- A closed handle can only say so. -/
  | closed {name : String} {c : BoardCall} {h : Handle} {reply : Reply Answer} (hname : s.handles.get? name = some h)
      (hclosed : h.region.mapping = .closed) (hreply : reply.outcome = .error (.failed .closed)) :
      s.Takes f (.call name c) (some reply) f
  /-- A call through an open handle. -/
  | call {name : String} {c : BoardCall} {h : Handle} {calls : List CallRecord} {reply : Reply Answer} {g : Image}
      (hname : s.handles.get? name = some h) (hopen : h.region.mapping ≠ .closed) (hsaid : h.region.host.Says calls)
      (hdoes : c.Does h.region.path calls f reply.outcome g) : s.Takes f (.call name c) (some reply) g

namespace Shared

variable {s : Shared} {f : Image} {name : String}

theorem act_of_get? {α : Type} {g : Handle → Option (Act Scene α)} {h : Handle} {x : Act Scene α}
    (hh : s.handles.get? name = some h) (hf : s.file? = some f) (hx : g h = some x) :
    s.act name g = some
      (⟨(x (s.scene name h f)).1, (x (s.scene name h f)).2.region.host.reportSince h.region.host⟩,
        { file? := some (x (s.scene name h f)).2.file.image
          handles := s.handles.put name (h.withRegion (x (s.scene name h f)).2.region) }) := by
  simp [act, hh, hf, hx]

theorem act_of_none {α : Type} (g : Handle → Option (Act Scene α)) (hh : s.handles.get? name = none) :
    s.act name g = none := by
  simp [act, hh]

theorem act_of_missing {α : Type} (g : Handle → Option (Act Scene α)) (hf : s.file? = none) : s.act name g = none := by
  simp [act, hf]

theorem act_of_barred {α : Type} {g : Handle → Option (Act Scene α)} {h : Handle} (hh : s.handles.get? name = some h)
    (hx : g h = none) : s.act name g = none := by
  simp [act, hh, hx]

/-- Only what is done through a handle matters to the others. -/
theorem handles_put {size : Nat} {h : Handle} (hall : ∀ name h, s.handles.get? name = some h → h.Fits size)
    (hh : h.Fits size) (other : String) (h' : Handle) (hget : (s.handles.put name h).get? other = some h') :
    h'.Fits size := by
  by_cases hother : other = name
  · rw [hother, Named.get?_put_self] at hget
    obtain rfl := Option.some.inj hget
    exact hh
  · rw [Named.get?_put_of_ne _ hother] at hget
    exact hall other h' hget

theorem Opened.forget (hs : s.Opened f) : (s.forget name).Opened f := by
  refine ⟨hs.file, hs.coherent, ?_⟩
  intro other h hget
  by_cases hother : other = name
  · rw [hother, Shared.forget, Named.get?_erase_self] at hget
    cases hget
  · rw [Shared.forget, Named.get?_erase_of_ne _ hother] at hget
    exact hs.handles other h hget

/-- What is done through a handle that leaves the file alone and the mapping as it is or closed. -/
theorem through_opened (hs : s.Opened f) (name : String) {g : Handle → Option (Act Scene Answer)} {x : Act Scene Answer}
    (hg : ∀ h, g h = some x)
    (hx : ∀ t : Scene, (∃ a, (x t).1 = .ok a) ∧ (x t).2.file = t.file ∧
      ((x t).2.region.mapping = t.region.mapping ∨ (x t).2.region.mapping = .closed)) :
    (s.through name g).2.Opened f ∧ ∀ reply, (s.through name g).1 = some reply → ∃ a, reply.outcome = .ok a := by
  cases hget : s.handles.get? name with
  | none =>
    rw [through, act_of_none g hget]
    exact ⟨hs, nofun⟩
  | some h =>
    obtain ⟨⟨a, ha⟩, hfile, hmapping⟩ := hx (s.scene name h f)
    rw [through, act_of_get? hget hs.file (hg h)]
    refine ⟨⟨congrArg (fun file : File => some file.image) hfile, hs.coherent, handles_put hs.handles ?_⟩,
      fun reply hreply => ?_⟩
    · have hfits := hs.handles name h hget
      cases h with
      | bare region => exact hfits
      | board region config =>
        rcases hmapping with hsame | hclosed
        · rw [Handle.withRegion, Handle.Fits, hsame]
          exact hfits
        · exact .inl hclosed
    · obtain rfl := Option.some.inj hreply
      exact ⟨a, ha⟩

theorem Opened.found? (hs : s.Opened f) : s.found? = some ⟨f, s.locked⟩ := by
  rw [Shared.found?, hs.file]
  rfl

theorem keep_of_ok {handle : Region → Handle} {opened : Reply Answer × Option Image × Region} {a : Answer}
    (h : opened.1.outcome = .ok a) : s.keep name handle opened =
      (opened.1, { file? := opened.2.1, handles := s.handles.put name (handle opened.2.2) }) := by
  obtain ⟨reply, file?, region⟩ := opened
  dsimp only at h
  unfold keep
  simp only [h]

theorem keep_of_error {handle : Region → Handle} {opened : Reply Answer × Option Image × Region} {x : Halt}
    (h : opened.1.outcome = .error x) :
    s.keep name handle opened = (opened.1, { s with file? := opened.2.1 }) := by
  obtain ⟨reply, file?, region⟩ := opened
  dsimp only at h
  unfold keep
  simp only [h]

/-- Opening a board that is set up gives a handle that has all of it mapped, or it is hindered and does nothing. -/
theorem keep_opened [Processor] (hs : s.Opened f) (name path : String) (host : Host) (config : Config) :
    (∃ h : Handle, h.region.mapping = .upTo f.size ∧ TookLock host s.locked h.region.holds ∧
        h.region.host.toFaults = host.toFaults ∧
        (s.step (.openBoard name path host config)).2 = { s with handles := s.handles.put name h } ∧
        (s.step (.openBoard name path host config)).2.Opened f ∧
        ∃ reply, (s.step (.openBoard name path host config)).1 = some reply ∧ reply.outcome = .ok (.size f.size)) ∨
      (s.step (.openBoard name path host config)).2 = s ∧
        ∃ reply, (s.step (.openBoard name path host config)).1 = some reply ∧ Hindered host s.locked reply.outcome := by
  obtain ⟨hfile, hcases⟩ := Board.opening_of_signed Board.gentle_size path host config hs.coherent.toSigned s.locked
  rw [step, hs.found?, Board.openAt]
  rcases hcases with hhindered | ⟨t, hm, hfaults, hholds, hok, hregion⟩
  · right
    obtain ⟨x, hx⟩ := hhindered.exists_error
    rw [keep_of_error hx, hfile, ← hs.file]
    exact ⟨rfl, _, rfl, hhindered⟩
  · left
    rw [keep_of_ok hok, hfile, hregion, ← hs.file]
    refine ⟨.board t.region config, hm.mapping, hholds, hfaults, rfl, ⟨hs.file, hs.coherent, ?_⟩, _, rfl, hok⟩
    exact handles_put hs.handles (.inr ⟨f.size, hm.mapping, hm.header, Nat.le_refl _⟩)

/-- To open a board that is set up and close it at once does nothing. -/
theorem create_opened [Processor] (hs : s.Opened f) (path : String) (host : Host) (config : Config) :
    (s.step (.create path host config)).2 = s ∧
      ∃ reply, (s.step (.create path host config)).1 = some reply ∧
        (reply.outcome = .ok .done ∨ Hindered host s.locked reply.outcome) := by
  obtain ⟨hfile, hcases⟩ := Board.opening_of_signed Board.gentle_close path host config hs.coherent.toSigned s.locked
  rw [step, hs.found?, Board.createAt]
  refine ⟨?_, _, rfl, ?_⟩
  · dsimp only
    rw [hfile, ← hs.file]
  · rcases hcases with hhindered | ⟨t, -, -, -, hok, -⟩
    · exact .inr hhindered
    · exact .inl hok

/-- A call through an open handle does as `Does` says, and a closed handle can only say so. Either way the handle is
left open or closed, at the same path, with no less mapped, and its host has been asked for what the reply says. -/
theorem call_opened [Processor] (hs : s.Opened f) {h : Handle} (hget : s.handles.get? name = some h) (c : BoardCall)
    (hends : ∀ reply, (s.step (.call name c)).1 = some reply → reply.Unstuck) :
    ∃ reply g h' calls, (s.step (.call name c)).1 = some reply ∧ (s.step (.call name c)).2.Opened g ∧
      (h.region.mapping.isOpen = false ∧ reply.outcome = .error (.failed .closed) ∧ g = f ∧ calls = [] ∨
        h.region.mapping.isOpen = true ∧ c.Does h.region.path calls f reply.outcome g) ∧
      (s.step (.call name c)).2.handles = s.handles.put name h' ∧ h.Heard calls reply h' ∧
      h'.region.mapping.isOpen = h.region.mapping.isOpen ∧ h.region.mapping.size ≤ h'.region.mapping.size := by
  rw [step, through] at hends ⊢
  have hfits := hs.handles name h hget
  cases h with
  | bare region => exact hfits.elim
  | board region config =>
    have hx : (Handle.board region config).call? c = some c.run := rfl
    rw [act_of_get? hget hs.file hx] at hends ⊢
    rcases hfits with hclosed | ⟨n, hn, hheader, hinside⟩
    · rw [BoardCall.run_of_closed (s := s.scene name (.board region config) f) hclosed c]
      refine ⟨_, f, .board region config, [], rfl, ⟨rfl, hs.coherent, handles_put hs.handles (.inl hclosed)⟩,
        .inl ⟨Mapping.isOpen_eq_false_iff.mpr hclosed, rfl, rfl, rfl⟩, rfl, ?_, rfl, Nat.le_refl _⟩
      exact .of_told _ _ (Host.told_nil _).symm rfl rfl trivial
    · have hm : (s.scene name (.board region config) f).Mapped n := ⟨hn, hheader, hinside⟩
      obtain ⟨calls, hdoes, hasked, hholds, m, hnm, hm'⟩ := c.run_does hm hs.coherent (hends _ rfl)
      have hhandles : ∀ other h, (s.handles.put name (.board (c.run (s.scene name (.board region config) f)).2.region
          config)).get? other = some h →
            h.Fits (c.run (s.scene name (.board region config) f)).2.file.image.size :=
        handles_put (fun other h hh => (hs.handles other h hh).mono hdoes.size_le)
          (.inr ⟨m, hm'.mapping, hm'.header, hm'.inside⟩)
      have hopen : region.mapping.isOpen = true := by
        rw [hn]
        rfl
      refine ⟨_, _, .board (c.run (s.scene name (.board region config) f)).2.region config, calls, rfl,
        ⟨rfl, hdoes.coherent hs.coherent, hhandles⟩, .inr ⟨hopen, hdoes⟩, rfl, ?_, ?_, ?_⟩
      · exact Handle.Heard.of_told (.board region config) (.board _ config) hasked.host hasked.path hholds hasked.said
      · show (c.run (s.scene name (.board region config) f)).2.region.mapping.isOpen = region.mapping.isOpen
        rw [hm'.mapping, hn]
        rfl
      · show region.mapping.size ≤ (c.run (s.scene name (.board region config) f)).2.region.mapping.size
        rw [hm'.mapping, hn]
        exact hnm

theorem call_unknown [Processor] (hget : s.handles.get? name = none) (c : BoardCall) :
    s.step (.call name c) = (none, s) := by
  rw [step, through, act_of_none _ hget]

theorem changeHost_keeps (host : Host) (t : Scene) : (changeHost host t).2.file = t.file ∧
    (changeHost host t).2.region.mapping = t.region.mapping ∧ (changeHost host t).2.region.holds = t.region.holds ∧
      ((changeHost host t).2.region.host = t.region.host ∨ (changeHost host t).2.region.host = host) := by
  have happly : (changeHost host t).2 =
      if t.region.host.silent then t else { t with region := { t.region with host } } := rfl
  rw [happly]
  split_ifs
  · exact ⟨rfl, rfl, rfl, .inl rfl⟩
  · exact ⟨rfl, rfl, rfl, .inr rfl⟩

/-- A request that is no call leaves a board as it is. If it waits, then it is an opening while a handle holds the
advisory lock, and does nothing. -/
theorem other_opened [Processor] (hs : s.Opened f) {r : Request} (hr : r.call? = none) :
    (s.step r).2.Opened f ∧ ∀ reply, (s.step r).1 = some reply → reply.Settled ∧
      (reply.outcome = .error (.waits .advisoryLock) → r.isOpening = true ∧ s.locked = true ∧ (s.step r).2 = s) := by
  have hok : ∀ {reply : Reply Answer} {P : Prop}, (∃ a, reply.outcome = .ok a) →
      reply.Settled ∧ (reply.outcome = .error (.waits .advisoryLock) → P) := by
    rintro reply P ⟨a, ha⟩
    exact ⟨.inl ⟨a, ha⟩, fun hw => nomatch ha.symm.trans hw⟩
  have hclose : ∀ name, (s.close name).2.Opened f ∧
      ∀ reply, (s.close name).1 = some reply → ∃ a, reply.outcome = .ok a := fun name =>
    through_opened hs name (fun _ => rfl) fun t => ⟨⟨_, rfl⟩, rfl, .inr rfl⟩
  cases r with
  | call name c => cases hr
  | openBoard name path host config =>
    rcases keep_opened hs name path host config with
      ⟨h, -, -, -, -, hopened, reply, hreply, hout⟩ | ⟨hsame, reply, hreply, hhindered⟩
    · refine ⟨hopened, fun reply' hreply' => ?_⟩
      obtain rfl := Option.some.inj (hreply.symm.trans hreply')
      exact hok ⟨_, hout⟩
    · refine ⟨by rwa [hsame], fun reply' hreply' => ?_⟩
      obtain rfl := Option.some.inj (hreply.symm.trans hreply')
      exact ⟨.of_hindered hhindered, fun hw => ⟨rfl, hhindered.locked_of_waits hw, hsame⟩⟩
  | create path host config =>
    obtain ⟨hsame, reply, hreply, hcases⟩ := create_opened hs path host config
    refine ⟨by rwa [hsame], fun reply' hreply' => ?_⟩
    obtain rfl := Option.some.inj (hreply.symm.trans hreply')
    rcases hcases with hout | hhindered
    · exact hok ⟨_, hout⟩
    · exact ⟨.of_hindered hhindered, fun hw => ⟨rfl, hhindered.locked_of_waits hw, hsame⟩⟩
  | close name => exact ⟨(hclose name).1, fun reply hreply => hok ((hclose name).2 reply hreply)⟩
  | drop name => exact ⟨(hclose name).1.forget, fun reply hreply => hok ((hclose name).2 reply hreply)⟩
  | setHost name host =>
    have hset := through_opened hs name (g := fun _ => some (changeHost host)) (fun _ => rfl) fun t => by
      obtain ⟨hfile, hmapping, -⟩ := changeHost_keeps host t
      exact ⟨⟨_, rfl⟩, hfile, .inl hmapping⟩
    exact ⟨hset.1, fun reply hreply => hok (hset.2 reply hreply)⟩

/-- What a request that is not stuck does to a file that holds a board. -/
theorem step_opened [Processor] (hs : s.Opened f) (r : Request)
    (hends : ∀ reply, (s.step r).1 = some reply → reply.Unstuck) :
    ∃ g, (s.step r).2.Opened g ∧ s.Takes f r (s.step r).1 g := by
  cases hr : r.call? with
  | some c =>
    obtain ⟨name, rfl⟩ := Request.call?_eq_some.mp hr
    cases hget : s.handles.get? name with
    | none =>
      rw [call_unknown hget]
      exact ⟨f, hs, .unknown hget⟩
    | some h =>
      obtain ⟨reply, g, h', calls, hreply, hopened, hcases, -, hheard, -⟩ := call_opened hs hget c hends
      rw [hreply]
      rcases hcases with ⟨hclosed, hout, rfl, -⟩ | ⟨hopen, hdoes⟩
      · exact ⟨g, hopened, .closed hget (Mapping.isOpen_eq_false_iff.mp hclosed) hout⟩
      · exact ⟨g, hopened, .call hget (Mapping.isOpen_eq_true_iff.mp hopen) hheard.said hdoes⟩
  | none =>
    obtain ⟨hopened, hreply⟩ := other_opened hs hr
    exact ⟨f, hopened, .other hr fun reply h => (hreply reply h).1⟩

/-- Who waits for the advisory lock is an opening, while a handle holds the lock; and it has done nothing. -/
theorem opening_of_waits [Processor] (hs : s.Opened f) {r : Request} {reply : Reply Answer}
    (hreply : (s.step r).1 = some reply) (hw : reply.outcome = .error (.waits .advisoryLock)) :
    r.isOpening = true ∧ s.locked = true ∧ (s.step r).2 = s := by
  cases hr : r.call? with
  | none => exact ((other_opened hs hr).2 reply hreply).2 hw
  | some c =>
    obtain ⟨name, rfl⟩ := Request.call?_eq_some.mp hr
    have hends : ∀ reply', (s.step (.call name c)).1 = some reply' → reply'.Unstuck := by
      intro reply' hreply' w hw'
      obtain rfl := Option.some.inj (hreply.symm.trans hreply')
      exact (Halt.waits.inj (Except.error.inj (hw.symm.trans hw'))).symm
    obtain ⟨g, -, htakes⟩ := step_opened hs (.call name c) hends
    rw [hreply] at htakes
    generalize hout : reply.outcome = o at hw
    cases htakes with
    | other hr' => cases hr'
    | closed _ _ hclosed => exact nomatch hw.symm.trans (hout.symm.trans hclosed)
    | call _ _ _ hdoes =>
      rw [hout] at hdoes
      rcases hdoes.cells_cases with ⟨⟨e, -, he⟩, -⟩ | ⟨-, hplan, -⟩
      · exact nomatch he.symm.trans hw
      · exact absurd (hplan.symm.trans hw) (c.plan_ne_advisoryLock _)

/-- A request is not stuck if it is no call through an open handle, or the plan of the call ends. -/
theorem step_unstuck [Processor] (hs : s.Opened f) (r : Request)
    (hplan : ∀ name c h, r = .call name c → s.handles.get? name = some h → h.region.mapping ≠ .closed →
      (c.plan f.cells).Ends) (reply : Reply Answer) (hreply : (s.step r).1 = some reply) : reply.Unstuck := by
  cases hr : r.call? with
  | none => exact ((other_opened hs hr).2 reply hreply).1.unstuck
  | some c =>
    obtain ⟨name, rfl⟩ := Request.call?_eq_some.mp hr
    rw [step, through] at hreply
    cases hget : s.handles.get? name with
    | none =>
      rw [act_of_none _ hget] at hreply
      cases hreply
    | some h =>
      have hfits := hs.handles name h hget
      have hends := hplan name c h rfl hget
      cases h with
      | bare region => exact hfits.elim
      | board region config =>
        have hx : (Handle.board region config).call? c = some c.run := rfl
        rw [act_of_get? hget hs.file hx] at hreply
        obtain rfl := Option.some.inj hreply
        rcases hfits with hclosed | ⟨n, hn, hheader, hinside⟩
        · have hrun := BoardCall.run_of_closed (s := s.scene name (.board region config) f) hclosed c
          exact Reply.Settled.unstuck (.inr (.inl ⟨_, congrArg Prod.fst hrun⟩))
        · have hopen : region.mapping ≠ .closed := by
            rw [hn]
            nofun
          have hm : (s.scene name (.board region config) f).Mapped n := ⟨hn, hheader, hinside⟩
          exact fun w hw => absurd hw (c.run_ends hm hs.coherent (hends hopen) w)

/-! ### What every handle gets -/

/-- Whatever handle the call goes through: a closed one says that it is closed; an open one reports the first refusal of
its host while the call is made, and if there is none, then the outcome and the contents of the file then are as `P`
says. -/
def Gets [Processor] (s : Shared) (c : BoardCall) (P : Except Halt Answer → Option Image → Prop) : Prop :=
  ∀ name h, s.handles.get? name = some h → ∃ reply h' calls, (s.step (.call name c)).1 = some reply ∧
    (s.step (.call name c)).2.handles.get? name = some h' ∧ h.Heard calls reply h' ∧
    (h.region.mapping = .closed ∧ reply.outcome = .error (.failed .closed) ∨
      (∃ e, firstError? h.region.path calls = some e ∧ reply.outcome = .error (.failed e)) ∨
      firstError? h.region.path calls = none ∧ P reply.outcome (s.step (.call name c)).2.file?)

/-- The call gets this answer through every handle that is open and whose host refuses nothing meanwhile. -/
def Answers [Processor] (s : Shared) (c : BoardCall) (a : Answer) : Prop := s.Gets c fun o _ => o = .ok a

theorem Gets.mono [Processor] {c : BoardCall} {P Q : Except Halt Answer → Option Image → Prop} (h : s.Gets c P)
    (hPQ : ∀ o file?, P o file? → Q o file?) : s.Gets c Q := by
  intro name hd hname
  obtain ⟨reply, h', calls, hreply, hget, hheard, hcases⟩ := h name hd hname
  exact ⟨reply, h', calls, hreply, hget, hheard, hcases.imp_right (Or.imp_right (And.imp_right (hPQ _ _)))⟩

/-- On a board every handle gets what the plan says, if the plan ends. -/
theorem Opened.gets [Processor] (hs : s.Opened f) {c : BoardCall} (hplan : (c.plan f.cells).Ends)
    {P : Except Halt Answer → Option Image → Prop} (hP : ∀ k, (Board.need f.cells c ≤ f.size → f.grow k = f) →
      P (c.plan f.cells).1 (some ((f.grow k).edits (c.plan f.cells).2))) : s.Gets c P := by
  intro name h hname
  have hends := step_unstuck hs (.call name c) fun _ _ _ hc _ _ => by
    cases hc
    exact hplan
  obtain ⟨reply, g, h', calls, hreply, hopened, hcases, hhandles, hheard, -⟩ := call_opened hs hname c hends
  refine ⟨reply, h', calls, hreply, ?_, hheard, ?_⟩
  · rw [hhandles, Named.get?_put_self]
  rcases hcases with ⟨hclosed, hout, -⟩ | ⟨-, hdoes⟩
  · exact .inl ⟨Mapping.isOpen_eq_false_iff.mp hclosed, hout⟩
  · right
    rw [hopened.file]
    generalize reply.outcome = o at hdoes
    cases hdoes with
    | refused _ _ hfirst => exact .inl ⟨_, hfirst, rfl⟩
    | planned _ hkept hnone => exact .inr ⟨hnone, hP _ hkept⟩

/-- A call that makes no edits leaves the file as it is. -/
theorem Opened.gets_of_table [Processor] (hs : s.Opened f) {c : TableCall} {o : Except Halt Answer}
    (hplan : c.plan f.cells f.cells.used = (o, [])) (ho : ∀ w, o ≠ .error (.waits w)) :
    s.Gets (.table c) fun o' file? => o' = o ∧ file? = s.file? := by
  have hplan' : (BoardCall.table c).plan f.cells = (o, []) := hplan
  refine hs.gets (by rw [hplan']; exact ho) ?_
  intro k hkept
  rw [hplan', hs.file, hkept hs.coherent.fits]
  exact ⟨rfl, rfl⟩

/-! ### The first opening -/

theorem Fresh.get? (hs : s.Fresh) (name : String) : s.handles.get? name = none := by
  rw [hs.handles]
  rfl

theorem Fresh.through (hs : s.Fresh) (g : Handle → Option (Act Scene Answer)) : s.through name g = (none, s) := by
  rw [Shared.through, act_of_none g (hs.get? name)]

/-- The file has become the new board that a first opening makes. -/
def Founded (s : Shared) : Prop :=
  ∃ policy k, sizeFor policy.initialPartitions ≤ k ∧ k ≤ Region.maxSize ∧ s.Opened (Image.newBoard policy k)

theorem Fresh.locked (hs : s.Fresh) : s.locked = false := by
  rw [Shared.locked, hs.handles]
  rfl

/-- The file that a first opening leaves is a new board. -/
theorem founded_of_isNew {policy : Policy} {size : Nat} {t : Scene} {handles : Named Handle}
    (hnew : Board.IsNew policy size t) (hfits : ∀ name h, handles.get? name = some h → h.Fits t.file.image.size) :
    Founded { file? := some t.file.image, handles } := by
  obtain ⟨k, n, -, himage, hroom, hk, hm⟩ := hnew
  have hroom' : sizeFor policy.initialPartitions ≤ k := by
    have hinside := hm.inside
    rw [himage, Image.size_newBoard] at hinside
    omega
  rw [himage] at hfits ⊢
  exact ⟨policy, k, hroom', hk, rfl, (Image.sound_newBoard policy hroom' hk).toCoherent, hfits⟩

/-- A first opening that succeeds makes a new board and a handle; any other leaves nothing but a file that may be
longer. -/
theorem keep_fresh [Processor] (hs : s.Fresh) (name path : String) (host : Host) (config : Config) :
    (∃ h : Handle, TookLock host s.locked h.region.holds ∧
        (s.step (.openBoard name path host config)).2.handles = s.handles.put name h ∧
        (s.step (.openBoard name path host config)).2.Founded ∧
        ∃ reply a, (s.step (.openBoard name path host config)).1 = some reply ∧ reply.outcome = .ok a) ∨
      (s.step (.openBoard name path host config)).2.Fresh ∧
        ∃ reply, (s.step (.openBoard name path host config)).1 = some reply ∧
          ∃ e, reply.outcome = .error (.failed e) := by
  rw [step, Board.openAt, Shared.found?, hs.locked]
  rcases Board.opening_of_blank Board.gentle_size path host config hs.file false with
    ⟨t, m, hnew, -, hholds, hfile, hok, hregion⟩ | ⟨hhindered, hfresh, -⟩
  · left
    rw [keep_of_ok hok, hfile, hregion]
    refine ⟨.board t.region config, ⟨rfl, hholds.kept⟩, rfl, founded_of_isNew hnew ?_, _, _, rfl, hok⟩
    obtain ⟨k, n, -, -, -, -, hm⟩ := hnew
    refine handles_put (fun other h hget => ?_) (.inr ⟨n, hm.mapping, hm.header, hm.inside⟩)
    rw [hs.get?] at hget
    cases hget
  · right
    obtain ⟨e, he⟩ := hhindered.failed
    rw [keep_of_error he]
    exact ⟨⟨hs.handles, hfresh⟩, _, rfl, e, he⟩

theorem create_fresh [Processor] (hs : s.Fresh) (path : String) (host : Host) (config : Config) :
    (s.step (.create path host config)).2.handles = [] ∧ ∃ reply, (s.step (.create path host config)).1 = some reply ∧
      ((s.step (.create path host config)).2.Founded ∧ (∃ a, reply.outcome = .ok a) ∨
        (s.step (.create path host config)).2.Fresh ∧ ∃ e, reply.outcome = .error (.failed e)) := by
  rw [step, Board.createAt, Shared.found?, hs.locked]
  refine ⟨hs.handles, _, rfl, ?_⟩
  rcases Board.opening_of_blank Board.gentle_close path host config hs.file false with
    ⟨t, m, hnew, -, -, hfile, hok, -⟩ | ⟨hhindered, hfresh, -⟩
  · left
    refine ⟨?_, _, hok⟩
    dsimp only
    rw [hfile, hs.handles]
    exact founded_of_isNew hnew fun _ _ h => nomatch h
  · exact .inr ⟨⟨hs.handles, hfresh⟩, hhindered.failed⟩

/-- What a request does to a file that holds no board yet: an opening that succeeds makes a new board of it,
and nothing else does anything. -/
theorem step_fresh [Processor] (hs : s.Fresh) (r : Request) :
    (s.step r).2.Founded ∧ r.isOpening = true ∧ (∃ reply a, (s.step r).1 = some reply ∧ reply.outcome = .ok a) ∨
      (s.step r).2.Fresh ∧ ∀ reply, (s.step r).1 = some reply → ∃ e, reply.outcome = .error (.failed e) := by
  cases r with
  | openBoard name path host config =>
    rcases keep_fresh hs name path host config with ⟨h, -, -, hnew, hreply⟩ | ⟨hfresh, reply, hreply, he⟩
    · exact .inl ⟨hnew, rfl, hreply⟩
    · refine .inr ⟨hfresh, ?_⟩
      intro reply' h
      obtain rfl := Option.some.inj (hreply.symm.trans h)
      exact he
  | create path host config =>
    obtain ⟨-, reply, hreply, ⟨hnew, a, ha⟩ | ⟨hfresh, he⟩⟩ := create_fresh hs path host config
    · exact .inl ⟨hnew, rfl, reply, a, hreply, ha⟩
    · refine .inr ⟨hfresh, ?_⟩
      intro reply' h
      obtain rfl := Option.some.inj (hreply.symm.trans h)
      exact he
  | call name c =>
    rw [step, hs.through]
    exact .inr ⟨hs, nofun⟩
  | close name =>
    rw [step, close, hs.through]
    exact .inr ⟨hs, nofun⟩
  | drop name =>
    rw [step, close, hs.through]
    refine .inr ⟨⟨?_, hs.file⟩, nofun⟩
    show s.handles.erase name = []
    rw [hs.handles]
    rfl
  | setHost name host =>
    rw [step, hs.through]
    exact .inr ⟨hs, nofun⟩

/-- Nothing is amiss with a file that holds no board yet. -/
theorem Fresh.settled [Processor] (hs : s.Fresh) {r : Request} {reply : Reply Answer}
    (hreply : (s.step r).1 = some reply) : reply.Settled := by
  rcases step_fresh hs r with ⟨-, -, reply', a, hreply', ha⟩ | ⟨-, hfailed⟩
  · obtain rfl := Option.some.inj (hreply.symm.trans hreply')
    exact .inl ⟨a, ha⟩
  · exact .inr (.inl (hfailed reply hreply))

end Shared

end VersionBoard
