import VersionBoard.Proofs.Dialogue

/-!
# Calls that fail

A host may refuse a call at any of several points, some of them after the file
has been made longer or has been mapped anew. Wherever that is, the call leaves
every word as it was and every lock free; what it may leave behind is zeros at
the end of the file, as many as the call needs (`BoardCall.Does.of_failed`). The
next attempt finds them there and does not ask for more, so it ends where the
first one would have ended (`Image.tell_eq_of_grow`).
-/

namespace VersionBoard

/-- A file that a call has made longer already is told nothing else by it. -/
theorem Image.tell_eq_of_grow {f : Image} {k : Nat} {c : BoardCall} (hsize : (f.grow k).size = f.size ∨
    (f.grow k).size = Region.roomFor (Board.need f.cells c) f.size) : (f.grow k).tell c = f.tell c := by
  rcases hsize with hsame | hroom
  · rw [size_grow] at hsame
    rw [grow_of_le (by omega)]
  · have hagain : Region.roomFor (Board.need f.cells c) (f.grow k).size = (f.grow k).size := by
      rw [hroom, Region.roomFor_roomFor]
    rw [tell, tell, cells_grow, hagain, grow_of_le (Nat.le_refl _), ← hroom, grow_size_grow]

/-- A call that fails makes the file longer at most, and then no longer than it needs it. -/
theorem BoardCall.Does.of_failed {c : BoardCall} {path : String} {calls : List CallRecord} {f g : Image}
    {o : Except Halt Answer} {e : Error} (h : c.Does path calls f o g) (ho : o = .error (.failed e)) (hc : c.Trackable) :
    ∃ k, g = f.grow k ∧
      ((f.grow k).size = f.size ∨ (f.grow k).size = Region.roomFor (Board.need f.cells c) f.size) := by
  cases h with
  | @refused _ k _ _ _ hsize => exact ⟨k, rfl, hsize⟩
  | @planned k _ _ _ _ hsize =>
    rw [edits_of_error ho hc.not_abandons]
    exact ⟨k, rfl, .inr hsize⟩

namespace Shared

variable {s : Shared} {f : Image} {name : String} {h : Handle} {c : BoardCall}

/-! ### Another host -/

/-- The handle goes through another host. -/
def rehost (s : Shared) (name : String) (host : Host) : Shared :=
  match s.handles.get? name with
  | some h => { s with handles := s.handles.put name (h.withRegion { h.region with host }) }
  | none => s

theorem rehost_of_get? (hget : s.handles.get? name = some h) (host : Host) : s.rehost name host =
    { s with handles := s.handles.put name (h.withRegion { h.region with host }) } := by
  rw [rehost, hget]

/-- This is what can be asked for, unless the host is a silent one. -/
theorem Opened.step_setHost [Processor] (hs : s.Opened f) (hget : s.handles.get? name = some h)
    (hsilent : h.region.host.silent = false) (host : Host) : (s.step (.setHost name host)).2 = s.rehost name host := by
  have hscene : (changeHost host (s.scene name h f)).2 =
      { s.scene name h f with region := { h.region with host } } := if_neg (by simp [Shared.scene, hsilent])
  have hact := act_of_get? (g := fun _ => some (changeHost host)) hget hs.file rfl
  rw [hscene] at hact
  rw [rehost_of_get? hget, step, through, hact, hs.file]
  rfl

theorem Opened.rehost (hs : s.Opened f) (hget : s.handles.get? name = some h) (host : Host) :
    (s.rehost name host).Opened f := by
  rw [rehost_of_get? hget]
  refine ⟨hs.file, hs.coherent, handles_put hs.handles ?_⟩
  have hfits := hs.handles name h hget
  cases h with
  | board => exact hfits
  | bare => exact hfits

/-- On a host that refuses nothing, the call does to the board what its plan says. -/
theorem Opened.call_rehost [Processor] (hs : s.Opened f) (hf : f.Sound) (hget : s.handles.get? name = some h)
    (hopen : h.isOpen = true) (hc : c.Trackable) {host : Host} (hw : host.Willing) :
    ((s.rehost name host).step (.call name c)).1.map (·.outcome) = some (c.plan f.cells).1 ∧
      ((s.rehost name host).step (.call name c)).2.file? = some (f.tell c) := by
  have hget' : (s.rehost name host).handles.get? name = some (h.withRegion { h.region with host }) := by
    rw [rehost_of_get? hget]
    exact Named.get?_put_self ..
  have hregion : (h.withRegion { h.region with host }).region = { h.region with host } := by
    cases h <;> rfl
  have hopen' : (h.withRegion { h.region with host }).isOpen = true := by
    rw [Handle.isOpen, hregion]
    exact hopen
  have hw' : (h.withRegion { h.region with host }).region.host.Willing := by
    rw [hregion]
    exact hw
  obtain ⟨reply, hreply, hout, hopened, -⟩ := (hs.rehost hget host).call_willing hf hget' hopen' hw' hc
  exact ⟨by rw [hreply, Option.map_some, hout], hopened.file⟩

/-! ### A call that fails -/

/-- A call that fails, whatever its host refused, has changed no word and no other handle, and holds no lock. If it is
made again on a host that refuses nothing, its outcome and the file then are as if it had not been made before. -/
theorem call_failed [Processor] (hs : s.Reached) (hc : c.Trackable) (hget : s.handles.get? name = some h)
    (hopen : h.isOpen = true) {reply : Reply Answer} {e : Error} (hreply : (s.step (.call name c)).1 = some reply)
    (hfailed : reply.outcome = .error (.failed e)) :
    ∃ f g h', s.file? = some f ∧ (s.step (.call name c)).2.file? = some g ∧
      (g = f.grow g.size ∧ g.cells .headerLock = 0 ∧ ∀ i, g.cells (.slotLock i) = 0) ∧
      ((s.step (.call name c)).2.handles.get? name = some h' ∧ h'.isOpen = true ∧
        h.region.mapping.size ≤ h'.region.mapping.size) ∧
      (∀ other, other ≠ name → (s.step (.call name c)).2.handles.get? other = s.handles.get? other) ∧
      ∀ host : Host, host.Willing → ∃ o,
        (((s.step (.call name c)).2.rehost name host).step (.call name c)).1.map (·.outcome) = some o ∧
        ((s.rehost name host).step (.call name c)).1.map (·.outcome) = some o ∧
        (((s.step (.call name c)).2.rehost name host).step (.call name c)).2.file? =
          ((s.rehost name host).step (.call name c)).2.file? := by
  obtain ⟨f, hf, hsound⟩ := hs.sound
  obtain ⟨reply', g, h', calls, hreply', hg, hcases, hhandles, -, hopen', hmapped⟩ := call_opened hf hget c
    (hf.unstuck hsound _)
  obtain rfl := Option.some.inj (hreply.symm.trans hreply')
  have hget' : (s.step (.call name c)).2.handles.get? name = some h' := by
    rw [hhandles]
    exact Named.get?_put_self ..
  have hdoes : c.Does h.region.path calls f reply.outcome g := by
    rcases hcases with ⟨hclosed, -⟩ | ⟨-, hdoes⟩
    · exact absurd (hclosed.symm.trans hopen) Bool.false_ne_true
    · exact hdoes
  have hsound' := hdoes.sound hc hsound
  obtain ⟨k, rfl, hsize⟩ := hdoes.of_failed hfailed hc
  refine ⟨f, f.grow k, h', hf.file, hg.file,
    ⟨(f.grow_size_grow k).symm, hsound'.table.headerFree, hsound'.table.slotsFree⟩,
    ⟨hget', hopen'.trans hopen, hmapped⟩, fun other hne => ?_, fun host hw => ?_⟩
  · rw [hhandles, Named.get?_put_of_ne _ hne]
  · obtain ⟨hout, hfile⟩ := hf.call_rehost hsound hget hopen hc hw
    obtain ⟨hout', hfile'⟩ := hg.call_rehost hsound' hget' (hopen'.trans hopen) hc hw
    rw [Image.cells_grow] at hout'
    rw [Image.tell_eq_of_grow hsize] at hfile'
    exact ⟨_, hout', hout, hfile'.trans hfile.symm⟩

/-- The file has been made longer for a new slot when the host refuses to map it. The second attempt only maps it. -/
theorem call_failed_of_map :
    let faulty : Host := HostSettings.host { outages := [⟨.map, 1, 1⟩] }
    let s : Shared := (run {} [.create "board" .willing (Config.default.withPolicy .day),
      .openBoard "a" "board" faulty .default]).2
    let c : BoardCall := .add ⟨5⟩ ⟨7⟩
    (s.step (.call "a" c)).1.map (·.outcome) =
        some (.error (.failed (.cannotMap "board" (.refused (.injected .map))))) ∧
      s.file?.map (·.size) = some 64 ∧ (s.step (.call "a" c)).2.file?.map (·.size) = some 640 ∧
      (((s.step (.call "a" c)).2.rehost "a" .willing).step (.call "a" c)).1.map (·.outcome) = some (.ok (.flag true)) ∧
      (((s.step (.call "a" c)).2.rehost "a" .willing).step (.call "a" c)).2.file? =
        ((s.rehost "a" .willing).step (.call "a" c)).2.file? := by
  intro faulty s c
  have hreached : s.Reached := ⟨{}, _, fresh_empty, by decide, by decide +kernel, rfl⟩
  have hhas : (s.handles.get? "a").isSome = true := by decide +kernel
  have hopen : ∀ h ∈ s.handles.get? "a", h.isOpen = true := by decide +kernel
  have hfailed : (s.step (.call "a" c)).1.map (·.outcome) =
      some (.error (.failed (.cannotMap "board" (.refused (.injected .map))))) := by decide +kernel
  have hfirst : ((s.rehost "a" .willing).step (.call "a" c)).1.map (·.outcome) = some (.ok (.flag true)) := by
    decide +kernel
  obtain ⟨h, hget⟩ := Option.isSome_iff_exists.mp hhas
  obtain ⟨reply, hreply, hout⟩ := Option.map_eq_some_iff.mp hfailed
  obtain ⟨f, g, h', -, -, -, -, -, hretry⟩ := call_failed hreached (by decide) hget (hopen h hget) hreply hout
  obtain ⟨o, hagain, honce, hfile⟩ := hretry .willing Host.willing_willing
  refine ⟨hfailed, by decide +kernel, by decide +kernel, ?_, hfile⟩
  rw [hagain, ← honce, hfirst]

end Shared

end VersionBoard
