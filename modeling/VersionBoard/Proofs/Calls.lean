import VersionBoard.Proofs.FollowLocks
import VersionBoard.Proofs.Reach

/-!
# Calls on a board follow their plans

On a file in which nothing is locked and all used slots have room, a call on an
open board does what its plan says, except that its host may refuse something
first; and then it has changed nothing but how long the file is
(`BoardCall.run_makes`). The header lock, like the other locks, leaves no trace.
-/

namespace VersionBoard

variable {α β : Type}

/-- Nothing is locked, and the used slots lie inside the file. -/
structure Image.Ready (f : Image) : Prop where
  headerFree : f.cells .headerLock = 0
  slotsFree : ∀ i, f.cells (.slotLock i) = 0
  fits : sizeFor f.cells.used ≤ f.size
  size_le : f.size ≤ Region.maxSize

/-- In the scene `s` the action ends as the plan says and makes the plan's edits, in a scene that
the host has extended as far as `required` takes; or it was asked for something and refused that, and there are no
edits. -/
def Act.Makes (x : Act Scene α) (required : Nat) (s : Scene) (plan : Plan α) : Prop :=
  ∃ t m calls, s.Extends required t ∧ s.Asked calls t ∧ t.Mapped m ∧
    ((∃ e, x s = (.error (.failed e), t) ∧ firstError? s.region.path calls = some e) ∨
      firstError? s.region.path calls = none ∧ (x s).1 = plan.1 ∧
        t.file.image.size = Region.roomFor required s.file.image.size ∧
        (∀ ed ∈ plan.2, t.file.image.Holds ed.slot) ∧
        (plan.Ends → (x s).2 = t.withImage (t.file.image.edits plan.2)))

open Region

namespace Act.Makes

variable {x : Act Scene α} {required : Nat} {s : Scene} {plan : Plan α}

theorem congr {y : Act Scene α} (h : x s = y s) (hy : y.Makes required s plan) : x.Makes required s plan := by
  rwa [Makes, h]

theorem after {g : α → Act Scene β} {plan : Plan β} {a : α} (h : x s = (.ok a, s)) (hg : (g a).Makes required s plan) :
    (x >>= g).Makes required s plan := by
  rw [Makes, Act.bind_of_ok h]
  exact hg

theorem map (h : x.Makes required s plan) (g : α → β) : (g <$> x).Makes required s (plan.map g) := by
  obtain ⟨t, m, calls, hext, hasked, hm, hcases⟩ := h
  refine ⟨t, m, calls, hext, hasked, hm, ?_⟩
  rw [Act.map_apply]
  rcases hcases with ⟨e, herr, hfirst⟩ | ⟨hnone, h1, hsize, h2, h3⟩
  · rw [herr]
    exact .inl ⟨e, rfl, hfirst⟩
  · right
    refine ⟨hnone, ?_, hsize, h2, fun he => ?_⟩
    · rw [Plan.map, ← h1]
      rcases x s with ⟨_ | _, _⟩ <;> rfl
    · have hp : plan.Ends := fun w hw => he w (by rw [Plan.map, hw]; rfl)
      rw [Plan.map, ← h3 hp]
      rcases x s with ⟨_ | _, _⟩ <;> rfl

/-- What is done through the mapping, in a file that is long enough. -/
theorem onTable {f : Mapping → Act Image α} {n : Nat} (hm : s.Mapped n)
    (hroom : roomFor required s.file.image.size = s.file.image.size)
    (hf : (f (.upTo n)).Follows s.file.image plan) (hes : ∀ ed ∈ plan.2, s.file.image.Holds ed.slot) :
    (onTable f).Makes required s plan := by
  have hrun : Region.onTable f s =
      ((f (.upTo n) s.file.image).1, s.withImage (f (.upTo n) s.file.image).2) := onTable_of_eq (by rw [hm.mapping])
  refine ⟨s, n, [], .refl required s, .refl s, hm, .inr ?_⟩
  rw [hrun]
  exact ⟨rfl, hf.1, hroom.symm, hes, fun he => by rw [hf.2 he]⟩

/-- What is done in a scene that the host has extended without refusing anything. -/
theorem then_extended {y : Act Scene β} {g : β → Act Scene α} {a : β} {t : Scene} {calls : List CallRecord}
    (h : y s = (.ok a, t)) (hext : s.Extends required t) (hasked : s.Asked calls t)
    (hnone : firstError? s.region.path calls = none) (hg : (g a).Makes required t plan) :
    (y >>= g).Makes required s plan := by
  obtain ⟨u, k, calls', hext', hasked', hmu, hu⟩ := hg
  refine ⟨u, k, calls ++ calls', hext.trans hext', hasked.trans hasked', hmu, ?_⟩
  rw [Act.bind_of_ok h, firstError?_append, hnone, Option.none_or, ← hasked.path]
  exact hu.imp_right fun ⟨hnone', hout, hsize, hrest⟩ => ⟨hnone', hout, hext.roomFor_trans hsize, hrest⟩

theorem then_refused {y : Act Scene β} {g : β → Act Scene α} {e : Error} {t : Scene} {m : Nat} {calls : List CallRecord}
    (h : y s = (.error (.failed e), t)) (hext : s.Extends required t) (hasked : s.Asked calls t) (hm : t.Mapped m)
    (hfirst : firstError? s.region.path calls = some e) : (y >>= g).Makes required s plan :=
  ⟨t, m, calls, hext, hasked, hm, .inl ⟨e, Act.bind_of_error h, hfirst⟩⟩

/-- What is done after more is mapped, if that can be had. -/
theorem reach {g : Unit → Act Scene α} {n : Nat} (hm : s.Mapped n) (hmax : s.file.image.size ≤ maxSize)
    (hg : ∀ t m, s.Extends required t → t.Mapped m → n ≤ m →
      (required ≤ m ∨ maxSize < required ∧ m = maxSize) →
      (g ()).Makes required t plan) : (Region.reach required >>= g).Makes required s plan := by
  obtain ⟨t, m, calls, hext, hasked, hmt, hnm, hcases⟩ := reach_cases hm hmax required
  rcases hcases with ⟨hok, hnone, hrm⟩ | ⟨e, herr, hfirst⟩
  · exact then_extended hok hext hasked hnone (hg t m hext hmt hnm hrm)
  · exact then_refused herr hext hasked hmt hfirst

end Act.Makes

namespace Region

variable {s : Scene} {n required : Nat}

theorem takeHeader_apply [Processor] (hm : s.Mapped n) (h0 : s.file.image.cells .headerLock = 0) :
    onTable (fun m => m.take Cell.headerLock.offset) s =
      (.ok (), s.withImage (s.file.image.setCell .headerLock Mapping.taken)) := by
  refine onTable_of_eq ?_
  rw [hm.mapping]
  exact Mapping.take_apply hm.header .headerLock trivial h0

theorem releaseHeader_apply (hm : s.Mapped n) (f : Image) :
    onTable (fun m => m.release Cell.headerLock.offset) (s.withImage f) =
      (.ok (), s.withImage (f.setCell .headerLock 0)) := by
  have hmapping : (s.withImage f).region.mapping = .upTo n := hm.mapping
  refine onTable_of_eq ?_
  rw [hmapping]
  exact Mapping.put_apply hm.header .headerLock trivial 0 f

/-- What a host does while a word is changed, it may as well do without the change. -/
theorem extends_without {t : Scene} {m k : Nat} {c : Cell} {v : UInt64} (hm : s.Mapped n) (hmt : t.Mapped m)
    (hext : (s.withImage (s.file.image.setCell c v)).Extends required t) (hk : k ≤ maxSize)
    (hgrown : t.file.image = (s.file.image.setCell c v).grow k) :
    s.Extends required (t.withImage (s.file.image.grow k)) ∧ (t.withImage (s.file.image.grow k)).Mapped m := by
  have hsize : t.file.image.size = (s.file.image.grow k).size := by
    rw [hgrown, Image.size_grow, Image.size_setCell, Image.size_grow]
  have hmapped : (t.withImage (s.file.image.grow k)).Mapped m :=
    ⟨hmt.mapping, hmt.header, Nat.le_trans hmt.inside (Nat.le_of_eq hsize)⟩
  have hsized : (s.file.image.grow k).size = s.file.image.size ∨
      (s.file.image.grow k).size = roomFor required s.file.image.size := by
    have h := hext.sized
    rwa [hsize, Scene.image_withImage, Image.size_setCell] at h
  refine ⟨{
    locked := hext.locked
    holds := hext.holds
    grown := ⟨k, hk, rfl⟩
    kept := ?_
    sized := hsized
    mapped := ?_ }, hmapped⟩
  · intro hle
    have hsame := hext.kept (Nat.le_trans hle (Nat.le_of_eq (Image.size_setCell ..).symm))
    rw [hsame, Scene.withImage, Image.size_setCell, Image.size_grow] at hsize
    exact Image.grow_of_le (by omega)
  · intro n' hn'
    have heq := hn'.unique hm
    obtain ⟨m', hle, hm'⟩ := hext.mapped n ⟨hm.mapping, hm.header, by
      rw [Scene.withImage, Image.size_setCell]
      exact hm.inside⟩
    have hmm := hm'.unique hmt
    exact ⟨m, by omega, hmapped⟩

/-- What is done with the header lock held leaves no trace of the lock. -/
theorem holdingHeader_makes [Processor] {body : Act Scene α} {plan : Plan α} (hm : s.Mapped n)
    (h0 : s.file.image.cells .headerLock = 0)
    (hbody : body.Makes required (s.withImage (s.file.image.setCell .headerLock Mapping.taken)) plan) :
    (holdingHeader body).Makes required s plan := by
  have hin : Cell.headerLock.offset + 8 ≤ s.file.image.size :=
    Nat.le_trans (Mapping.offset_add_le_of_within hm.header trivial) hm.inside
  obtain ⟨t, m, calls, hext, hasked, hmt, hcases⟩ := hbody
  obtain ⟨k, hk, hgrown⟩ := hext.grown
  obtain ⟨hafter, hmapped⟩ := extends_without hm hmt hext hk hgrown
  have himage : t.file.image = (s.file.image.grow k).setCell .headerLock Mapping.taken :=
    hgrown.trans (Image.grow_setCell hin _ k)
  have hin' : Cell.headerLock.offset + 8 ≤ (s.file.image.grow k).size := by
    rw [Image.size_grow]
    omega
  have h0' : (s.file.image.grow k).cells .headerLock = 0 := by
    rw [Image.cells_grow]
    exact h0
  refine ⟨_, m, calls, hafter, ⟨hasked.host, hasked.path, hasked.said⟩, hmapped, ?_⟩
  rw [holdingHeader, Act.bind_of_ok (takeHeader_apply hm h0)]
  rcases hcases with ⟨e, herr, hfirst⟩ | ⟨hnone, h1, hsize, h2, h3⟩
  · left
    refine ⟨e, ?_, hfirst⟩
    have hundo := releaseHeader_apply hmt t.file.image
    rw [himage, Image.setCell_setCell, ← h0', Image.setCell_cells, ← himage] at hundo
    rw [Act.afterwards_of_ends (by rw [herr]; nofun) (by rw [herr]; exact hundo), herr]
  · right
    refine ⟨hnone, ?_⟩
    rw [himage, Image.size_setCell, Scene.image_withImage, Image.size_setCell] at hsize
    have hholds : ∀ ed ∈ plan.2, (s.file.image.grow k).Holds ed.slot := by
      intro ed hed
      have hold := h2 ed hed
      rwa [Image.Holds, himage, Image.size_setCell] at hold
    by_cases hends : plan.Ends
    · have hundo := releaseHeader_apply hmt (t.file.image.edits plan.2)
      rw [← h3 hends, himage, Image.release_edits Cell.isGuard_headerLock hin' h0' hholds] at hundo
      rw [Act.afterwards_of_ends (fun w hw => hends w (h1.symm.trans hw)) hundo]
      exact ⟨h1, hsize, hholds, fun _ => rfl⟩
    · obtain ⟨w, hw⟩ : ∃ w, plan.1 = .error (.waits w) := by simpa [Plan.Ends] using hends
      rw [Act.afterwards_of_waits (Prod.ext (h1.trans hw) rfl)]
      exact ⟨hw.symm, hsize, hholds, fun he => absurd he hends⟩

end Region

namespace Board

variable {s : Scene} {n : Nat}

theorem usedSlots_of_mapped (hm : s.Mapped n) :
    onTable Table.usedSlots s = (.ok (s.file.image.cells .usedSlots), s) :=
  onTable_of_query hm (Table.usedSlots_apply hm.header)

/-- To catch up is to reach as far as the used slots do. -/
theorem catchUp_apply (hm : s.Mapped n) : catchUp s = reach (sizeFor s.file.image.cells.used) s :=
  Act.bind_of_ok (usedSlots_of_mapped hm)

/-- What is done once all used slots are mapped, which takes no longer file. -/
theorem catchUp_then {required : Nat} {g : Unit → Act Scene α} {plan : Plan α} (hm : s.Mapped n)
    (hfits : sizeFor s.file.image.cells.used ≤ s.file.image.size) (hmax : s.file.image.size ≤ maxSize)
    (hg : ∀ t m, s.Extends required t → t.Mapped m → t.file.image = s.file.image →
      s.file.image.cells.used ≤ slotsIn m → (g ()).Makes required t plan) :
    (catchUp >>= g).Makes required s plan := by
  obtain ⟨t, m, calls, hext, hasked, hmt, -, hcases⟩ := reach_cases hm hmax (sizeFor s.file.image.cells.used)
  have himage := hext.kept hfits
  have hext := hext.of_le hfits required
  rw [← catchUp_apply hm] at hcases
  rcases hcases with ⟨hok, hnone, hrm⟩ | ⟨e, herr, hfirst⟩
  · exact .then_extended hok hext hasked hnone (hg t m hext hmt himage (le_slotsIn_of_sizeFor_le (by omega)))
  · exact .then_refused herr hext hasked hmt hfirst

/-- What is mapped already need not be caught up with. -/
theorem catchUp_of_mapped (hm : s.Mapped n) (hn : sizeFor s.file.image.cells.used ≤ n) : catchUp s = (.ok (), s) := by
  refine (catchUp_apply hm).trans (Act.bind_of_ok (currentMapping_of_mapped hm) |>.trans ?_)
  exact congrFun (if_pos hn) s

/-- A slot that no file can hold is not to be had. -/
theorem track_beyond [Processor] {f : Image} (hn : headerSize ≤ n) (p : Partition) (txn : Txn)
    (hi : ¬ f.cells.next (min f.cells.used (slotsIn n)) < slotsIn n) :
    Table.track (.upTo n) p txn f =
      (.error (.violated (.slotBeyondCapacity (f.cells.next (min f.cells.used (slotsIn n))) (slotsIn n))), f) := by
  refine Act.bind_of_ok (Table.nextSlot_apply hn) |>.trans ?_
  rw [Table.holdingSlot, Table.inSlot, Mapping.capacity_upTo, if_neg hi]
  rfl

theorem holds_of_register {m : Nat} (hm : s.Mapped m) {i : Nat} (hi : i < slotsIn m) {es : List Edit}
    (hes : ∀ ed ∈ es, ed.slot = i) : ∀ ed ∈ es, s.file.image.Holds ed.slot := by
  intro ed hed
  rw [hes ed hed]
  exact Table.holds_of_lt_slotsIn hm.header hm.inside hi

/-- How long the file has to be for a call. -/
def need (w : Words) : BoardCall → Nat
  | .add p _ => if w.slot? w.used p = none then sizeFor (w.next w.used + 1) else sizeFor w.used
  | _ => sizeFor w.used

theorem register_makes [Processor] {required m i : Nat} (hm : s.Mapped m) (hsize : required ≤ s.file.image.size)
    (hl : ∀ i, s.file.image.cells (.slotLock i) = 0)
    (hi : i < slotsIn m) (p : Partition) (txn : Txn) :
    (onTable fun m => Table.register m i p txn).Makes required s (s.file.image.cells.register i p txn) :=
  .onTable hm (roomFor_of_le hsize) (Table.register_follows hm.header hm.inside hi (hl i) p txn)
    (holds_of_register hm hi fun _ hed => (Words.of_mem_register hed).1)

theorem track_makes [Processor] {required m : Nat} (hm : s.Mapped m)
    (hsize : roomFor required s.file.image.size = s.file.image.size) (hl : ∀ i, s.file.image.cells (.slotLock i) = 0)
    (hused : s.file.image.cells.used ≤ slotsIn m)
    (hi : s.file.image.cells.next s.file.image.cells.used < slotsIn m) (p : Partition) (txn : Txn) :
    (onTable fun m => Table.track m p txn).Makes required s
      (s.file.image.cells.track s.file.image.cells.used p txn) := by
  have hmin : min s.file.image.cells.used (slotsIn m) = s.file.image.cells.used := by omega
  have hfollows := Table.track_follows (f := s.file.image) hm.header hm.inside (by rwa [hmin]) (hl _) p txn
  rw [hmin] at hfollows
  exact .onTable hm hsize hfollows (holds_of_register hm hi fun _ hed => (Words.of_mem_track hed).1)

/-- A table in which no file has room for the next slot tracks nothing more. -/
theorem track_beyond_makes [Processor] {required : Nat} (hm : s.Mapped maxSize)
    (hsize : roomFor required s.file.image.size = s.file.image.size) (hused : s.file.image.cells.used ≤ slotsIn maxSize)
    (hroom : ¬ sizeFor (s.file.image.cells.next s.file.image.cells.used + 1) ≤ maxSize) (p : Partition) (txn : Txn) :
    (onTable fun m => Table.track m p txn).Makes required s
      (.stop (.violated (.slotBeyondCapacity (s.file.image.cells.next s.file.image.cells.used) (slotsIn maxSize)))) := by
  have hbeyond : ¬ s.file.image.cells.next s.file.image.cells.used < slotsIn maxSize := by
    intro hlt
    exact hroom (sizeFor_le_of_le_slotsIn hm.header hlt)
  have hmin : min s.file.image.cells.used (slotsIn maxSize) = s.file.image.cells.used := by omega
  have htrack := track_beyond (f := s.file.image) hm.header p txn (by rwa [hmin])
  rw [hmin] at htrack
  refine .onTable hm hsize ?_ nofun
  exact ⟨congrArg Prod.fst htrack, fun _ => congrArg Prod.snd htrack⟩

/-- To track a partition once the mapping is as wide as it can be. -/
theorem track_reached_makes [Processor] {k : Nat} (hm : s.Mapped k) (hl : ∀ i, s.file.image.cells (.slotLock i) = 0)
    (hused : s.file.image.cells.used ≤ slotsIn k) (hmax : s.file.image.size ≤ maxSize)
    (hreached : sizeFor (s.file.image.cells.next s.file.image.cells.used + 1) ≤ k ∨
      maxSize < sizeFor (s.file.image.cells.next s.file.image.cells.used + 1) ∧ k = maxSize)
    (p : Partition) (txn : Txn) :
    (onTable fun m => Table.track m p txn).Makes (sizeFor (s.file.image.cells.next s.file.image.cells.used + 1)) s
      (if sizeFor (s.file.image.cells.next s.file.image.cells.used + 1) ≤ maxSize then
        s.file.image.cells.track s.file.image.cells.used p txn
      else .stop (.violated (.slotBeyondCapacity (s.file.image.cells.next s.file.image.cells.used) (slotsIn maxSize)))) := by
  have hinside := hm.inside
  have hsize := roomFor_of_reached hreached hinside hmax
  split_ifs with hroom
  · exact track_makes hm hsize hl hused (le_slotsIn_of_sizeFor_le (n := _ + 1) (by omega)) p txn
  · obtain rfl : k = maxSize := by omega
    exact track_beyond_makes hm hsize hused hroom p txn

/-- The part of `add` that is done with the header lock held. -/
theorem add_body_makes [Processor] (hm : s.Mapped n) (hl : ∀ i, s.file.image.cells (.slotLock i) = 0)
    (hfits : sizeFor s.file.image.cells.used ≤ s.file.image.size) (hmax : s.file.image.size ≤ maxSize)
    (p : Partition) (txn : Txn) :
    Act.Makes (do
      catchUp
      match ← onTable fun m => Table.slotOf m p with
      | some i =>
        match ← onTable fun m => Table.register m i p txn with
        | .fresh _ => return true
        | .known _ => return false
        | .gone => return false
      | none =>
        let next ← onTable Table.nextSlot
        reach (sizeFor (next + 1))
        let _ ← onTable fun m => Table.track m p txn
        return true)
      (need s.file.image.cells (.add p txn)) s (s.file.image.cells.add p txn) := by
  refine catchUp_then hm hfits hmax ?_
  intro t m _ hmt himage hused
  rw [← himage] at hl hfits hmax hused ⊢
  have hmin : min t.file.image.cells.used (slotsIn m) = t.file.image.cells.used := by omega
  have hslot := Table.slotOf_apply (f := t.file.image) hmt.header p
  rw [hmin] at hslot
  refine .after (onTable_of_query hmt hslot) ?_
  cases hp : t.file.image.cells.slot? t.file.image.cells.used p with
  | some i =>
    have hi := (Words.of_slot? hp).1
    have hneed : need t.file.image.cells (.add p txn) = sizeFor t.file.image.cells.used :=
      if_neg (by rw [hp]; nofun)
    have hmakes := (register_makes hmt (hneed ▸ hfits) hl (Nat.lt_of_lt_of_le hi hused) p txn).map
      Registration.isFresh
    simp only [Words.add, hp]
    refine .congr (congrFun ?_ t) hmakes
    rw [← bind_pure_comp]
    congr 1
    funext r
    cases r <;> rfl
  | none =>
    have hnext := Table.nextSlot_apply (f := t.file.image) hmt.header
    rw [hmin] at hnext
    refine .after (onTable_of_query hmt hnext) ?_
    have hneed : need t.file.image.cells (.add p txn) = sizeFor (t.file.image.cells.next t.file.image.cells.used + 1) :=
      if_pos hp
    rw [hneed]
    refine .reach hmt hmax ?_
    intro u k hext hmu hmk hrk
    have hcells := hext.cells_eq
    have husedk := Nat.le_trans hused (slotsIn_mono hmk)
    rw [← hcells] at hl husedk hrk ⊢
    have hmakes := (track_reached_makes hmu hl husedk (hext.size_le_max hmax) hrk p txn).map fun _ => true
    refine .congr (congrFun (bind_pure_comp (fun _ => true) _) u) ?_
    rw [← hcells] at hp
    simp only [Words.add, hp]
    split_ifs with hroom
    · rwa [if_pos hroom] at hmakes
    · rwa [if_neg hroom] at hmakes

/-- A call whose part under the header lock follows a plan that the lock has no part in. -/
theorem holdingHeader_makes_of [Processor] {body : Act Scene α} (plan : Words → Plan α) (required : Words → Nat)
    (hm : s.Mapped n) (hf : s.file.image.Ready)
    (hplan : ∀ v, plan (s.file.image.cells.set .headerLock v) = plan s.file.image.cells)
    (hrequired : ∀ v, required (s.file.image.cells.set .headerLock v) = required s.file.image.cells)
    (hbody : ∀ t : Scene, t.Mapped n → (∀ i, t.file.image.cells (.slotLock i) = 0) →
      sizeFor t.file.image.cells.used ≤ t.file.image.size → t.file.image.size ≤ maxSize →
      body.Makes (required t.file.image.cells) t (plan t.file.image.cells)) :
    (holdingHeader body).Makes (required s.file.image.cells) s (plan s.file.image.cells) := by
  have hin : Cell.headerLock.offset + 8 ≤ s.file.image.size :=
    Nat.le_trans (Mapping.offset_add_le_of_within hm.header trivial) hm.inside
  have hcells : (s.withImage (s.file.image.setCell .headerLock Mapping.taken)).file.image.cells =
      s.file.image.cells.set .headerLock Mapping.taken := Image.cells_setCell hin Mapping.taken
  have hsize : (s.withImage (s.file.image.setCell .headerLock Mapping.taken)).file.image.size = s.file.image.size :=
    Image.size_setCell ..
  refine holdingHeader_makes hm hf.headerFree ?_
  have hmakes := hbody (s.withImage (s.file.image.setCell .headerLock Mapping.taken))
    ⟨hm.mapping, hm.header, by rw [hsize]; exact hm.inside⟩ ?_ ?_ ?_
  · rwa [hcells, hplan, hrequired] at hmakes
  · intro i
    rw [hcells]
    exact Eq.trans (Words.set_of_ne _ (by simp) _) (hf.slotsFree i)
  · rw [hcells, hsize, Words.used_set_guard Cell.isGuard_headerLock]
    exact hf.fits
  · rw [hsize]
    exact hf.size_le

theorem add_makes [Processor] (hm : s.Mapped n) (hf : s.file.image.Ready) (p : Partition) (txn : Txn) :
    (add p txn).Makes (need s.file.image.cells (.add p txn)) s (s.file.image.cells.add p txn) := by
  refine .after (requireOpen_of_mapped hm) ?_
  refine holdingHeader_makes_of (fun w => w.add p txn) (fun w => need w (.add p txn)) hm hf (fun v => ?_) (fun v => ?_)
    fun t hmt hl hfits hmax => add_body_makes hmt hl hfits hmax p txn
  · exact Words.add_set_guard Cell.isGuard_headerLock v p txn
  · simp only [need, Words.slot?_set_guard Cell.isGuard_headerLock, Words.used_set_guard Cell.isGuard_headerLock,
      Words.next_set_guard Cell.isGuard_headerLock]

theorem remove_makes [Processor] (hm : s.Mapped n) (hf : s.file.image.Ready) (p : Partition) (txn : Txn) :
    (remove p txn).Makes (need s.file.image.cells (.remove p txn)) s
      (s.file.image.cells.untrack s.file.image.cells.used p txn) := by
  refine .after (requireOpen_of_mapped hm) ?_
  refine holdingHeader_makes_of (fun w => w.untrack w.used p txn) (fun w => need w (.remove p txn)) hm hf (fun v => ?_)
    (fun v => ?_) fun t hmt hl hfits hmax => ?_
  · rw [Words.used_set_guard Cell.isGuard_headerLock, Words.untrack_set_guard Cell.isGuard_headerLock]
  · exact congrArg sizeFor (Words.used_set_guard Cell.isGuard_headerLock v)
  · refine catchUp_then hmt hfits hmax ?_
    intro u m _ hmu himage hused
    rw [← himage] at hl hused hfits ⊢
    have hfollows := Table.untrack_follows (f := u.file.image) hmu.header hmu.inside hl p txn
    rw [Nat.min_eq_left hused] at hfollows
    refine .onTable hmu (roomFor_of_le hfits) hfollows fun ed hed => Table.holds_of_lt_slotsIn hmu.header hmu.inside ?_
    exact Nat.lt_of_lt_of_le (Words.of_slot? (Words.of_mem_untrack hed).1).1 hused

/-- What is done on a whole table catches up first if it must. -/
theorem onWholeTable_apply (hm : s.Mapped n) (f : Mapping → Act Image α) : onWholeTable f s =
    (if slotsIn n < s.file.image.cells.used then do catchUp; onTable f else onTable f : Act Scene α) s := by
  rw [onWholeTable, Act.bind_of_ok (requireOpen_of_mapped hm), Act.bind_of_ok (usedSlots_of_mapped hm),
    Act.bind_of_ok (currentMapping_of_mapped hm), Mapping.capacity_upTo]
  rfl

theorem onWholeTable_makes {f : Mapping → Act Image α} {plan : Plan α} (hm : s.Mapped n) (hf : s.file.image.Ready)
    (hfollows : ∀ m, headerSize ≤ m → m ≤ s.file.image.size → s.file.image.cells.used ≤ slotsIn m →
      (f (.upTo m)).Follows s.file.image plan)
    (hes : ∀ ed ∈ plan.2, ed.slot < s.file.image.cells.used) :
    (onWholeTable f).Makes (sizeFor s.file.image.cells.used) s plan := by
  have hfinish : ∀ t m, t.Mapped m → t.file.image = s.file.image → s.file.image.cells.used ≤ slotsIn m →
      (onTable f).Makes (sizeFor s.file.image.cells.used) t plan := by
    intro t m hmt himage hle
    have hin : m ≤ s.file.image.size := himage ▸ hmt.inside
    refine .onTable hmt (roomFor_of_le ?_) ?_ ?_
    · rw [himage]
      exact hf.fits
    · rw [himage]
      exact hfollows m hmt.header hin hle
    · intro ed hed
      rw [himage]
      exact Table.holds_of_lt_slotsIn hmt.header hin (Nat.lt_of_lt_of_le (hes ed hed) hle)
  refine .congr (onWholeTable_apply hm f) ?_
  split_ifs with hlt
  · exact catchUp_then hm hf.fits hf.size_le fun t m _ hmt himage hle => hfinish t m hmt himage hle
  · exact hfinish s n hm rfl (Nat.le_of_not_lt hlt)

end Board

/-- A call on an open board does what its plan says, or a host refuses something first. -/
theorem BoardCall.run_makes [Processor] {s : Scene} {n : Nat} (hm : s.Mapped n) (hf : s.file.image.Ready)
    (c : BoardCall) : c.run.Makes (Board.need s.file.image.cells c) s (c.plan s.file.image.cells) := by
  cases c with
  | table c =>
    refine Board.onWholeTable_makes hm hf (fun m hm hs hused => ?_) fun ed hed => c.slot_of_mem_plan hed
    have hfollows := c.run_follows hm hs hf.slotsFree
    rwa [Nat.min_eq_left hused] at hfollows
  | add p txn => exact (Board.add_makes hm hf p txn).map _
  | remove p txn => exact (Board.remove_makes hm hf p txn).map _

/-- A call on a closed board is an error. -/
theorem BoardCall.run_of_closed [Processor] {s : Scene} (hm : s.region.mapping = .closed) (c : BoardCall) :
    c.run s = (.error (.failed .closed), s) := by
  have hclosed := requireOpen_of_closed hm
  cases c with
  | table c => exact Act.bind_of_error hclosed
  | add p txn =>
    have hadd : Board.add p txn s = (.error (.failed .closed), s) := Act.bind_of_error hclosed
    rw [run, Act.map_apply, hadd]
  | remove p txn =>
    have hremove : Board.remove p txn s = (.error (.failed .closed), s) := Act.bind_of_error hclosed
    rw [run, Act.map_apply, hremove]

end VersionBoard
