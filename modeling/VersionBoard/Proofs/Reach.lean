import VersionBoard.Region
import VersionBoard.Proofs.Plan

/-!
# What the host can do to a scene

A host refuses calls or it does not; either way all that becomes of a file is
that it gets longer, and all that becomes of a mapping is that it maps more
(`Scene.Extends`). The first refusal is the error that is reported (`firstError?`).
`Region.reach` is the only way to a longer file and a wider mapping. What it asks
its host for, what it answers and what it leaves is one of the seven cases of
`Region.Reaches`; that it extends the scene (`Region.reach_cases`) is read off
them.
-/

namespace VersionBoard

/-- The host refuses nothing, and a second descriptor of a file can always be had. -/
structure Host.Willing (h : Host) : Prop where
  grants : ∀ earlier call, h.refuses earlier call = none
  duplicates : ∀ calls, h.noDuplicate? calls = none

theorem Host.willing_willing : Host.willing.Willing := ⟨fun _ _ => rfl, fun _ => rfl⟩

/-- Whoever fails alike is as willing. -/
theorem Host.willing_congr {h h' : Host} (heq : h'.toFaults = h.toFaults) : h'.Willing ↔ h.Willing := by
  obtain ⟨faults, log, silent⟩ := h
  obtain ⟨faults', log', silent'⟩ := h'
  cases heq
  exact ⟨fun hw => ⟨hw.grants, hw.duplicates⟩, fun hw => ⟨hw.grants, hw.duplicates⟩⟩

/-- The host may refuse to give the advisory lock back and keep it. -/
def Host.MayKeepLock (h : Host) : Prop :=
  (∃ earlier, h.refuses earlier .unlock ≠ none) ∧ ∃ calls, h.keepsLock calls = true

theorem Host.mayKeepLock_congr {h h' : Host} (heq : h'.toFaults = h.toFaults) : h'.MayKeepLock ↔ h.MayKeepLock := by
  obtain ⟨faults, log, silent⟩ := h
  obtain ⟨faults', log', silent'⟩ := h'
  cases heq
  exact Iff.rfl

theorem Host.Willing.not_mayKeepLock {h : Host} (hw : h.Willing) : ¬ h.MayKeepLock := fun ⟨⟨n, hn⟩, _⟩ =>
  hn (hw.grants n .unlock)

/-! ### Refusals and errors -/

/-- The error that a refused call is reported as. A refusal to give the advisory lock back is not. -/
def Call.error? (path : String) (why : Refusal) : Call → Option Error
  | openRw => some (.cannotOpen path (.refused why))
  | length => some (.cannotOpen path (.refused why))
  | allocate n => some (.cannotGrow path n (.refused why))
  | map _ => some (.cannotMap path (.refused why))
  | lock => some (.cannotOpen path (.lockRefused why))
  | unlock => none

/-- The code of that error. -/
def CallKind.code? : CallKind → Option String
  | openRw => some "S001"
  | length => some "S001"
  | allocate => some "S003"
  | map => some "S002"
  | lock => some "S001"
  | unlock => none

theorem Call.code_error? (path : String) (why : Refusal) (c : Call) :
    (c.error? path why).map Error.code = c.kind.code? := by
  cases c <;> rfl

/-- The error that the call is reported as, if it was refused. -/
def CallRecord.error? (path : String) (x : CallRecord) : Option Error := x.refusal?.bind (x.call.error? path ·)

/-- The error of the first refusal that is reported. -/
def firstError? (path : String) (calls : List CallRecord) : Option Error := calls.findSome? (CallRecord.error? path)

theorem firstError?_append (path : String) (xs ys : List CallRecord) :
    firstError? path (xs ++ ys) = (firstError? path xs).or (firstError? path ys) := List.findSome?_append

theorem CallRecord.error?_eq_none_iff {path : String} {x : CallRecord} :
    x.error? path = none ↔ x.call = .unlock ∨ x.refusal? = none := by
  obtain ⟨call, refusal?⟩ := x
  cases refusal? with
  | none => simp [error?]
  | some why => cases call <;> simp [error?, Call.error?]

/-- Nothing is reported exactly if nothing was refused but to give the lock back. -/
theorem firstError?_eq_none_iff {path : String} {calls : List CallRecord} :
    firstError? path calls = none ↔ ∀ x ∈ calls, x.call = .unlock ∨ x.refusal? = none := by
  simp only [firstError?, List.findSome?_eq_none_iff, CallRecord.error?_eq_none_iff]

/-- What is reported comes from a call that was made. -/
theorem exists_of_firstError? {path : String} {calls : List CallRecord} {e : Error} (h : firstError? path calls = some e) :
    ∃ x ∈ calls, x.error? path = some e ∧ x.call.kind.code? = some e.code := by
  obtain ⟨x, hx, he⟩ := List.exists_of_findSome?_eq_some h
  obtain ⟨why, -, hwhy⟩ := Option.bind_eq_some_iff.mp he
  refine ⟨x, hx, he, ?_⟩
  rw [← Call.code_error? path why, hwhy, Option.map_some]

namespace Host

variable {h : Host} {xs ys calls : List CallRecord}

/-- The host after more calls. -/
def told (h : Host) (calls : List CallRecord) : Host := { h with log := h.log ++ calls }

theorem told_nil (h : Host) : h.told [] = h := by
  rw [told, List.append_nil]

theorem told_told (h : Host) (xs ys : List CallRecord) : (h.told xs).told ys = h.told (xs ++ ys) := by
  rw [told, told, told, List.append_assoc]

theorem Willing.told (hw : h.Willing) (calls : List CallRecord) : (h.told calls).Willing :=
  ⟨hw.grants, hw.duplicates⟩

/-- What is recorded of the calls is what the host says to them, one after another. -/
def Says (h : Host) : List CallRecord → Prop
  | [] => True
  | x :: xs => x.refusal? = (h.answer x.call).1 ∧ (h.told [x]).Says xs

theorem says_append : h.Says (xs ++ ys) ↔ h.Says xs ∧ (h.told xs).Says ys := by
  induction xs generalizing h with
  | nil => simp [Says, told_nil]
  | cons x xs ih => rw [List.cons_append, Says, Says, ih, told_told, and_assoc, List.singleton_append]

/-- A host that refuses nothing does not say that it refuses something. -/
theorem Willing.refusal?_eq_none (hw : h.Willing) (hs : h.Says calls) : ∀ x ∈ calls, x.refusal? = none := by
  induction calls generalizing h with
  | nil => exact fun _ hx => nomatch hx
  | cons x xs ih =>
    obtain ⟨hx, hxs⟩ := hs
    refine List.forall_mem_cons.mpr ⟨?_, ih (hw.told [x]) hxs⟩
    rw [hx, answer, hw.grants]
    rfl

theorem not_willing_of_says (hs : h.Says calls) {x : CallRecord} (hx : x ∈ calls) {why : Refusal}
    (hwhy : x.refusal? = some why) : ¬ h.Willing := by
  intro hw
  rw [hw.refusal?_eq_none hs x hx] at hwhy
  cases hwhy

theorem Willing.firstError?_eq_none (hw : h.Willing) (hs : h.Says calls) (path : String) :
    firstError? path calls = none :=
  firstError?_eq_none_iff.mpr fun x hx => .inr (hw.refusal?_eq_none hs x hx)

end Host

/-- How long a file of `size` bytes becomes for something that needs `required` bytes. -/
def Region.roomFor (required size : Nat) : Nat := if required ≤ size then size else grownSize required

namespace Region

variable {required size n : Nat}

theorem roomFor_of_le (h : required ≤ size) : roomFor required size = size := if_pos h

/-- A file that has been made long enough stays as long as it is. -/
theorem roomFor_roomFor (required size : Nat) : roomFor required (roomFor required size) = roomFor required size := by
  unfold roomFor
  split_ifs <;> rfl

/-- What is mapped as far as can be asked for lies in a file that stays as long as it is. -/
theorem roomFor_of_reached (h : required ≤ n ∨ maxSize < required ∧ n = maxSize) (hn : n ≤ size)
    (hmax : size ≤ maxSize) : roomFor required size = size := by
  rcases h with h | ⟨h, rfl⟩
  · exact roomFor_of_le (Nat.le_trans h hn)
  · have hgrown : grownSize required = maxSize := Nat.min_eq_right (by omega)
    rw [roomFor, hgrown]
    split_ifs <;> omega

end Region

namespace Scene

variable {s t u : Scene}

/-- The first `n` bytes of the file are mapped, the header among them. -/
structure Mapped (s : Scene) (n : Nat) : Prop where
  mapping : s.region.mapping = .upTo n
  header : headerSize ≤ n
  inside : n ≤ s.file.image.size

/-- The scene with a host that has been asked for something. -/
def withHost (s : Scene) (h : Host) : Scene := { s with region := { s.region with host := h } }

/-- The scene with a host that has been asked for more. -/
def told (s : Scene) (calls : List CallRecord) : Scene := s.withHost (s.region.host.told calls)

/-- The scene after more calls, with the contents `f` of the file, of which the first `m` bytes are mapped. -/
def after (s : Scene) (calls : List CallRecord) (f : Image) (m : Nat) : Scene :=
  { file := { s.file with image := f }
    region := { s.region with mapping := .upTo m, host := s.region.host.told calls } }

theorem after_nil {s : Scene} {n : Nat} (hm : s.region.mapping = .upTo n) : s.after [] s.file.image n = s := by
  rw [after, Host.told_nil, ← hm]

theorem told_told (s : Scene) (xs ys : List CallRecord) : (s.told xs).told ys = s.told (xs ++ ys) :=
  congrArg s.withHost (Host.told_told ..)

/-- The scene with other contents of the file. -/
def withImage (s : Scene) (f : Image) : Scene := { s with file := { s.file with image := f } }

@[simp] theorem image_withImage (s : Scene) (f : Image) : (s.withImage f).file.image = f := rfl

theorem told_withImage (s : Scene) (f : Image) (calls : List CallRecord) :
    (s.withImage f).told calls = (s.told calls).withImage f := rfl

/-- Between the scenes these calls were made, through the same region. -/
structure Asked (s : Scene) (calls : List CallRecord) (t : Scene) : Prop where
  host : t.region.host = s.region.host.told calls
  path : t.region.path = s.region.path
  said : s.region.host.Says calls

namespace Asked

variable {calls calls' : List CallRecord}

theorem refl (s : Scene) : s.Asked [] s := ⟨(Host.told_nil _).symm, rfl, trivial⟩

theorem trans (h : s.Asked calls t) (h' : t.Asked calls' u) : s.Asked (calls ++ calls') u where
  host := by rw [h'.host, h.host, Host.told_told]
  path := h'.path.trans h.path
  said := Host.says_append.mpr ⟨h.said, by rw [← h.host]; exact h'.said⟩

theorem firstError?_eq_none (h : s.Asked calls t) (hw : s.region.host.Willing) (path : String) :
    firstError? path calls = none := hw.firstError?_eq_none h.said path

end Asked

/-- The scene with the first `n` bytes mapped. -/
def withMapping (s : Scene) (n : Nat) : Scene := { s with region := { s.region with mapping := .upTo n } }

/-- What a host can do to a scene in which `required` bytes are called for. -/
structure Extends (required : Nat) (s t : Scene) : Prop where
  /-- Nobody takes the advisory lock or gives it back. -/
  locked : t.file.locked = s.file.locked
  holds : t.region.holds = s.region.holds
  /-- The file is as it was, or longer. -/
  grown : ∃ k, k ≤ Region.maxSize ∧ t.file.image = s.file.image.grow k
  /-- A file that is long enough does not get longer. -/
  kept : required ≤ s.file.image.size → t.file.image = s.file.image
  /-- If the file got longer, then as long as the call for `required` bytes makes it. -/
  sized : t.file.image.size = s.file.image.size ∨
    t.file.image.size = Region.roomFor required s.file.image.size
  /-- What was mapped is mapped. -/
  mapped : ∀ n, s.Mapped n → ∃ m, n ≤ m ∧ t.Mapped m

namespace Extends

variable {required : Nat}

theorem refl (required : Nat) (s : Scene) : s.Extends required s where
  locked := rfl
  holds := rfl
  grown := ⟨0, Nat.zero_le _, (Image.grow_of_le (Nat.zero_le _)).symm⟩
  kept _ := rfl
  sized := .inl rfl
  mapped n hm := ⟨n, Nat.le_refl _, hm⟩

/-- A file that was made longer once does not get longer still. -/
theorem sized_trans (h : s.Extends required t) {size : Nat}
    (h' : size = t.file.image.size ∨ size = Region.roomFor required t.file.image.size) :
    size = s.file.image.size ∨ size = Region.roomFor required s.file.image.size := by
  rcases h.sized with hst | hst
  · rwa [hst] at h'
  · rw [hst, Region.roomFor_roomFor, or_self] at h'
    exact .inr h'

/-- If what comes after makes the file long enough, then it is as long as the call makes it. -/
theorem roomFor_trans (h : s.Extends required t) {size : Nat}
    (h' : size = Region.roomFor required t.file.image.size) : size = Region.roomFor required s.file.image.size := by
  rcases h.sized with hst | hst
  · rwa [hst] at h'
  · rwa [hst, Region.roomFor_roomFor] at h'

theorem trans (h : s.Extends required t) (h' : t.Extends required u) : s.Extends required u where
  locked := h'.locked.trans h.locked
  holds := h'.holds.trans h.holds
  grown := by
    obtain ⟨k, hk, hg⟩ := h.grown
    obtain ⟨k', hk', hg'⟩ := h'.grown
    refine ⟨max k k', Nat.max_le.mpr ⟨hk, hk'⟩, ?_⟩
    rw [hg', hg, Image.grow_grow]
  kept hs := by
    have hst := h.kept hs
    rw [h'.kept (by rw [hst]; exact hs), hst]
  sized := h.sized_trans h'.sized
  mapped n hm := by
    obtain ⟨m, hnm, hmt⟩ := h.mapped n hm
    obtain ⟨k, hmk, hku⟩ := h'.mapped m hmt
    exact ⟨k, Nat.le_trans hnm hmk, hku⟩

/-- If the file is long enough for one size, nothing depends on the other. -/
theorem of_le (h : s.Extends required t) (hr : required ≤ s.file.image.size) (n : Nat) : s.Extends n t :=
  { h with kept := fun _ => h.kept hr, sized := .inl (congrArg Image.size (h.kept hr)) }

theorem size_le (h : s.Extends required t) : s.file.image.size ≤ t.file.image.size := by
  obtain ⟨k, -, hg⟩ := h.grown
  rw [hg, Image.size_grow]
  omega

theorem size_le_max (h : s.Extends required t) (hs : s.file.image.size ≤ Region.maxSize) :
    t.file.image.size ≤ Region.maxSize := by
  obtain ⟨k, hk, hg⟩ := h.grown
  rw [hg, Image.size_grow]
  exact Nat.max_le.mpr ⟨hs, hk⟩

theorem cells_eq (h : s.Extends required t) : t.file.image.cells = s.file.image.cells := by
  obtain ⟨k, -, hg⟩ := h.grown
  rw [hg, Image.cells_grow]

end Extends

theorem Mapped.unique {n m : Nat} (hn : s.Mapped n) (hm : s.Mapped m) : n = m := by
  have h := hn.mapping.symm.trans hm.mapping
  simpa [Mapping.upTo] using h

end Scene

namespace Region

open Scene (Extends)

variable {α : Type} {s : Scene} {n : Nat}

/-! ### Calls on the host -/

/-- A call on the host passes, or it is refused. -/
theorem attempt_cases (call : Call) (error : Refusal → Error) (s : Scene) :
    attempt call error s = (.ok (), s.told [⟨call, none⟩]) ∧ s.region.host.Says [⟨call, none⟩] ∨
      ∃ why, attempt call error s = (.error (.failed (error why)), s.told [⟨call, some why⟩]) ∧
        s.region.host.Says [⟨call, some why⟩] := by
  have hask : ask call s = (.ok (s.region.host.answer call).1, s.told [⟨call, (s.region.host.answer call).1⟩]) := rfl
  rw [attempt, Act.bind_of_ok hask]
  cases hr : (s.region.host.answer call).1 with
  | none => exact .inl ⟨rfl, hr.symm, trivial⟩
  | some why => exact .inr ⟨why, rfl, hr.symm, trivial⟩

theorem onTable_of_eq {f : Mapping → Act Image α} {r : Except Halt α} {g : Image}
    (h : f s.region.mapping s.file.image = (r, g)) : onTable f s = (r, s.withImage g) := by
  have happly : onTable f s = ((f s.region.mapping s.file.image).1, s.withImage (f s.region.mapping s.file.image).2) :=
    rfl
  rw [happly, h]

theorem onTable_of_query (hm : s.Mapped n) {f : Mapping → Act Image α} {a : α}
    (h : f (.upTo n) s.file.image = (.ok a, s.file.image)) : onTable f s = (.ok a, s) :=
  onTable_of_eq (by rw [hm.mapping]; exact h)

theorem currentMapping_apply (s : Scene) : currentMapping s = (.ok s.region.mapping, s) := rfl

theorem currentMapping_of_mapped (hm : s.Mapped n) : currentMapping s = (.ok (.upTo n), s) := by
  rw [currentMapping_apply, hm.mapping]

theorem requireOpen_of_upTo (hm : s.region.mapping = .upTo n) : requireOpen s = (.ok (), s) := by
  rw [requireOpen, Act.bind_of_ok (currentMapping_apply s), hm]
  rfl

theorem requireOpen_of_mapped (hm : s.Mapped n) : requireOpen s = (.ok (), s) := requireOpen_of_upTo hm.mapping

theorem requireOpen_of_closed (hm : s.region.mapping = .closed) : requireOpen s = (.error (.failed .closed), s) := by
  rw [requireOpen, Act.bind_of_ok (currentMapping_apply s), hm]
  rfl

theorem pathOf_apply (s : Scene) : pathOf s = (.ok s.region.path, s) := rfl

theorem measure_cases (s : Scene) :
    measure s = (.ok s.file.image.size, s.told [⟨.length, none⟩]) ∧ s.region.host.Says [⟨.length, none⟩] ∨
      ∃ why, measure s =
          (.error (.failed (.cannotOpen s.region.path (.refused why))), s.told [⟨.length, some why⟩]) ∧
        s.region.host.Says [⟨.length, some why⟩] := by
  rw [measure, Act.bind_of_ok (pathOf_apply s)]
  rcases attempt_cases .length (fun why => .cannotOpen s.region.path (.refused why)) s with
    ⟨hok, hsaid⟩ | ⟨why, herr, hsaid⟩
  · exact .inl ⟨Act.bind_of_ok hok, hsaid⟩
  · exact .inr ⟨why, Act.bind_of_error herr, hsaid⟩

theorem allocate_cases (k : Nat) (s : Scene) :
    allocate k s = (.ok (), (s.told [⟨.allocate k, none⟩]).withImage (s.file.image.grow k)) ∧
        s.region.host.Says [⟨.allocate k, none⟩] ∨
      ∃ why, allocate k s =
          (.error (.failed (.cannotGrow s.region.path k (.refused why))), s.told [⟨.allocate k, some why⟩]) ∧
        s.region.host.Says [⟨.allocate k, some why⟩] := by
  rw [allocate, Act.bind_of_ok (pathOf_apply s)]
  rcases attempt_cases (.allocate k) (fun why => .cannotGrow s.region.path k (.refused why)) s with
    ⟨hok, hsaid⟩ | ⟨why, herr, hsaid⟩
  · exact .inl ⟨Act.bind_of_ok hok, hsaid⟩
  · exact .inr ⟨why, Act.bind_of_error herr, hsaid⟩

theorem mapFirst_cases (k : Nat) (s : Scene) :
    mapFirst k s = (.ok (), (s.told [⟨.map k, none⟩]).withMapping k) ∧ s.region.host.Says [⟨.map k, none⟩] ∨
      ∃ why, mapFirst k s =
          (.error (.failed (.cannotMap s.region.path (.refused why))), s.told [⟨.map k, some why⟩]) ∧
        s.region.host.Says [⟨.map k, some why⟩] := by
  rw [mapFirst, Act.bind_of_ok (pathOf_apply s)]
  rcases attempt_cases (.map k) (fun why => .cannotMap s.region.path (.refused why)) s with
    ⟨hok, hsaid⟩ | ⟨why, herr, hsaid⟩
  · exact .inl ⟨Act.bind_of_ok hok, hsaid⟩
  · exact .inr ⟨why, Act.bind_of_error herr, hsaid⟩

/-- Making the file longer and mapping it: it is made longer unless that is refused, and mapped if that is not. -/
theorem extend_cases (k : Nat) (s : Scene) :
    (∃ why, (do allocate k; mapFirst k : Act Scene Unit) s =
          (.error (.failed (.cannotGrow s.region.path k (.refused why))), s.told [⟨.allocate k, some why⟩]) ∧
        s.region.host.Says [⟨.allocate k, some why⟩]) ∨
      (∃ why, (do allocate k; mapFirst k : Act Scene Unit) s =
          (.error (.failed (.cannotMap s.region.path (.refused why))),
            (s.told [⟨.allocate k, none⟩, ⟨.map k, some why⟩]).withImage (s.file.image.grow k)) ∧
        s.region.host.Says [⟨.allocate k, none⟩, ⟨.map k, some why⟩]) ∨
      (do allocate k; mapFirst k : Act Scene Unit) s =
          (.ok (), ((s.told [⟨.allocate k, none⟩, ⟨.map k, none⟩]).withImage (s.file.image.grow k)).withMapping k) ∧
        s.region.host.Says [⟨.allocate k, none⟩, ⟨.map k, none⟩] := by
  rcases allocate_cases k s with ⟨hallocate, hsaid⟩ | ⟨why, hallocate, hsaid⟩
  · right
    rw [Act.bind_of_ok hallocate]
    rcases mapFirst_cases k ((s.told [⟨.allocate k, none⟩]).withImage (s.file.image.grow k)) with
      ⟨hmap, hsaid'⟩ | ⟨why, hmap, hsaid'⟩ <;> rw [Scene.told_withImage, Scene.told_told] at hmap
    · exact .inr ⟨hmap, Host.says_append.mpr ⟨hsaid, hsaid'⟩⟩
    · exact .inl ⟨why, hmap, Host.says_append.mpr ⟨hsaid, hsaid'⟩⟩
  · exact .inl ⟨why, Act.bind_of_error hallocate, hsaid⟩

/-! ### Reaching further -/

/-- What comes of having `required` bytes mapped where `n` are, of a file with the contents `f`: the outcome, the calls
on the host, the contents then, and how many bytes are mapped then. -/
inductive Reaches (n required : Nat) (path : String) (f : Image) :
    Except Halt Unit → List CallRecord → Image → Nat → Prop
  /-- So much is mapped. -/
  | here (h : required ≤ n) : Reaches n required path f (.ok ()) [] f n
  | unmeasured (h : n < required) (why : Refusal) :
      Reaches n required path f (.error (.failed (.cannotOpen path (.refused why)))) [⟨.length, some why⟩] f n
  /-- The file is long enough and is mapped, all of it. -/
  | mapped (h : n < required) (hle : required ≤ f.size) :
      Reaches n required path f (.ok ()) [⟨.length, none⟩, ⟨.map f.size, none⟩] f f.size
  | unmapped (h : n < required) (hle : required ≤ f.size) (why : Refusal) :
      Reaches n required path f (.error (.failed (.cannotMap path (.refused why))))
        [⟨.length, none⟩, ⟨.map f.size, some why⟩] f n
  | ungrown (h : n < required) (hlt : f.size < required) (why : Refusal) :
      Reaches n required path f (.error (.failed (.cannotGrow path (grownSize required) (.refused why))))
        [⟨.length, none⟩, ⟨.allocate (grownSize required), some why⟩] f n
  /-- The file is made longer first. -/
  | grown (h : n < required) (hlt : f.size < required) :
      Reaches n required path f (.ok ())
        [⟨.length, none⟩, ⟨.allocate (grownSize required), none⟩, ⟨.map (grownSize required), none⟩]
        (f.grow (grownSize required)) (grownSize required)
  | grownUnmapped (h : n < required) (hlt : f.size < required) (why : Refusal) :
      Reaches n required path f (.error (.failed (.cannotMap path (.refused why))))
        [⟨.length, none⟩, ⟨.allocate (grownSize required), none⟩, ⟨.map (grownSize required), some why⟩]
        (f.grow (grownSize required)) n

namespace Reaches

variable {required m : Nat} {path : String} {f g : Image} {o : Except Halt Unit} {calls : List CallRecord}

/-- The file stays as it is, or it was too short and is as long as it was made. -/
theorem contents (h : Reaches n required path f o calls g m) :
    g = f ∨ f.size < required ∧ g = f.grow (grownSize required) := by
  cases h with
  | grown _ hlt => exact .inr ⟨hlt, rfl⟩
  | grownUnmapped _ hlt => exact .inr ⟨hlt, rfl⟩
  | _ => exact .inl rfl

/-- So much is mapped, or as much as there can be; or something was refused, and as much is mapped as before. -/
theorem outcome (h : Reaches n required path f o calls g m) :
    o = .ok () ∧ firstError? path calls = none ∧ (required ≤ m ∨ maxSize < required ∧ m = maxSize) ∨
      ∃ e, o = .error (.failed e) ∧ firstError? path calls = some e ∧ m = n := by
  cases h with
  | here h => exact .inl ⟨rfl, rfl, .inl h⟩
  | mapped _ hle => exact .inl ⟨rfl, rfl, .inl hle⟩
  | grown =>
    refine .inl ⟨rfl, rfl, ?_⟩
    unfold grownSize
    omega
  | _ => exact .inr ⟨_, rfl, rfl, rfl⟩

/-- What was mapped is mapped, and only what there is. -/
theorem within (h : Reaches n required path f o calls g m) (hn : n ≤ f.size) (hmax : f.size ≤ maxSize) :
    n ≤ m ∧ m ≤ g.size := by
  cases h with
  | grown _ hlt =>
    rw [Image.size_grow]
    unfold grownSize
    omega
  | grownUnmapped =>
    rw [Image.size_grow]
    omega
  | _ => omega

/-- The host has extended the scene. -/
theorem extends_after {s : Scene} (h : Reaches n required s.region.path s.file.image o calls g m) (hm : s.Mapped n)
    (hmax : s.file.image.size ≤ maxSize) :
    s.Extends required (s.after calls g m) ∧ (s.after calls g m).Mapped m := by
  obtain ⟨hnm, hmg⟩ := h.within hm.inside hmax
  have hmapped : (s.after calls g m).Mapped m := ⟨rfl, Nat.le_trans hm.header hnm, hmg⟩
  have hgrown : s.file.image.size < required →
      (s.file.image.grow (grownSize required)).size = roomFor required s.file.image.size := by
    intro hlt
    rw [Image.size_grow, roomFor, if_neg (by omega), grownSize]
    omega
  refine ⟨{
    locked := rfl
    holds := rfl
    grown := ?_
    kept := fun hle => h.contents.resolve_right fun hlt => absurd hlt.1 (Nat.not_lt.mpr hle)
    sized := ?_
    mapped := fun k hk => ⟨m, hk.unique hm ▸ hnm, hmapped⟩ }, hmapped⟩
  · rcases h.contents with rfl | ⟨-, rfl⟩
    · exact ⟨0, Nat.zero_le _, (Image.grow_of_le (Nat.zero_le _)).symm⟩
    · exact ⟨_, Nat.min_le_right .., rfl⟩
  · rcases h.contents with rfl | ⟨hlt, rfl⟩
    · exact .inl rfl
    · exact .inr (hgrown hlt)

end Reaches

/-- From a region that is open one of these cases comes, whatever the host says. -/
theorem reach_ends (hm : s.region.mapping = .upTo n) (required : Nat) :
    ∃ o calls f m, reach required s = (o, s.after calls f m) ∧ s.region.host.Says calls ∧
      Reaches n required s.region.path s.file.image o calls f m := by
  have hkept : ∀ calls f, (s.told calls).withImage f = s.after calls f n := by
    intro calls f
    rw [Scene.after, ← hm]
    rfl
  have hsize : s.region.mapping.size = n := by rw [hm]; rfl
  rw [reach, Act.bind_of_ok (currentMapping_apply s), hsize]
  split_ifs with hn
  · refine ⟨_, [], s.file.image, n, ?_, trivial, .here hn⟩
    rw [Scene.after_nil hm]
    rfl
  have h : n < required := Nat.lt_of_not_le hn
  rw [fileSize, bind_assoc, Act.bind_of_ok (requireOpen_of_upTo hm)]
  rcases measure_cases s with ⟨hlength, hsaid⟩ | ⟨why, hlength, hsaid⟩
  · rw [Act.bind_of_ok hlength]
    split_ifs with hle
    · rcases mapFirst_cases s.file.image.size (s.told [⟨.length, none⟩]) with ⟨hmap, hsaid'⟩ | ⟨why, hmap, hsaid'⟩
      · refine ⟨_, _, _, _, hmap.trans ?_, Host.says_append.mpr ⟨hsaid, hsaid'⟩, .mapped h hle⟩
        rw [Scene.told_told]
        rfl
      · refine ⟨_, _, _, _, hmap.trans ?_, Host.says_append.mpr ⟨hsaid, hsaid'⟩, .unmapped h hle why⟩
        rw [Scene.told_told, ← hkept]
        rfl
    · have hlt : s.file.image.size < required := Nat.lt_of_not_le hle
      rcases extend_cases (grownSize required) (s.told [⟨.length, none⟩]) with
        ⟨why, hrun, hsaid'⟩ | ⟨why, hrun, hsaid'⟩ | ⟨hrun, hsaid'⟩ <;> rw [Scene.told_told] at hrun
      · refine ⟨_, _, _, _, hrun.trans ?_, Host.says_append.mpr ⟨hsaid, hsaid'⟩, .ungrown h hlt why⟩
        rw [← hkept]
        rfl
      · refine ⟨_, _, _, _, hrun.trans ?_, Host.says_append.mpr ⟨hsaid, hsaid'⟩, .grownUnmapped h hlt why⟩
        rw [← hkept]
        rfl
      · exact ⟨_, _, _, _, hrun, Host.says_append.mpr ⟨hsaid, hsaid'⟩, .grown h hlt⟩
  · refine ⟨_, _, _, _, (Act.bind_of_error hlength).trans ?_, hsaid, .unmeasured h why⟩
    rw [← hkept]
    rfl

/-- Either so much is mapped afterwards, or as much as there can be, or a host refused. -/
theorem reach_cases (hm : s.Mapped n) (hmax : s.file.image.size ≤ maxSize) (required : Nat) :
    ∃ t m calls, s.Extends required t ∧ s.Asked calls t ∧ t.Mapped m ∧ n ≤ m ∧
      (reach required s = (.ok (), t) ∧ firstError? s.region.path calls = none ∧
          (required ≤ m ∨ maxSize < required ∧ m = maxSize) ∨
        ∃ e, reach required s = (.error (.failed e), t) ∧ firstError? s.region.path calls = some e) := by
  obtain ⟨o, calls, f, m, hrun, hsaid, hends⟩ := reach_ends hm.mapping required
  obtain ⟨hext, hmapped⟩ := hends.extends_after hm hmax
  refine ⟨_, m, calls, hext, ⟨rfl, rfl, hsaid⟩, hmapped, (hends.within hm.inside hmax).1, ?_⟩
  rcases hends.outcome with ⟨rfl, hnone, hrm⟩ | ⟨e, rfl, hfirst, -⟩
  · exact .inl ⟨hrun, hnone, hrm⟩
  · exact .inr ⟨e, hrun, hfirst⟩

end Region

end VersionBoard
