import VersionBoard.Handle
import VersionBoard.Proofs.Calls
import VersionBoard.Proofs.Sound

/-!
# Opening a board

What becomes of a file when a board is opened on it: a board that is set up stays
as it is (`Board.start_of_signed`), and a blank file becomes a new board or, if
the host refuses something or someone else holds the advisory lock, stays blank
(`Board.start_of_blank`). Nothing is refused between seeding and signing, so
there is no other case.
-/

namespace VersionBoard

/-- Nothing has been signed yet. -/
def Image.Blank (f : Image) : Prop := ∀ b, b < signatureSize → f.byte b = 0

/-- The file is signed and holds the slots that it says are used, whatever it says in them. -/
structure Image.Signed (f : Image) : Prop where
  signed : f.read 0 signatureSize = Signature.current.toBytes
  fits : sizeFor f.cells.used ≤ f.size

theorem Image.Coherent.toSigned {f : Image} (h : f.Coherent) : f.Signed := ⟨h.signed, h.fits⟩

theorem Image.Coherent.ready {f : Image} (h : f.Coherent) : f.Ready where
  headerFree := h.table.headerFree
  slotsFree := h.table.slotsFree
  fits := h.fits
  size_le := h.size_le

namespace Image

variable {f : Image}

theorem Blank.grow (h : f.Blank) (k : Nat) : (f.grow k).Blank := by
  intro b hb
  rw [byte_grow]
  exact h b hb

theorem blank_zeros (n : Nat) : (zeros n).Blank := fun b _ => byte_zeros n b

theorem Blank.read (h : f.Blank) : f.read 0 signatureSize = List.replicate signatureSize 0 := by
  have hz : f.read 0 signatureSize = (zeros signatureSize).read 0 signatureSize :=
    read_congr fun b _ hb => by
      rw [h b (by omega), byte_zeros]
  rw [hz]
  decide

theorem write_zeros (f : Image) : f.write 0 (List.replicate f.size 0) = zeros f.size := by
  apply ext_byte
  · rw [size_write, size_zeros]
  · intro b hb
    rw [size_write] at hb
    rw [byte_write, List.length_replicate, if_pos (by omega), byte_zeros, List.getD_replicate _ (by omega)]

end Image

/-- How a check of the signature ends. -/
def Signature.verdict (path : String) (sig : Signature) : Except Halt Unit :=
  match sig.fault? with
  | none => .ok ()
  | some fault => .error (.failed (.corrupt path (.signature fault)))

theorem Signature.verdict_ends (path : String) (sig : Signature) (w : Wait) : sig.verdict path ≠ .error (.waits w) := by
  rw [verdict]
  cases sig.fault? <;> simp

/-- How long a file is; one that is missing has no bytes. -/
def Image.lengthOf (image? : Option Image) : Nat := (image?.getD Image.empty).size

theorem Image.lengthOf_le {image? : Option Image} {k : Nat} (h : ∀ f, image? = some f → f.size ≤ k) :
    Image.lengthOf image? ≤ k := by
  cases image? with
  | none => exact Nat.zero_le _
  | some f => exact h f rfl

/-- What keeps an action from being done: the host refuses something, or someone else holds the advisory lock. -/
def Hindered {α : Type} (host : Host) (locked : Bool) (o : Except Halt α) : Prop :=
  (∃ e, o = .error (.failed e)) ∧ ¬ host.Willing ∨ o = .error (.waits .advisoryLock) ∧ locked = true

theorem Hindered.congr {α β : Type} {host host' : Host} {locked : Bool} {h : Halt}
    (hh : Hindered host locked (.error h : Except Halt α)) (hfaults : host'.toFaults = host.toFaults) :
    Hindered host' locked (.error h : Except Halt β) := by
  rw [Hindered, Host.willing_congr hfaults]
  exact hh.imp (And.imp_left fun ⟨e, he⟩ => ⟨e, congrArg Except.error (Except.error.inj he)⟩)
    (And.imp_left fun he => congrArg Except.error (Except.error.inj he))

namespace Hindered

variable {α : Type} {host : Host} {locked : Bool} {o : Except Halt α}

/-- What is hindered has no answer. -/
theorem exists_error (h : Hindered host locked o) : ∃ x, o = .error x := by
  rcases h with ⟨⟨e, he⟩, -⟩ | ⟨he, -⟩
  · exact ⟨_, he⟩
  · exact ⟨_, he⟩

/-- What waits does so because someone else holds the lock. -/
theorem locked_of_waits {w : Wait} (h : Hindered host locked o) (hw : o = .error (.waits w)) : locked = true := by
  rcases h with ⟨⟨e, he⟩, -⟩ | ⟨-, hlocked⟩
  · exact nomatch he.symm.trans hw
  · exact hlocked

/-- If the host refuses nothing, then someone else holds the lock. -/
theorem locked_of_willing (h : Hindered host locked o) (hw : host.Willing) : locked = true :=
  h.elim (fun h' => absurd hw h'.2) And.right

theorem waits_of_willing (h : Hindered host locked o) (hw : host.Willing) : o = .error (.waits .advisoryLock) :=
  h.elim (fun h' => absurd hw h'.2) And.left

/-- Where nobody else holds the lock, it fails. -/
theorem failed (h : Hindered host false o) : ∃ e, o = .error (.failed e) :=
  h.elim And.left fun ⟨_, hlocked⟩ => nomatch hlocked

end Hindered

/-- What was done with the advisory lock held: nobody else had it, and the descriptor has kept it only if the host
may. -/
structure TookLock (host : Host) (locked holds : Bool) : Prop where
  free : locked = false
  kept : holds = true → host.MayKeepLock

theorem TookLock.congr {host host' : Host} {locked holds : Bool} (h : TookLock host locked holds)
    (heq : host'.toFaults = host.toFaults) : TookLock host' locked holds :=
  ⟨h.free, fun hb => (Host.mayKeepLock_congr heq).mpr (h.kept hb)⟩

theorem TookLock.not_holds {host : Host} {locked holds : Bool} (h : TookLock host locked holds) (hw : host.Willing) :
    holds = false := Bool.eq_false_of_not_eq_true fun hb => hw.not_mayKeepLock (h.kept hb)

/-- The scene with another host, and with its descriptor holding the advisory lock or not. -/
def Scene.withSide (s : Scene) (h : Host) (b : Bool) : Scene :=
  { s with region := { s.region with host := h, holds := b } }

/-- The action is hindered before it has done anything but ask its host. -/
def Act.IsHindered {α : Type} (x : Act Scene α) (s : Scene) : Prop :=
  ∃ (h : Host) (e : Halt), h.toFaults = s.region.host.toFaults ∧ x s = (.error e, s.withHost h) ∧
    Hindered s.region.host s.file.locked (.error e : Except Halt Unit)

/-- What begins with an action that is hindered is hindered. -/
theorem Act.IsHindered.bind {α β : Type} {x : Act Scene α} {s : Scene} (hx : x.IsHindered s) (f : α → Act Scene β) :
    (x >>= f).IsHindered s := by
  obtain ⟨h, e, hh, herr, he⟩ := hx
  exact ⟨h, e, hh, Act.bind_of_error herr, he⟩

namespace Region

variable {s : Scene}

/-- The file was made at least `k` bytes long, and nothing but mappings changed besides. -/
structure Grew (k : Nat) (s t : Scene) : Prop where
  faults : t.region.host.toFaults = s.region.host.toFaults
  locked : t.file.locked = s.file.locked
  image : t.file.image = s.file.image.grow k

theorem grew_withHost {h : Host} (hh : h.toFaults = s.region.host.toFaults) : Grew 0 s (s.withHost h) :=
  ⟨hh, rfl, (Image.grow_of_le (Nat.zero_le _)).symm⟩

/-- The last part of mapping a whole file: it is long enough, and mapped if the host does not refuse. -/
theorem mapFirst_of_grew {u : Scene} {least : Nat} (hleast : headerSize ≤ least) (hu : Grew least s u) :
    ∃ t, Grew least s t ∧
      (mapFirst (max s.file.image.size least) u = (.ok (), t) ∧ t.Mapped t.file.image.size ∨
        ∃ e, mapFirst (max s.file.image.size least) u = (.error (.failed e), t) ∧ ¬ s.region.host.Willing) := by
  have hsize : u.file.image.size = max s.file.image.size least := by rw [hu.image, Image.size_grow]
  rcases mapFirst_cases (max s.file.image.size least) u with ⟨hok, -⟩ | ⟨why, herr, hsaid⟩
  · refine ⟨(u.told _).withMapping _, ⟨hu.faults, hu.locked, hu.image⟩, .inl ⟨hok, ?_, ?_, Nat.le_refl _⟩⟩
    · exact congrArg Mapping.upTo hsize.symm
    · exact Nat.le_trans hleast (Nat.le_trans (Nat.le_max_right ..) (Nat.le_of_eq hsize.symm))
  · refine ⟨u.told _, ⟨hu.faults, hu.locked, hu.image⟩, .inr ⟨_, herr, ?_⟩⟩
    rw [← Host.willing_congr hu.faults]
    exact Host.not_willing_of_says hsaid (.head _) rfl

/-- Mapping the whole file makes it as long as it must be and maps it, or a host refuses something. -/
theorem mapWhole_cases {least : Nat} (hleast : headerSize ≤ least) (s : Scene) :
    ∃ t k, Grew k s t ∧ k ≤ least ∧
      (mapWhole least s = (.ok (), t) ∧ k = least ∧ t.Mapped t.file.image.size ∨
        ∃ e, mapWhole least s = (.error (.failed e), t) ∧ ¬ s.region.host.Willing) := by
  rcases measure_cases s with ⟨hok, -⟩ | ⟨why, herr, hsaid⟩
  · rw [mapWhole, Act.bind_of_ok hok]
    split_ifs with hlt
    · rcases allocate_cases least (s.told [⟨.length, none⟩]) with ⟨hok', -⟩ | ⟨why, herr, hsaid⟩
      · obtain ⟨t, hgrew, hcases⟩ := mapFirst_of_grew (s := s)
          (u := ((s.told [⟨.length, none⟩]).told [⟨.allocate least, none⟩]).withImage (s.file.image.grow least)) hleast
          ⟨rfl, rfl, rfl⟩
        refine ⟨t, least, hgrew, Nat.le_refl _, ?_⟩
        rw [Act.bind_of_ok hok']
        exact hcases.imp_left fun ⟨hok, hm⟩ => ⟨hok, rfl, hm⟩
      · exact ⟨(s.told _).told _, 0, grew_withHost rfl, Nat.zero_le _, .inr ⟨_, Act.bind_of_error herr,
          fun hw => Host.not_willing_of_says hsaid (.head _) rfl (hw.told _)⟩⟩
    · have hlong : s.file.image.grow least = s.file.image := Image.grow_of_le (by omega)
      obtain ⟨t, hgrew, hcases⟩ := mapFirst_of_grew (s := s) (u := s.told [⟨.length, none⟩]) hleast
        ⟨rfl, rfl, hlong.symm⟩
      refine ⟨t, least, hgrew, Nat.le_refl _, ?_⟩
      exact hcases.imp_left fun ⟨hok, hm⟩ => ⟨hok, rfl, hm⟩
  · exact ⟨s.told _, 0, grew_withHost rfl, Nat.zero_le _, .inr ⟨_, Act.bind_of_error herr,
      Host.not_willing_of_says hsaid (.head _) rfl⟩⟩

/-- A second descriptor of the file is to be had, or not. -/
theorem require_cases (refusal? : Host → Option Refusal) (error : Refusal → Error) (s : Scene) :
    require refusal? error s = (.ok (), s) ∧ refusal? s.region.host = none ∨
      ∃ why, require refusal? error s = (.error (.failed (error why)), s) ∧ refusal? s.region.host = some why := by
  have hstate : (Act.state : Act Scene Scene) s = (.ok s, s) := rfl
  rw [require, Act.bind_of_ok hstate]
  cases refusal? s.region.host with
  | none => exact .inl ⟨rfl, rfl⟩
  | some why => exact .inr ⟨why, rfl, rfl⟩

/-- The advisory lock is taken, or the host refuses it, or someone else holds it. -/
theorem lock_cases {n : Nat} (hm : s.Mapped n) :
    (∃ h : Host, h.toFaults = s.region.host.toFaults ∧ s.file.locked = false ∧ lock s = (.ok (), s.withSide h true)) ∨
      lock.IsHindered s := by
  rw [Act.IsHindered, lock, Act.bind_of_ok (requireOpen_of_mapped hm), Act.bind_of_ok (pathOf_apply s)]
  rcases require_cases (fun h => h.noDuplicate? h.log) (fun why => .cannotOpen s.region.path (.refused why)) s with
    ⟨hhad, -⟩ | ⟨why, hnone, hwhy⟩
  swap
  · refine .inr ⟨s.region.host, _, rfl, Act.bind_of_error hnone, .inl ⟨⟨_, rfl⟩, fun hw => ?_⟩⟩
    rw [hw.duplicates] at hwhy
    cases hwhy
  rw [Act.bind_of_ok hhad]
  rcases attempt_cases .lock (fun why => .cannotOpen s.region.path (.lockRefused why)) s with
    ⟨hok, -⟩ | ⟨why, herr, hsaid⟩
  swap
  · exact .inr ⟨s.region.host.told _, _, rfl, Act.bind_of_error herr,
      .inl ⟨⟨_, rfl⟩, Host.not_willing_of_says hsaid (.head _) rfl⟩⟩
  have hstate : (Act.state : Act Scene Scene) (s.told [⟨.lock, none⟩]) =
      (.ok (s.told [⟨.lock, none⟩]), s.told [⟨.lock, none⟩]) := rfl
  have hsame : (s.told [⟨.lock, none⟩]).file.locked = s.file.locked := rfl
  rw [Act.bind_of_ok hok, Act.bind_of_ok hstate, hsame]
  cases hlocked : s.file.locked with
  | false => exact .inl ⟨s.region.host.told [⟨.lock, none⟩], rfl, rfl, rfl⟩
  | true => exact .inr ⟨s.region.host.told [⟨.lock, none⟩], _, rfl, rfl, .inr ⟨rfl, rfl⟩⟩

/-- The lock is given back, unless the host refuses that and keeps it. -/
theorem unlock_apply (s : Scene) : unlock s = (.ok (), s.withSide (s.region.host.answer .unlock).2
    ((s.region.host.answer .unlock).1.isSome && s.region.host.keepsLock s.region.host.log)) := rfl

/-- What is done with the advisory lock held ends as it would without, if the lock is to be had. It is kept only
if the host keeps it. -/
theorem holdingFile_cases {α : Type} (body : Act Scene α) {P : Except Halt α → Scene → Prop} {n : Nat}
    (hm : s.Mapped n)
    (hbody : ∀ h : Host, h.toFaults = s.region.host.toFaults →
      ∃ r u, body (s.withSide h true) = (r, u) ∧ (∀ w, r ≠ .error (.waits w)) ∧ P r u) :
    (holdingFile body).IsHindered s ∨ ∃ r u, P r u ∧ ∃ (h : Host) (b : Bool), h.toFaults = u.region.host.toFaults ∧
      TookLock h s.file.locked b ∧ holdingFile body s = (r, u.withSide h b) := by
  rcases lock_cases hm with ⟨h, hh, hfree, hok⟩ | hhindered
  · right
    obtain ⟨r, u, hrun, hr, hp⟩ := hbody h hh
    refine ⟨r, u, hp, (u.region.host.answer .unlock).2, _, rfl, ⟨hfree, fun hb => ?_⟩,
      (Act.bind_of_ok hok).trans (Act.afterwards_of_eq hrun hr (unlock_apply u))⟩
    obtain ⟨hrefused, hkeeps⟩ := Bool.and_eq_true_iff.mp hb
    refine ⟨⟨u.region.host.count .unlock, fun hgranted => ?_⟩, u.region.host.log, hkeeps⟩
    have hgranted' : (u.region.host.answer .unlock).1 = none := congrArg (·.or none) hgranted
    rw [hgranted'] at hrefused
    cases hrefused
  · exact .inl (hhindered.bind fun _ => body.afterwards unlock)

end Region

namespace Board

open Region

variable {s : Scene} {n : Nat}

theorem readSignature_apply (hm : s.Mapped n) :
    onTable (fun m => m.readBytes 0 signatureSize) s = (.ok (s.file.image.read 0 signatureSize), s) := by
  refine onTable_of_query hm ?_
  have hle : ¬ n < 0 + signatureSize := by
    have := hm.header
    have : signatureSize ≤ headerSize := by decide
    omega
  exact congrFun (if_neg hle) s.file.image

theorem writeBytes_apply (hm : s.Mapped n) (bs : List UInt8) (hbs : bs.length ≤ n) :
    onTable (fun m => m.writeBytes 0 bs) s = (.ok (), s.withImage (s.file.image.write 0 bs)) := by
  refine onTable_of_eq ?_
  rw [hm.mapping]
  exact congrFun (if_neg (by omega)) s.file.image

/-! ### A board that is set up -/

/-- A file that is not blank is only checked. -/
theorem setUp_of_signature [Processor] (hm : s.Mapped n) (sig : Signature)
    (hsig : Signature.ofBytes (s.file.image.read 0 signatureSize) = .ok sig) (hblank : sig.isBlank = false)
    (policy : Policy) :
    (setUp policy).IsHindered s ∨ ∃ (h : Host) (b : Bool), h.toFaults = s.region.host.toFaults ∧
      TookLock h s.file.locked b ∧ setUp policy s = (sig.verdict s.region.path, s.withSide h b) := by
  have hbody : ∀ h : Host, h.toFaults = s.region.host.toFaults →
      ∃ r u, setUpLocked policy (s.withSide h true) = (r, u) ∧ (∀ w, r ≠ .error (.waits w)) ∧
        (r = sig.verdict s.region.path ∧ ∃ h : Host, h.toFaults = s.region.host.toFaults ∧ u = s.withSide h true) := by
    intro h hh
    have hread := readSignature_apply (s := s.withSide h true) (n := n) ⟨hm.mapping, hm.header, hm.inside⟩
    refine ⟨sig.verdict s.region.path, s.withSide h true, ?_, sig.verdict_ends _, rfl, h, hh, rfl⟩
    have hsig' : Signature.ofBytes ((s.withSide h true).file.image.read 0 signatureSize) = .ok sig := hsig
    rw [setUpLocked, Act.bind_of_ok (pathOf_apply _), Act.bind_of_ok hread]
    simp only [hsig', hblank, Signature.verdict]
    cases sig.fault? <;> rfl
  rcases holdingFile_cases (setUpLocked policy) hm hbody with
    hhindered | ⟨r, u, ⟨rfl, h, hh, rfl⟩, h', b, hh', hb, hset⟩
  · exact .inl hhindered
  · exact .inr ⟨h', b, hh'.trans hh, hb, hset⟩

/-! ### A blank file -/

theorem track_zero :
    Words.track (fun _ => 0) 0 Partition.whole ⟨0⟩ = (.ok 0, [.track 0 ⟨0, by decide⟩ Partition.whole 1]) := by
  rfl

/-- The first partition of a table without words. -/
theorem first_makes [Processor] {required : Nat} {t : Scene} {m : Nat} (hm : t.Mapped m)
    (hzero : t.file.image.cells = fun _ => 0) (hsize : required ≤ m) (hroom : 1 ≤ slotsIn m) :
    (holdingHeader do
      let _ ← onTable fun m => Table.track m Partition.whole ⟨0⟩ : Act Scene Unit).Makes required t
      (.ok (), [.track 0 ⟨0, by decide⟩ Partition.whole 1]) := by
  have hin : Cell.headerLock.offset + 8 ≤ t.file.image.size :=
    Nat.le_trans (Mapping.offset_add_le_of_within hm.header trivial) hm.inside
  have hcells : (t.withImage (t.file.image.setCell .headerLock Mapping.taken)).file.image.cells =
      Words.set (fun _ => 0) .headerLock Mapping.taken := by
    rw [← hzero]
    exact Image.cells_setCell hin Mapping.taken
  have hused : (t.withImage (t.file.image.setCell .headerLock Mapping.taken)).file.image.cells.used = 0 := by
    rw [hcells, Words.used_set_guard Cell.isGuard_headerLock]
    rfl
  have hnext : (t.withImage (t.file.image.setCell .headerLock Mapping.taken)).file.image.cells.next 0 = 0 := by
    rw [hcells, Words.next_set_guard Cell.isGuard_headerLock]
    rfl
  have hmapped : (t.withImage (t.file.image.setCell .headerLock Mapping.taken)).Mapped m :=
    ⟨hm.mapping, hm.header, Nat.le_trans hm.inside (Nat.le_of_eq (Image.size_setCell ..).symm)⟩
  refine holdingHeader_makes hm (by rw [hzero]) ?_
  have htrack := track_makes hmapped (roomFor_of_le (Nat.le_trans hsize hmapped.inside)) (fun i => ?_) (by omega)
    (by rw [hused, hnext]; exact hroom) Partition.whole ⟨0⟩
  · rw [hused, hcells, Words.track_set_guard Cell.isGuard_headerLock, track_zero] at htrack
    exact .congr (congrFun (bind_pure_comp (fun _ => ()) _) _) (htrack.map fun _ => ())
  · rw [hcells]
    exact Words.set_of_ne _ (by simp) _

/-- A new table gets its one partition if it is not split, unless a host refuses room for it. -/
theorem seed_cases [Processor] {k : Nat} (hm : s.Mapped n) (himage : s.file.image = Image.zeros k) (hk : k ≤ maxSize)
    (policy : Policy) :
    ∃ t m calls, s.Extends (sizeFor policy.initialPartitions) t ∧ s.Asked calls t ∧ t.Mapped m ∧
      ((∃ e, seed policy s = (.error (.failed e), t) ∧ firstError? s.region.path calls = some e) ∨
        sizeFor policy.initialPartitions ≤ m ∧
          seed policy s = (.ok (), t.withImage (t.file.image.edits (Image.seeds policy)))) := by
  by_cases h0 : policy.initialPartitions = 0
  · refine ⟨s, n, [], .refl _ s, .refl s, hm, .inr ⟨?_, ?_⟩⟩
    · rw [h0]
      exact hm.header
    · rw [Image.seeds, if_pos h0]
      exact congrFun (if_pos h0) s
  · have h1 : policy.initialPartitions = 1 := by
      cases policy with
      | unsplit => rfl
      | _ => exact absurd rfl h0
    have hstart : seed policy s = (do
        reach (sizeFor policy.initialPartitions)
        holdingHeader do
          let _ ← onTable fun m => Table.track m Partition.whole ⟨0⟩ : Act Scene Unit) s := congrFun (if_neg h0) s
    have hmax : s.file.image.size ≤ maxSize := by
      rw [himage, Image.size_zeros]
      exact hk
    rw [hstart]
    obtain ⟨t, m, calls, hext, hasked, hmt, -, hcases⟩ := reach_cases hm hmax (sizeFor policy.initialPartitions)
    rcases hcases with ⟨hok, hnone, hreach⟩ | ⟨e, herr, hfirst⟩
    · have hzero : t.file.image.cells = fun _ => 0 := by rw [hext.cells_eq, himage, Image.cells_zeros]
      have hsmall : ¬ maxSize < sizeFor policy.initialPartitions := by
        rw [h1]
        decide
      have hroom : sizeFor policy.initialPartitions ≤ m := hreach.resolve_right fun h => hsmall h.1
      obtain ⟨u, k, calls', hext', hasked', hmu, hcases⟩ :=
        first_makes hmt hzero hroom (le_slotsIn_of_sizeFor_le (h1 ▸ hroom))
      refine ⟨u, k, calls ++ calls', hext.trans hext', hasked.trans hasked', hmu, ?_⟩
      rw [Act.bind_of_ok hok, firstError?_append, hnone, Option.none_or, ← hasked.path, Image.seeds, if_neg h0]
      rcases hcases with herr | ⟨-, hout, -, -, hends⟩
      · exact .inl herr
      · obtain ⟨k', hk', hmk'⟩ := hext'.mapped m hmt
        have := hmk'.unique hmu
        exact .inr ⟨by omega, Prod.ext hout (hends fun _ hw => by cases hw)⟩
    · exact ⟨t, m, calls, hext, hasked, hmt, .inl ⟨e, Act.bind_of_error herr, hfirst⟩⟩

/-- How long a blank file of `size` bytes is once it has become a board. -/
def newSize (policy : Policy) (size : Nat) : Nat := roomFor (sizeFor policy.initialPartitions) (max size headerSize)

/-- Making room for the header is part of it. -/
theorem newSize_max (policy : Policy) (size : Nat) {k : Nat} (hk : k ≤ headerSize) :
    newSize policy (max size k) = newSize policy size := by
  rw [newSize, newSize, Nat.max_assoc, Nat.max_eq_right hk]

theorem newSize_of_header {policy : Policy} {size : Nat} (h : headerSize ≤ size) :
    newSize policy size = roomFor (sizeFor policy.initialPartitions) size := by
  rw [newSize, Nat.max_eq_left h]

/-- What a host does on the way makes no difference to how long the file will be. -/
theorem newSize_of_extends {policy : Policy} {t : Scene} (h : s.Extends (sizeFor policy.initialPartitions) t)
    (hheader : headerSize ≤ s.file.image.size) :
    newSize policy t.file.image.size = newSize policy s.file.image.size := by
  rw [newSize_of_header hheader, newSize_of_header (Nat.le_trans hheader h.size_le)]
  exact h.roomFor_trans rfl

/-- The scene holds the board that a file of `size` bytes becomes, as far mapped as it is used. -/
def IsNew (policy : Policy) (size : Nat) (u : Scene) : Prop :=
  ∃ k m, k = newSize policy size ∧ u.file.image = Image.newBoard policy k ∧ sizeFor policy.initialPartitions ≤ m ∧
    k ≤ maxSize ∧ u.Mapped m

/-- The scene holds a blank file still, which can become the same board. -/
structure IsBlank (policy : Policy) (size : Nat) (u : Scene) : Prop where
  blank : u.file.image.Blank
  size_le : u.file.image.size ≤ maxSize
  newSize : newSize policy u.file.image.size = newSize policy size
  longer : size ≤ u.file.image.size

/-- What setting a blank file up can come to: a new board, or a refusal and a file that is blank still. -/
def SetUpEnds (policy : Policy) (s : Scene) (r : Except Halt Unit) (u : Scene) : Prop :=
  u.region.host.toFaults = s.region.host.toFaults ∧
    (r = .ok () ∧ IsNew policy s.file.image.size u ∨
      (∃ e, r = .error (.failed e)) ∧ ¬ s.region.host.Willing ∧ IsBlank policy s.file.image.size u)

/-- What is wiped is zero then. -/
theorem wipe_apply (hm : s.Mapped s.file.image.size) :
    wipe s = (.ok (), s.withImage (Image.zeros s.file.image.size)) := by
  refine onTable_of_eq ?_
  rw [hm.mapping, ← Image.write_zeros]
  refine congrFun (if_neg ?_) s.file.image
  rw [List.length_replicate, Mapping.size_upTo]
  omega

theorem setUp_of_blank [Processor] (hm : s.Mapped s.file.image.size) (hf : s.file.image.Blank)
    (hmax : s.file.image.size ≤ maxSize) (policy : Policy) :
    (setUp policy).IsHindered s ∨ ∃ r u, SetUpEnds policy s r u ∧ ∃ (h : Host) (b : Bool),
      h.toFaults = u.region.host.toFaults ∧ TookLock h s.file.locked b ∧ setUp policy s = (r, u.withSide h b) := by
  refine holdingFile_cases (setUpLocked policy) hm ?_
  intro h hh
  have hm' : (s.withSide h true).Mapped s.file.image.size := ⟨hm.mapping, hm.header, hm.inside⟩
  have hread := readSignature_apply hm'
  have hblank : (s.withSide h true).file.image.read 0 signatureSize = List.replicate signatureSize 0 := hf.read
  rw [hblank] at hread
  have hwipe := wipe_apply hm'
  have hm'' : ((s.withSide h true).withImage (Image.zeros s.file.image.size)).Mapped s.file.image.size :=
    ⟨hm.mapping, hm.header, Nat.le_of_eq (Image.size_zeros _).symm⟩
  obtain ⟨t, m, calls, hext, hasked, hmt, hcases⟩ := seed_cases hm'' rfl hmax policy
  have hfaults : t.region.host.toFaults = s.region.host.toFaults := (congrArg Host.toFaults hasked.host).trans hh
  obtain ⟨k, hk, hgrown⟩ := hext.grown
  have himage : t.file.image = Image.zeros (max s.file.image.size k) := hgrown.trans (Image.grow_grow ..)
  have hmaxk : max s.file.image.size k ≤ maxSize := Nat.max_le.mpr ⟨hmax, hk⟩
  have hheader : headerSize ≤ (Image.zeros s.file.image.size).size :=
    Nat.le_trans hm''.header hm''.inside
  have hnew : newSize policy t.file.image.size = newSize policy s.file.image.size := by
    have hsame := newSize_of_extends hext hheader
    rwa [Scene.image_withImage, Image.size_zeros] at hsame
  rcases hcases with ⟨e, herr, hfirst⟩ | ⟨hroom, hok⟩
  · refine ⟨.error (.failed e), t, ?_, by simp, hfaults, .inr ⟨⟨e, rfl⟩, fun hw => ?_, ?_, ?_, hnew, ?_⟩⟩
    · exact Act.bind_of_ok (pathOf_apply _) |>.trans (Act.bind_of_ok hread |>.trans
        (Act.bind_of_ok hwipe |>.trans (Act.bind_of_error herr)))
    · rw [hasked.firstError?_eq_none ((Host.willing_congr hh).mpr hw)] at hfirst
      cases hfirst
    · rw [himage]
      exact Image.blank_zeros _
    · rw [himage, Image.size_zeros]
      exact hmaxk
    · rw [himage, Image.size_zeros]
      exact Nat.le_max_left ..
  · have hmu : (t.withImage (t.file.image.edits (Image.seeds policy))).Mapped m :=
      ⟨hmt.mapping, hmt.header, Nat.le_trans hmt.inside (Nat.le_of_eq (Image.size_edits ..).symm)⟩
    have hsign := writeBytes_apply hmu Signature.current.toBytes
      (Nat.le_trans (show Signature.current.toBytes.length ≤ headerSize by decide) hmt.header)
    refine ⟨.ok (), t.withImage ((t.file.image.edits (Image.seeds policy)).write 0 Signature.current.toBytes), ?_, by simp,
      ?_⟩
    · exact Act.bind_of_ok (pathOf_apply _) |>.trans (Act.bind_of_ok hread |>.trans
        (Act.bind_of_ok hwipe |>.trans (Act.bind_of_ok hok |>.trans hsign)))
    · refine ⟨hfaults, .inl ⟨rfl, max s.file.image.size k, m, ?_, ?_, hroom, hmaxk, ?_⟩⟩
      · have hsize : t.file.image.size = max s.file.image.size k := by rw [himage, Image.size_zeros]
        rw [← hnew, newSize_of_header (Nat.le_trans hmt.header hmt.inside),
          roomFor_of_le (Nat.le_trans hroom hmt.inside), hsize]
      · rw [Scene.image_withImage, Image.newBoard, himage]
      · refine ⟨hmu.mapping, hmu.header, Nat.le_trans hmu.inside (Nat.le_of_eq ?_)⟩
        exact (Image.size_write ..).symm

/-! ### Getting a file ready for calls -/

theorem sizeAt_apply (hm : s.Mapped n) :
    (do return (← currentMapping).size : Act Scene Nat) s = (.ok n, s) :=
  Act.bind_of_ok (currentMapping_of_mapped hm)

/-- A signed file that holds its used slots stays as it is, and all of it is mapped. -/
theorem start_of_signed [Processor] (hf : s.file.image.Signed) (config : Config) :
    ∃ t : Scene, t.file = s.file ∧ t.region.host.toFaults = s.region.host.toFaults ∧
      (start config s = (.ok s.file.image.size, t) ∧ t.Mapped s.file.image.size ∧
          TookLock s.region.host s.file.locked t.region.holds ∨
        ∃ x, start config s = (.error x, t) ∧ Hindered s.region.host s.file.locked (.error x : Except Halt Unit)) := by
  have hheader : headerSize ≤ s.file.image.size := Nat.le_trans (headerSize_le_sizeFor _) hf.fits
  obtain ⟨t, k, hgrew, hk, hcases⟩ := mapWhole_cases (Nat.le_refl headerSize) s
  have himage : t.file.image = s.file.image := hgrew.image.trans (Image.grow_of_le (Nat.le_trans hk hheader))
  have hfile : t.file = s.file := File.ext himage hgrew.locked
  rcases hcases with ⟨hok, -, hm⟩ | ⟨e, herr, hw⟩
  swap
  · exact ⟨t, hfile, hgrew.faults, .inr ⟨_, Act.bind_of_error herr, .inl ⟨⟨e, rfl⟩, hw⟩⟩⟩
  rw [himage] at hm
  rw [start, Act.bind_of_ok hok]
  rcases setUp_of_signature hm .current (by rw [himage, hf.signed]; rfl) rfl config.policy with
    ⟨h, x, hh, herr, hx⟩ | ⟨h, b, hh, hb, hset⟩
  · rw [hgrew.locked] at hx
    exact ⟨t.withHost h, hfile, hh.trans hgrew.faults, .inr ⟨x, Act.bind_of_error herr, hx.congr hgrew.faults.symm⟩⟩
  · have hm' : (t.withSide h b).Mapped s.file.image.size := ⟨hm.mapping, hm.header, hm.inside⟩
    have hcatch := catchUp_of_mapped hm' (by
      rw [show (t.withSide h b).file.image = s.file.image from himage]
      exact hf.fits)
    rw [hgrew.locked] at hb
    refine ⟨t.withSide h b, hfile, hh.trans hgrew.faults, .inl ⟨?_, hm', hb.congr (hh.trans hgrew.faults).symm⟩⟩
    rw [Act.bind_of_ok hset, Act.bind_of_ok hcatch]
    exact sizeAt_apply hm'

/-- A blank file becomes a new board, or the opening is hindered and the file is blank still. -/
theorem start_of_blank [Processor] (hf : s.file.image.Blank) (hmax : s.file.image.size ≤ maxSize) (config : Config) :
    ∃ t : Scene, t.region.host.toFaults = s.region.host.toFaults ∧
      ((∃ m, start config s = (.ok m, t)) ∧ IsNew config.policy s.file.image.size t ∧
          TookLock s.region.host s.file.locked t.region.holds ∨
        (∃ x, start config s = (.error x, t) ∧ Hindered s.region.host s.file.locked (.error x : Except Halt Unit)) ∧
          IsBlank config.policy s.file.image.size t) := by
  obtain ⟨t, k, hgrew, hk, hcases⟩ := mapWhole_cases (Nat.le_refl headerSize) s
  have hblank : t.file.image.Blank := by
    rw [hgrew.image]
    exact hf.grow k
  have hmax' : t.file.image.size ≤ maxSize := by
    rw [hgrew.image, Image.size_grow]
    exact Nat.max_le.mpr ⟨hmax, Nat.le_trans hk (by decide)⟩
  have hnew : newSize config.policy t.file.image.size = newSize config.policy s.file.image.size := by
    rw [hgrew.image, Image.size_grow, newSize_max _ _ hk]
  have hlonger : s.file.image.size ≤ t.file.image.size := by
    rw [hgrew.image]
    exact Nat.le_max_left ..
  rcases hcases with ⟨hok, -, hm⟩ | ⟨e, herr, hw⟩
  swap
  · exact ⟨t, hgrew.faults,
      .inr ⟨⟨_, Act.bind_of_error herr, .inl ⟨⟨e, rfl⟩, hw⟩⟩, hblank, hmax', hnew, hlonger⟩⟩
  rw [start, Act.bind_of_ok hok]
  rcases setUp_of_blank hm hblank hmax' config.policy with
    ⟨h, x, hh, herr, hx⟩ | ⟨r, u, ⟨hfaults, hends⟩, h, b, hh, hb, hset⟩
  · rw [hgrew.locked] at hx
    exact ⟨t.withHost h, hh.trans hgrew.faults,
      .inr ⟨⟨x, Act.bind_of_error herr, hx.congr hgrew.faults.symm⟩, hblank, hmax', hnew, hlonger⟩⟩
  have hfaults' : h.toFaults = s.region.host.toFaults := hh.trans (hfaults.trans hgrew.faults)
  refine ⟨u.withSide h b, hfaults', ?_⟩
  rcases hends with ⟨rfl, n, m, hlen, himage, hroom, hn, hmu⟩ | ⟨⟨e, rfl⟩, hw, hblank'⟩
  · left
    have hm' : (u.withSide h b).Mapped m := ⟨hmu.mapping, hmu.header, hmu.inside⟩
    have hroom' : sizeFor config.policy.initialPartitions ≤ n := by
      have hinside := hmu.inside
      rw [himage, Image.size_newBoard] at hinside
      omega
    have hused : (u.withSide h b).file.image.cells.used = config.policy.initialPartitions := by
      rw [show (u.withSide h b).file.image = Image.newBoard config.policy n from himage, Image.cells_newBoard hroom',
        Image.used_seeds]
    have hcatch := catchUp_of_mapped hm' (by rw [hused]; exact hroom)
    rw [hgrew.locked] at hb
    refine ⟨⟨m, ?_⟩, ⟨n, m, hlen.trans hnew, himage, hroom, hn, hm'⟩, hb.congr hfaults'.symm⟩
    rw [Act.bind_of_ok hset, Act.bind_of_ok hcatch]
    exact sizeAt_apply hm'
  · right
    refine ⟨⟨_, Act.bind_of_error hset, .inl ⟨⟨e, rfl⟩, ?_⟩⟩, hblank'.blank, hblank'.size_le,
      hblank'.newSize.trans hnew, Nat.le_trans hlonger hblank'.longer⟩
    rwa [← Host.willing_congr hgrew.faults]

/-! ### Opening at a path -/

theorem enter_of_refused {host : Host} {why : Refusal} (h : (host.answer .openRw).1 = some why) (path : String)
    (file? : Option File) (x : Act Scene α) : enter path host (.ok file?) x =
      (.error (.failed (.cannotOpen path (.refused why))), file?.map (·.image),
        { path, mapping := .closed, host := (host.answer .openRw).2 }) := by
  rcases hanswer : host.answer .openRw with ⟨why?, h'⟩
  rw [hanswer] at h
  subst h
  simp only [enter, hanswer]

/-- What there is once the file has been opened. -/
def entered (path : String) (host : Host) (file? : Option File) : Scene :=
  ⟨file?.getD ⟨Image.empty, false⟩, { path, mapping := .closed, host := (host.answer .openRw).2 }⟩

theorem enter_of_opened {host : Host} (h : (host.answer .openRw).1 = none) (path : String) (file? : Option File)
    (x : Act Scene α) : enter path host (.ok file?) x =
      ((x (entered path host file?)).1, some (x (entered path host file?)).2.file.image,
        (x (entered path host file?)).2.region) := by
  rcases hanswer : host.answer .openRw with ⟨why?, h'⟩
  rw [hanswer] at h
  subst h
  simp only [enter, entered, hanswer]

theorem not_willing_of_answer {host : Host} {call : Call} {why : Refusal} (h : (host.answer call).1 = some why) :
    ¬ host.Willing := by
  intro hw
  rw [Host.answer, hw.grants] at h
  cases h

/-- What is done with a board once it is ready only looks at it or closes it. -/
def Gentle (body : Nat → Act Scene Answer) : Prop :=
  ∀ m t, (∃ a, (body m t).1 = .ok a) ∧ (body m t).2.file = t.file

theorem gentle_size : Gentle fun size => pure (.size size) := fun _ _ => ⟨⟨_, rfl⟩, rfl⟩

theorem gentle_close : Gentle fun _ => do
    close
    return .done := fun _ _ => ⟨⟨_, rfl⟩, rfl⟩

variable {body : Nat → Act Scene Answer}

/-- Opening a board that is set up leaves it as it is. -/
theorem opening_of_signed [Processor] (hbody : Gentle body) (path : String) (host : Host) (config : Config) {f : Image}
    (hf : f.Signed) (locked : Bool) :
    (opening path host config (.ok (some ⟨f, locked⟩)) body).2.1 = some f ∧
      (Hindered host locked (opening path host config (.ok (some ⟨f, locked⟩)) body).1.outcome ∨
        ∃ t, t.Mapped f.size ∧ t.region.host.toFaults = host.toFaults ∧
          TookLock host locked t.region.holds ∧
          (opening path host config (.ok (some ⟨f, locked⟩)) body).1.outcome = (body f.size t).1 ∧
          (opening path host config (.ok (some ⟨f, locked⟩)) body).2.2 = (body f.size t).2.region) := by
  cases hanswer : (host.answer .openRw).1 with
  | some why =>
    rw [opening, enter_of_refused hanswer]
    exact ⟨rfl, .inl (.inl ⟨⟨_, rfl⟩, not_willing_of_answer hanswer⟩)⟩
  | none =>
    rw [opening, enter_of_opened hanswer]
    obtain ⟨t, hfile, hfaults, hcases⟩ := start_of_signed (s := entered path host (some ⟨f, locked⟩)) hf config
    rcases hcases with ⟨hok, hm, hholds⟩ | ⟨x, herr, hx⟩
    · have hrun := Act.bind_of_ok (f := body) hok
      dsimp only
      rw [hrun]
      refine ⟨congrArg some ?_, .inr ⟨t, hm, hfaults, hholds.congr rfl, rfl, rfl⟩⟩
      exact congrArg File.image ((hbody f.size t).2.trans hfile)
    · have hrun := Act.bind_of_error (f := body) herr
      dsimp only
      rw [hrun]
      exact ⟨congrArg (fun file : File => some file.image) hfile, .inl (hx.congr rfl)⟩

/-- Opening a missing or blank file makes a new board of it, or the opening is hindered and the file is missing or blank
still, and no shorter. -/
theorem opening_of_blank [Processor] (hbody : Gentle body) (path : String) (host : Host) (config : Config)
    {image? : Option Image} (hblank : ∀ f, image? = some f → f.Blank ∧ f.size ≤ maxSize) (locked : Bool) :
    (∃ t m, IsNew config.policy (Image.lengthOf image?) t ∧ t.region.host.toFaults = host.toFaults ∧
        TookLock host (image?.isSome && locked) t.region.holds ∧
        (opening path host config (.ok (image?.map (⟨·, locked⟩))) body).2.1 = some t.file.image ∧
        (opening path host config (.ok (image?.map (⟨·, locked⟩))) body).1.outcome = (body m t).1 ∧
        (opening path host config (.ok (image?.map (⟨·, locked⟩))) body).2.2 = (body m t).2.region) ∨
      Hindered host locked (opening path host config (.ok (image?.map (⟨·, locked⟩))) body).1.outcome ∧
        (∀ f, (opening path host config (.ok (image?.map (⟨·, locked⟩))) body).2.1 = some f →
          f.Blank ∧ f.size ≤ maxSize) ∧
        newSize config.policy (Image.lengthOf (opening path host config (.ok (image?.map (⟨·, locked⟩))) body).2.1) =
          newSize config.policy (Image.lengthOf image?) ∧
        Image.lengthOf image? ≤ Image.lengthOf (opening path host config (.ok (image?.map (⟨·, locked⟩))) body).2.1 := by
  cases hanswer : (host.answer .openRw).1 with
  | some why =>
    rw [opening, enter_of_refused hanswer]
    have hsame : (image?.map (File.mk · locked)).map (·.image) = image? := by cases image? <;> rfl
    dsimp only
    rw [hsame]
    exact .inr ⟨.inl ⟨⟨_, rfl⟩, not_willing_of_answer hanswer⟩, hblank, rfl, Nat.le_refl _⟩
  | none =>
    rw [opening, enter_of_opened hanswer]
    obtain ⟨himage, hblank', hmax, hlocked⟩ : (entered path host (image?.map (⟨·, locked⟩))).file.image =
          image?.getD Image.empty ∧ (image?.getD Image.empty).Blank ∧ (image?.getD Image.empty).size ≤ maxSize ∧
        (entered path host (image?.map (⟨·, locked⟩))).file.locked = (image?.isSome && locked) := by
      cases image? with
      | none => exact ⟨rfl, fun b _ => Image.empty.byte_of_size_le (Nat.zero_le b), Nat.zero_le _, rfl⟩
      | some f => exact ⟨rfl, (hblank f rfl).1, (hblank f rfl).2, (Bool.true_and locked).symm⟩
    obtain ⟨t, hfaults, hcases⟩ := start_of_blank (s := entered path host (image?.map (⟨·, locked⟩)))
      (himage ▸ hblank') (himage ▸ hmax) config
    rw [himage, hlocked] at hcases
    rcases hcases with ⟨⟨m, hok⟩, hnew, hholds⟩ | ⟨⟨x, herr, hx⟩, hstill⟩
    · have hrun := Act.bind_of_ok (f := body) hok
      dsimp only
      rw [hrun]
      refine .inl ⟨t, m, hnew, hfaults, hholds.congr rfl, ?_, rfl, rfl⟩
      exact congrArg (fun file : File => some file.image) (hbody m t).2
    · have hrun := Act.bind_of_error (f := body) herr
      dsimp only
      rw [hrun]
      have hhindered : Hindered host (image?.isSome && locked) (.error x : Except Halt Answer) := hx.congr rfl
      refine .inr ⟨?_, fun f heq => ?_, hstill.newSize, hstill.longer⟩
      · exact hhindered.imp_right (And.imp_right fun h => (Bool.and_eq_true_iff.mp h).2)
      · obtain rfl := Option.some.inj heq
        exact ⟨hstill.blank, hstill.size_le⟩

end Board

end VersionBoard
