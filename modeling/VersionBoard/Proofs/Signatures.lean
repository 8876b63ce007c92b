import VersionBoard.Proofs.Retries

/-!
# Signatures in bytes, and files that are no boards

A signature and its sixteen bytes say the same, whatever numbers are in it: each
is made of the other, and bytes are refused only if they are too few. So of all
ways to begin a file there is one that is blank and one that is a board's. Opening
looks at the first sixteen bytes once the file is long enough for a header; if
they are neither, the file is not a board, and apart from the zeros that made it
long enough it stays as it was (`Shared.signature_exact`).
-/

namespace VersionBoard

/-! ### Numbers in bytes -/

namespace LittleEndian

variable {n : Nat} {bs : List UInt8}

theorem ofNat_toNat_of_length (h : bs.length = n) : ofNat n (toNat bs) = bs := by
  rw [← h, ofNat_toNat]

theorem toNat_lt_of_length (h : bs.length = n) : toNat bs < span n := by
  rw [← h]
  exact toNat_lt_span bs

end LittleEndian

namespace Signature

variable {sig : Signature} {bs : List UInt8}

theorem length_toBytes (sig : Signature) : sig.toBytes.length = signatureSize := by
  simp [toBytes, signatureSize]

/-- What a signature's bytes say is the signature. -/
theorem ofBytes_toBytes (sig : Signature) : ofBytes sig.toBytes = .ok sig := by
  have hmagic : LittleEndian.toNat (sig.toBytes.take 8) = sig.magic.toNat := by
    rw [toBytes, List.append_assoc, List.take_left' (LittleEndian.length_ofNat ..)]
    exact LittleEndian.toNat_ofNat 8 sig.magic.toNat_lt_size
  have hversion : LittleEndian.toNat ((sig.toBytes.drop 8).take 4) = sig.version.toNat := by
    rw [toBytes, List.append_assoc, List.drop_left' (LittleEndian.length_ofNat ..),
      List.take_left' (LittleEndian.length_ofNat ..)]
    exact LittleEndian.toNat_ofNat 4 sig.version.toNat_lt_size
  have hentries : LittleEndian.toNat ((sig.toBytes.drop 12).take 4) = sig.entriesPerSlot.toNat := by
    rw [toBytes, List.drop_left' (by simp), List.take_of_length_le (by simp)]
    exact LittleEndian.toNat_ofNat 4 sig.entriesPerSlot.toNat_lt_size
  rw [ofBytes, if_neg (Nat.not_lt.mpr (Nat.le_of_eq (length_toBytes sig).symm)), hmagic, hversion, hentries,
    UInt64.ofNat_toNat, UInt32.ofNat_toNat, UInt32.ofNat_toNat]

/-- Bytes are refused just if they are too few. -/
theorem exists_ofBytes_eq_error_iff : (∃ fault, ofBytes bs = .error fault) ↔ bs.length < signatureSize := by
  rw [ofBytes]
  split_ifs with h
  · exact iff_of_true ⟨_, rfl⟩ h
  · exact iff_of_false (by simp) h

/-- The first of the bytes that say a signature are the signature's. -/
theorem toBytes_of_ofBytes (h : ofBytes bs = .ok sig) : sig.toBytes = bs.take signatureSize := by
  rw [ofBytes] at h
  split_ifs at h with hlong
  obtain rfl := Except.ok.inj h
  rw [signatureSize] at hlong
  have hmagic : (bs.take 8).length = 8 := by simp; omega
  have hversion : ((bs.drop 8).take 4).length = 4 := by simp; omega
  have hentries : ((bs.drop 12).take 4).length = 4 := by simp; omega
  have hparts : bs.take signatureSize = bs.take 8 ++ (bs.drop 8).take 4 ++ (bs.drop 12).take 4 := by
    rw [show signatureSize = 8 + 4 + 4 from rfl, List.take_add, List.take_add]
  rw [hparts, toBytes, UInt64.toNat_ofNat_of_lt' (LittleEndian.toNat_lt_of_length hmagic),
    UInt32.toNat_ofNat_of_lt' (LittleEndian.toNat_lt_of_length hversion),
    UInt32.toNat_ofNat_of_lt' (LittleEndian.toNat_lt_of_length hentries), LittleEndian.ofNat_toNat_of_length hmagic,
    LittleEndian.ofNat_toNat_of_length hversion, LittleEndian.ofNat_toNat_of_length hentries]

theorem toBytes_inj {sig' : Signature} : sig.toBytes = sig'.toBytes ↔ sig = sig' := by
  refine ⟨fun h => ?_, congrArg toBytes⟩
  have hsame := ofBytes_toBytes sig
  rw [h, ofBytes_toBytes] at hsame
  exact (Except.ok.inj hsame).symm

/-- A signature is blank just if its bytes are all zero. -/
theorem isBlank_iff : sig.isBlank = true ↔ sig.toBytes = List.replicate signatureSize 0 := by
  have hzeros : List.replicate signatureSize 0 = (⟨0, 0, 0⟩ : Signature).toBytes := rfl
  rw [hzeros, toBytes_inj, isBlank, decide_eq_true_eq]
  cases sig
  simp

/-- Nothing is wrong with a signature just if it is the one of this layout. -/
theorem fault?_eq_none_iff : sig.fault? = none ↔ sig = current := by
  rw [fault?]
  split_ifs with hmagic hversion hentries
  · exact iff_of_false nofun fun h => hmagic (congrArg magic h)
  · exact iff_of_false nofun fun h => hversion (congrArg version h)
  · exact iff_of_false nofun fun h => hentries (congrArg Signature.entriesPerSlot h)
  · rw [not_not] at hmagic hversion hentries
    refine iff_of_true rfl ?_
    cases sig
    cases hmagic
    cases hversion
    cases hentries
    rfl

end Signature

/-! ### What a file begins with -/

namespace Image

variable {f : Image}

/-- The file begins neither with zeros nor with the signature of a board; past its end there are zeros. -/
def Foreign (f : Image) : Prop :=
  f.read 0 signatureSize ≠ List.replicate signatureSize 0 ∧ f.read 0 signatureSize ≠ Signature.current.toBytes

instance (f : Image) : Decidable f.Foreign := inferInstanceAs (Decidable (_ ∧ _))

theorem blank_iff : f.Blank ↔ f.read 0 signatureSize = List.replicate signatureSize 0 := by
  refine ⟨Blank.read, fun h b hb => ?_⟩
  have hzeros : f.read 0 signatureSize = (zeros signatureSize).read 0 signatureSize := h.trans (blank_zeros _).read.symm
  rw [byte_eq_of_read_eq hzeros hb, byte_zeros]

/-- However a file begins, that is a signature. -/
theorem exists_signature (f : Image) :
    ∃ sig, Signature.ofBytes (f.read 0 signatureSize) = .ok sig ∧ sig.toBytes = f.read 0 signatureSize := by
  cases hsig : Signature.ofBytes (f.read 0 signatureSize) with
  | error fault =>
    have hshort := Signature.exists_ofBytes_eq_error_iff.mp ⟨fault, hsig⟩
    rw [length_read] at hshort
    exact absurd hshort (Nat.lt_irrefl _)
  | ok sig =>
    refine ⟨sig, rfl, (Signature.toBytes_of_ofBytes hsig).trans (List.take_of_length_le ?_)⟩
    rw [length_read]

/-- A file that is made longer has zeros after what it had. -/
theorem toList_grow (f : Image) (n : Nat) : (f.grow n).toList = f.toList ++ List.replicate (n - f.size) 0 := by
  apply List.ext_getElem
  · simp only [toList, length_read, size_grow, List.length_append, List.length_replicate]
    omega
  · intro i hi _
    rw [List.getElem_append]
    split_ifs with hin
    · simp [toList, read, byte_grow]
    · have hout : f.size ≤ i := by simpa [toList] using hin
      simp [toList, read, byte_grow, f.byte_of_size_le hout]

end Image

/-! ### Opening such files -/

namespace Region

variable {s : Scene}

/-- A host that refuses nothing lets the whole file be mapped, which is made longer if it is too short. -/
theorem mapWhole_of_willing (hw : s.region.host.Willing) (least : Nat) :
    ∃ calls, mapWhole least s = (.ok (), s.after calls (s.file.image.grow least) (max s.file.image.size least)) := by
  have hmap : ∀ t : Scene, t.region.host.Willing → ∀ k,
      mapFirst k t = (.ok (), (t.told [⟨.map k, none⟩]).withMapping k) := by
    intro t ht k
    rcases mapFirst_cases k t with ⟨hmap, -⟩ | ⟨_, _, hsaid⟩
    · exact hmap
    · exact absurd ht (Host.not_willing_of_says hsaid (.head _) rfl)
  have hmeasure : measure s = (.ok s.file.image.size, s.told [⟨.length, none⟩]) := by
    rcases measure_cases s with ⟨hmeasure, -⟩ | ⟨_, _, hsaid⟩
    · exact hmeasure
    · exact absurd hw (Host.not_willing_of_says hsaid (.head _) rfl)
  rw [mapWhole, Act.bind_of_ok hmeasure]
  split_ifs with hlt
  · rcases allocate_cases least (s.told [⟨.length, none⟩]) with ⟨hallocate, -⟩ | ⟨_, _, hsaid⟩
    swap
    · exact absurd (hw.told _) (Host.not_willing_of_says hsaid (.head _) rfl)
    refine ⟨[⟨.length, none⟩] ++ [⟨.allocate least, none⟩] ++ [⟨.map (max s.file.image.size least), none⟩],
      (Act.bind_of_ok hallocate).trans ((hmap _ ((hw.told _).told _) _).trans ?_)⟩
    rw [Scene.told_withImage, Scene.told_told, Scene.told_told]
    rfl
  · refine ⟨[⟨.length, none⟩] ++ [⟨.map (max s.file.image.size least), none⟩], (hmap _ (hw.told _) _).trans ?_⟩
    rw [Scene.told_told, Image.grow_of_le (Nat.not_lt.mp hlt)]
    rfl

end Region

namespace Board

open Region

variable {s : Scene} {n : Nat} {sig : Signature}

/-- What mapping the whole file leaves of it. -/
theorem mapped_after_mapWhole (s : Scene) (calls : List CallRecord) :
    (s.after calls (s.file.image.grow headerSize) (max s.file.image.size headerSize)).Mapped
      (max s.file.image.size headerSize) :=
  ⟨rfl, Nat.le_max_right .., Nat.le_refl _⟩

/-- On a host that refuses nothing a file that is not blank is only checked. -/
theorem setUp_of_willing [Processor] (hm : s.Mapped n) (hlocked : s.file.locked = false) (hw : s.region.host.Willing)
    (hsig : Signature.ofBytes (s.file.image.read 0 signatureSize) = .ok sig) (hblank : sig.isBlank = false)
    (policy : Policy) :
    ∃ (h : Host) (b : Bool), h.Willing ∧ setUp policy s = (sig.verdict s.region.path, s.withSide h b) := by
  rcases setUp_of_signature hm sig hsig hblank policy with ⟨_, _, _, _, hhindered⟩ | ⟨h, b, hh, -, hset⟩
  · exact absurd (hlocked.symm.trans (hhindered.locked_of_willing hw)) Bool.false_ne_true
  · exact ⟨h, b, (Host.willing_congr hh).mpr hw, hset⟩

/-- On a host that refuses nothing, catching up does not fail. -/
theorem catchUp_of_willing (hm : s.Mapped n) (hw : s.region.host.Willing) : ∃ t, catchUp s = (.ok (), t) := by
  obtain ⟨o, calls, g, m, hreach, hsaid, hends⟩ := reach_ends hm.mapping (sizeFor s.file.image.cells.used)
  have hnone := hw.firstError?_eq_none hsaid s.region.path
  rw [catchUp_apply hm, hreach]
  rcases hends.outcome with ⟨rfl, -⟩ | ⟨e, -, hfirst, -⟩
  · exact ⟨_, rfl⟩
  · rw [hfirst] at hnone
    cases hnone

/-- What comes of opening a file that is not blank is decided by its signature, unless it is a board's. -/
theorem start_of_signature [Processor] (hlocked : s.file.locked = false) (hw : s.region.host.Willing)
    (hsig : Signature.ofBytes (s.file.image.read 0 signatureSize) = .ok sig) (hblank : sig.isBlank = false)
    (config : Config) :
    (sig = Signature.current ∧ ∃ m t, start config s = (.ok m, t)) ∨
      ∃ fault t, start config s = (.error (.failed (.corrupt s.region.path (.signature fault))), t) ∧
        sig ≠ Signature.current ∧ t.file.image = s.file.image.grow headerSize := by
  obtain ⟨calls, hmap⟩ := mapWhole_of_willing hw headerSize
  obtain ⟨h, b, hh, hset⟩ := setUp_of_willing (mapped_after_mapWhole s calls) hlocked (hw.told calls)
    (by rw [← hsig]; exact congrArg Signature.ofBytes (Image.read_grow ..)) hblank config.policy
  rw [start, Act.bind_of_ok hmap]
  cases hfault : sig.fault? with
  | none =>
    left
    refine ⟨Signature.fault?_eq_none_iff.mp hfault, ?_⟩
    rw [Signature.verdict, hfault] at hset
    have hmapped := mapped_after_mapWhole s calls
    have hmapped' : ((s.after calls (s.file.image.grow headerSize) (max s.file.image.size headerSize)).withSide h
        b).Mapped (max s.file.image.size headerSize) := ⟨hmapped.mapping, hmapped.header, hmapped.inside⟩
    obtain ⟨t, hcatch⟩ := catchUp_of_willing hmapped' hh
    exact ⟨_, _, (Act.bind_of_ok hset).trans ((Act.bind_of_ok hcatch).trans rfl)⟩
  | some fault =>
    right
    rw [Signature.verdict, hfault] at hset
    refine ⟨fault, _, Act.bind_of_error hset, fun heq => ?_, rfl⟩
    rw [Signature.fault?_eq_none_iff.mpr heq] at hfault
    cases hfault

end Board

namespace Shared

variable {s : Shared} {path : String} {host : Host} {config : Config} {r : Request}

/-- What the file holds; a missing one holds nothing. -/
def contents (s : Shared) : Image := s.file?.getD Image.empty

/-- No handle holds the advisory lock, and the file is no longer than a file can be. -/
def Unheld (s : Shared) : Prop := s.locked = false ∧ ∀ f, s.file? = some f → f.size ≤ Region.maxSize

/-- What whoever opens the file finds in it, and that the advisory lock is to be had. -/
theorem Unheld.entered (hs : s.Unheld) (path : String) (host : Host) :
    (Board.entered path host s.found?).file = ⟨s.contents, false⟩ := by
  rw [Board.entered, found?, contents, hs.1]
  cases s.file? <;> rfl

/-- On a host that refuses nothing, a file that is no board is not opened; one that is, or is blank, is. -/
theorem Unheld.step_of_opens [Processor] (hs : s.Unheld) (hr : r.Opens path host config) (hw : host.Willing) :
    ∃ reply, (s.step r).1 = some reply ∧
      (¬ s.contents.Foreign ∧ (∃ a, reply.outcome = .ok a) ∨
        s.contents.Foreign ∧ (∃ cause, reply.outcome = .error (.failed (.corrupt path cause))) ∧
          (s.step r).2.file? = some (s.contents.grow headerSize)) := by
  obtain ⟨hreply, hfile⟩ := Shared.step_of_opens hr s
  refine ⟨_, hreply, ?_⟩
  rw [hfile]
  by_cases hblank : s.contents.Blank
  · left
    refine ⟨fun hforeign => hforeign.1 (Image.blank_iff.mp hblank), ?_⟩
    have hall : ∀ f, s.file? = some f → f.Blank ∧ f.size ≤ Region.maxSize := by
      intro f h
      rw [contents, h] at hblank
      exact ⟨hblank, hs.2 f h⟩
    rcases Board.opening_of_blank r.gentle_onceOpen path host config hall s.locked with
      ⟨t, m, -, -, -, -, hok, -⟩ | ⟨hhindered, -⟩
    · rw [found?, hok]
      exact (r.gentle_onceOpen m t).1
    · exact absurd (hs.1.symm.trans (hhindered.locked_of_willing hw)) Bool.false_ne_true
  · obtain ⟨sig, hsig, hbytes⟩ := s.contents.exists_signature
    have hnot : sig.isBlank = false := by
      rw [← Bool.not_eq_true, Signature.isBlank_iff, hbytes, ← Image.blank_iff]
      exact hblank
    have hforeign : s.contents.Foreign ↔ sig ≠ Signature.current := by
      rw [Image.Foreign, ne_eq, ← Image.blank_iff, ← hbytes, ne_eq, Signature.toBytes_inj]
      exact and_iff_right hblank
    have hanswer : (host.answer .openRw).1 = none := congrArg (·.or none) (hw.grants _ _)
    have hentered := hs.entered path host
    rw [Board.opening, Board.enter_of_opened hanswer, hforeign]
    rcases Board.start_of_signature (s := Board.entered path host s.found?) (congrArg File.locked hentered)
      ⟨hw.grants, hw.duplicates⟩ (by rw [hentered]; exact hsig) hnot config with
      ⟨hcurrent, m, t, hok⟩ | ⟨fault, t, herr, hother, ht⟩
    · refine .inl ⟨not_not.mpr hcurrent, ?_⟩
      dsimp only
      rw [Act.bind_of_ok hok]
      exact (r.gentle_onceOpen m t).1
    · rw [hentered] at ht
      refine .inr ⟨hother, ⟨.signature fault, ?_⟩, ?_⟩
      · dsimp only
        rw [Act.bind_of_error herr]
        rfl
      · dsimp only
        rw [Act.bind_of_error herr]
        exact congrArg some ht

/-- A signature and its sixteen bytes say the same, and bytes are refused just if they are too few. On a host that
refuses nothing, a file is found to be no board just if it begins neither with zeros nor with the signature of a board;
then its bytes stay, with zeros after them up to the size of a header. -/
theorem signature_exact [Processor] :
    (∀ sig : Signature, Signature.ofBytes sig.toBytes = .ok sig) ∧
      (∀ bs : List UInt8, ((∃ fault, Signature.ofBytes bs = .error fault) ↔ bs.length < 16) ∧
        ∀ sig, Signature.ofBytes bs = .ok sig → sig.toBytes = bs.take 16) ∧
      ∀ (s : Shared) (r : Request) (path : String) (host : Host) (config : Config),
        s.Unheld → r.Opens path host config → host.Willing → ∃ reply, (s.step r).1 = some reply ∧
          ((∃ cause, reply.outcome = .error (.failed (.corrupt path cause))) ↔
            s.contents.read 0 16 ≠ List.replicate 16 0 ∧ s.contents.read 0 16 ≠ Signature.current.toBytes) ∧
          ((∃ cause, reply.outcome = .error (.failed (.corrupt path cause))) →
            ∃ g, (s.step r).2.file? = some g ∧
              g.toList = s.contents.toList ++ List.replicate (64 - s.contents.toList.length) 0) := by
  refine ⟨Signature.ofBytes_toBytes, fun bs => ⟨Signature.exists_ofBytes_eq_error_iff, fun _ => Signature.toBytes_of_ofBytes⟩,
    ?_⟩
  intro s r path host config hs hr hw
  obtain ⟨reply, hreply, hcases⟩ := hs.step_of_opens hr hw
  refine ⟨reply, hreply, ?_⟩
  rcases hcases with ⟨hboard, a, ha⟩ | ⟨hforeign, hcorrupt, hfile⟩
  · have hok : ¬ ∃ cause, reply.outcome = .error (.failed (.corrupt path cause)) := by
      rintro ⟨cause, hcause⟩
      cases ha.symm.trans hcause
    exact ⟨iff_of_false hok hboard, fun hcorrupt => absurd hcorrupt hok⟩
  · refine ⟨iff_of_true hcorrupt hforeign, fun _ => ⟨_, hfile, ?_⟩⟩
    rw [Image.toList_grow, Image.toList, Image.length_read]
    rfl

/-- Twenty bytes that begin with the signature of a board in a later layout. -/
theorem signature_exact_of_later_layout :
    let later : Signature := { Signature.current with version := 2 }
    let s : Shared := { file? := some (.ofList (later.toBytes ++ [1, 2, 3, 4])) }
    ∃ reply, (s.step (.create "board" .willing .default)).1 = some reply ∧
      (∃ cause, reply.outcome = .error (.failed (.corrupt "board" cause))) ∧
      ∃ g, (s.step (.create "board" .willing .default)).2.file? = some g ∧
        g.toList = later.toBytes ++ [1, 2, 3, 4] ++ List.replicate 44 0 := by
  intro later s
  have hs : s.Unheld := by
    refine ⟨rfl, fun f hf => ?_⟩
    obtain rfl := Option.some.inj hf
    decide +kernel
  have hcontents : s.contents.toList = later.toBytes ++ [1, 2, 3, 4] := by decide +kernel
  have hforeign : s.contents.Foreign := by decide +kernel
  obtain ⟨reply, hreply, hiff, hkept⟩ :=
    signature_exact.2.2 s _ "board" .willing .default hs .create Host.willing_willing
  have hcorrupt := hiff.mpr hforeign
  obtain ⟨g, hfile, hg⟩ := hkept hcorrupt
  rw [hcontents] at hg
  exact ⟨reply, hreply, hcorrupt, g, hfile, hg⟩

end Shared

end VersionBoard
