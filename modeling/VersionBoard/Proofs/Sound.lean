import VersionBoard.Proofs.Allowed
import VersionBoard.Signature

/-!
# Sound files

A file is coherent if it is signed and its table is coherent and lies inside it;
it is sound if moreover no attempt is pending and nothing stands behind the used
slots. Allowed edits keep a file coherent (`Image.Coherent.edits`), and sound
unless they abandon a slot (`Image.Sound.edits`); so does growing. A board that
was just set up is sound (`Image.sound_newBoard`).
-/

namespace VersionBoard

/-- A signed file with a coherent table in it. -/
structure Image.Coherent (f : Image) : Prop where
  /-- The file is signed. -/
  signed : f.read 0 signatureSize = Signature.current.toBytes
  /-- The used slots lie inside the file. -/
  fits : sizeFor f.cells.used ≤ f.size
  /-- The length is one that a file can have. -/
  size_le : f.size ≤ Region.maxSize
  /-- The table is coherent. -/
  table : f.cells.Coherent

/-- What holds of a file between whole calls. -/
structure Image.Sound (f : Image) : Prop extends f.Coherent where
  /-- Nobody holds a free entry. -/
  idle : ∀ i e, f.cells (.key i e) = 0 → f.cells (.lock i e) = 0
  /-- Behind the used slots there is nothing. -/
  rest : ∀ b, sizeFor f.cells.used ≤ b → f.byte b = 0

namespace Words

variable {w : Words} {ed : Edit}

theorem slot_lt_used_edit (h : w.Coherent) (ha : ed.Allowed w) (hed : ed.abandons = false) :
    ed.slot < (w.edit ed).used := by
  have hle := used_le_edit ha
  cases ed with
  | abandon i e p => cases hed
  | assign i e k => exact Nat.lt_of_lt_of_le (h.lt_used_of_live ha.1) hle
  | track i e p k =>
    have hslot : i ≤ w.used := ha.2.1
    rw [used_edit ha, Edit.slot]
    split_ifs with hlast
    · omega
    · have : i ≠ w.used := fun heq => hlast (by rw [Edit.stated, heq])
      omega
  | _ => exact Nat.lt_of_lt_of_le (h.lt_used_of_live (h.live_of_key ha.1)) hle

theorem idle_edit (ha : ed.Allowed w) (hed : ed.abandons = false) (hidle : ∀ i e, w (.key i e) = 0 → w (.lock i e) = 0)
    {i : Nat} {e : EntryIndex} (hk : w.edit ed (.key i e) = 0) : w.edit ed (.lock i e) = 0 := by
  by_cases hl : ed.locked = some (i, e)
  · have hkey : w.edit ed (.key i e) = w (.key i e) := key_edit_of_ne fun _ hk' => locked_ne_of_keyed hk' hl
    rw [hkey] at hk
    rcases key_ne_zero_of_locked ha hl with hk' | ⟨habandons, -⟩
    · exact absurd hk hk'
    · rw [hed] at habandons
      cases habandons
  · rw [lock_edit_of_ne hl]
    by_cases hke : ∃ k, ed.keyed = some ((i, e), k)
    · obtain ⟨k, hk'⟩ := hke
      exact lock_of_keyed ha hk'
    · rw [key_edit_of_ne fun k hk' => hke ⟨k, hk'⟩] at hk
      exact hidle i e hk

end Words

namespace Image

variable {f : Image}

/-- Behind the slots that are edited nothing changes. -/
theorem byte_edit (f : Image) {ed : Edit} {n b : Nat} (hed : ed.slot < n) (hb : sizeFor n ≤ b) :
    (f.edit ed).byte b = f.byte b := by
  refine byte_setCells f ?_
  intro x hx
  have := (Edit.within_of_mem_writes hed hx).offset_add_le
  omega

theorem byte_edits (f : Image) {es : List Edit} {n b : Nat} (hes : ∀ ed ∈ es, ed.slot < n) (hb : sizeFor n ≤ b) :
    (f.edits es).byte b = f.byte b := by
  induction es generalizing f with
  | nil => rfl
  | cons ed es ih =>
    exact (ih (f.edit ed) fun d hd => hes d (List.mem_cons_of_mem _ hd)).trans
      (byte_edit f (hes ed List.mem_cons_self) hb)

theorem sizeFor_used_edit_le (h : f.Coherent) {ed : Edit} (ha : ed.Allowed f.cells) (hh : f.Holds ed.slot) :
    sizeFor (f.cells.edit ed).used ≤ f.size := by
  rw [Words.used_edit ha]
  split_ifs with hlast
  · have hslot : ed.slot = f.cells.used := by
      cases ed with
      | track i e p k => exact congrArg Prod.fst (Option.some.inj hlast)
      | retire i e => simp [Edit.stated, SlotState.live, SlotState.retired] at hlast
      | _ => cases hlast
    rw [Holds, hslot] at hh
    exact hh
  · exact h.fits

theorem Coherent.edit (h : f.Coherent) {ed : Edit} (ha : ed.Allowed f.cells) (hh : f.Holds ed.slot) :
    (f.edit ed).Coherent where
  signed := (read_signature_setCells f _).trans h.signed
  fits := by
    rw [cells_edit hh, size_edit]
    exact sizeFor_used_edit_le h ha hh
  size_le := by
    rw [size_edit]
    exact h.size_le
  table := by
    rw [cells_edit hh]
    exact h.table.edit ha

theorem Sound.edit (h : f.Sound) {ed : Edit} (ha : ed.Allowed f.cells) (hh : f.Holds ed.slot)
    (hed : ed.abandons = false) : (f.edit ed).Sound where
  toCoherent := h.toCoherent.edit ha hh
  idle i e hk := by
    rw [cells_edit hh] at hk ⊢
    exact Words.idle_edit ha hed h.idle hk
  rest b hb := by
    rw [cells_edit hh] at hb
    rw [byte_edit f (Words.slot_lt_used_edit h.table ha hed) hb]
    exact h.rest b (Nat.le_trans (sizeFor_mono (Words.used_le_edit ha)) hb)

/-- Allowed edits leave a coherent file coherent. -/
theorem Coherent.edits (h : f.Coherent) {es : List Edit} (ha : f.cells.Allows es) (hh : ∀ ed ∈ es, f.Holds ed.slot) :
    (f.edits es).Coherent := by
  induction es generalizing f with
  | nil => exact h
  | cons ed es ih =>
    have hed := hh ed List.mem_cons_self
    refine ih (h.edit ha.1 hed) ?_ fun d hd => ?_
    · rw [cells_edit hed]
      exact ha.2
    · rw [Holds, size_edit]
      exact hh d (List.mem_cons_of_mem _ hd)

/-- Allowed edits leave a sound file sound, unless a slot is abandoned. -/
theorem Sound.edits (h : f.Sound) {es : List Edit} (ha : f.cells.Allows es) (hh : ∀ ed ∈ es, f.Holds ed.slot)
    (hes : ∀ ed ∈ es, ed.abandons = false) : (f.edits es).Sound := by
  induction es generalizing f with
  | nil => exact h
  | cons ed es ih =>
    have hed := hh ed List.mem_cons_self
    refine ih (h.edit ha.1 hed (hes ed List.mem_cons_self)) ?_ (fun d hd => ?_) fun d hd => ?_
    · rw [cells_edit hed]
      exact ha.2
    · rw [Holds, size_edit]
      exact hh d (List.mem_cons_of_mem _ hd)
    · exact hes d (List.mem_cons_of_mem _ hd)

theorem Coherent.grow (h : f.Coherent) {k : Nat} (hk : k ≤ Region.maxSize) : (f.grow k).Coherent where
  signed := (read_grow ..).trans h.signed
  fits := by
    rw [cells_grow, size_grow]
    exact Nat.le_trans h.fits (Nat.le_max_left ..)
  size_le := Nat.max_le.mpr ⟨h.size_le, hk⟩
  table := by
    rw [cells_grow]
    exact h.table

/-- A file that is not half as long as files can be has room for one slot more than are in use. -/
theorem Coherent.room (h : f.Coherent) (hsize : f.size < 2 ^ 63) : sizeFor (f.cells.used + 1) ≤ Region.maxSize := by
  have hfits : 64 + f.cells.used * 256 ≤ f.size := h.fits
  have hlt : 64 + (f.cells.used + 1) * 256 < 2 ^ 64 := by omega
  exact Nat.le_sub_one_of_lt hlt

theorem Sound.grow (h : f.Sound) {k : Nat} (hk : k ≤ Region.maxSize) : (f.grow k).Sound where
  toCoherent := h.toCoherent.grow hk
  idle := by
    rw [cells_grow]
    exact h.idle
  rest b hb := by
    rw [cells_grow] at hb
    rw [byte_grow]
    exact h.rest b hb

/-! ### A board that was just set up -/

/-- So many zeros. -/
def zeros (n : Nat) : Image := empty.grow n

@[simp] theorem size_zeros (n : Nat) : (zeros n).size = n := Nat.zero_max n

theorem cells_zeros (n : Nat) : (zeros n).cells = fun _ => 0 := cells_grow empty n

theorem byte_zeros (n b : Nat) : (zeros n).byte b = 0 := (byte_grow empty n b).trans (empty.byte_of_size_le (Nat.zero_le b))

/-- What a new board starts with. -/
def seeds (policy : Policy) : List Edit :=
  if policy.initialPartitions = 0 then [] else [.track 0 ⟨0, by decide⟩ Partition.whole 1]

/-- A board of `n` bytes as it is set up. -/
def newBoard (policy : Policy) (n : Nat) : Image :=
  ((zeros n).edits (seeds policy)).write 0 Signature.current.toBytes

end Image

theorem Words.not_live_zero (i : Nat) : ¬ Live (fun _ => 0) i := by
  rw [Live]
  decide

theorem Words.coherent_zero : Words.Coherent fun _ => 0 where
  known _ hi := absurd hi (Nat.not_lt_zero _)
  unused _ _ := rfl
  counted := rfl
  unique i _ _ hi := absurd hi.1 (not_live_zero i)
  peopled i := by simp [not_live_zero i]
  apart _ _ _ h := absurd rfl h
  proper _ _ h := absurd rfl h
  tallied := rfl
  headerFree := rfl
  slotsFree _ := rfl

namespace Image

variable {policy : Policy} {n : Nat}

theorem allows_seeds (policy : Policy) : Words.Allows (fun _ => 0) (seeds policy) := by
  unfold seeds
  split_ifs
  · trivial
  · refine ⟨⟨Words.not_live_zero 0, Nat.le_refl _, by decide, rfl, by decide, fun j hj => ?_⟩, trivial⟩
    exact Words.not_live_zero j hj.1

theorem slot_seeds {ed : Edit} (h : ed ∈ seeds policy) : ed.slot < policy.initialPartitions := by
  rw [seeds] at h
  split_ifs at h with h0
  · cases h
  · rw [List.mem_singleton.mp h]
    exact Nat.pos_of_ne_zero h0

theorem holds_seeds (hn : sizeFor policy.initialPartitions ≤ n) : ∀ ed ∈ seeds policy, (zeros n).Holds ed.slot :=
  fun _ hed => by
    rw [Holds, size_zeros]
    exact Nat.le_trans (sizeFor_mono (slot_seeds hed)) hn

theorem cells_sign (f : Image) : (f.write 0 Signature.current.toBytes).cells = f.cells := by
  funext c
  refine word_write_of_disjoint f 0 _ _ (.inr ?_)
  have := c.signatureSize_le_offset
  have := c.offset_mod
  rw [show Signature.current.toBytes.length = signatureSize from rfl]
  omega

theorem cells_newBoard (hn : sizeFor policy.initialPartitions ≤ n) :
    (newBoard policy n).cells = Words.edits (fun _ => 0) (seeds policy) := by
  rw [newBoard, cells_sign, cells_edits (holds_seeds hn), cells_zeros]

@[simp] theorem size_newBoard (policy : Policy) (n : Nat) : (newBoard policy n).size = n := by
  rw [newBoard, size_write, size_edits, size_zeros]

theorem used_seeds (policy : Policy) : (Words.edits (fun _ => 0) (seeds policy)).used = policy.initialPartitions := by
  cases policy <;> rfl

/-- A board that was just set up is sound. -/
theorem sound_newBoard (policy : Policy) (hn : sizeFor policy.initialPartitions ≤ n) (hmax : n ≤ Region.maxSize) :
    (newBoard policy n).Sound where
  signed := by
    have hsize : ((zeros n).edits (seeds policy)).size = n := by rw [size_edits, size_zeros]
    have hheader := headerSize_le_sizeFor policy.initialPartitions
    refine read_write _ 0 Signature.current.toBytes ?_
    rw [hsize, show Signature.current.toBytes.length = signatureSize from rfl]
    exact Nat.le_trans (show 0 + signatureSize ≤ headerSize by decide) (Nat.le_trans hheader hn)
  fits := by
    rw [cells_newBoard hn, used_seeds, size_newBoard]
    exact hn
  size_le := by
    rw [size_newBoard]
    exact hmax
  table := by
    rw [cells_newBoard hn]
    exact Words.coherent_zero.edits (allows_seeds policy)
  idle i e _ := by
    rw [cells_newBoard hn]
    cases policy <;> rfl
  rest b hb := by
    rw [cells_newBoard hn, used_seeds] at hb
    have hheader := headerSize_le_sizeFor policy.initialPartitions
    have hsig : signatureSize < headerSize := by decide
    rw [newBoard, byte_write, if_neg]
    · rw [byte_edits _ (fun _ hed => slot_seeds hed) hb, byte_zeros]
    · rw [show Signature.current.toBytes.length = signatureSize from rfl]
      omega

end Image

end VersionBoard
