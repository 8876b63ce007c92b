import VersionBoard.Proofs.Overwrites

/-!
# Addresses

Where the words of a file lie: the words of the header behind the signature, the
words of a slot between the bytes that so many slots need and those that one slot
more needs, all of them apart from each other (`layout_exact`). So storing one
word is never seen in another one, and a slot is mapped as a whole or not to be
used. As long as the slots end below the largest word, their addresses may be
computed in words, which wrap, and come to the same (`Cell.toNat_address`).
-/

namespace VersionBoard

variable {n i b : Nat} {c d : Cell}

/-- So many slots are held by `b` bytes just if they need no more. -/
theorem le_slotsIn_iff (hb : headerSize ≤ b) : n ≤ slotsIn b ↔ sizeFor n ≤ b :=
  ⟨sizeFor_le_of_le_slotsIn hb, le_slotsIn_of_sizeFor_le⟩

/-! ### Words of the header and words of slots -/

namespace Cell

/-- The slot that a word is part of; a word of the header is part of none. -/
def slot? : Cell → Option Nat
  | state i => some i
  | partition i => some i
  | slotLock i => some i
  | key i _ => some i
  | lock i _ => some i
  | _ => none

theorem offset_add_le_of_header (h : c.slot? = none) : c.offset + 8 ≤ headerSize := by
  cases c with
  | liveSlots | usedSlots | headerLock | stamp | readLocks => decide
  | _ => cases h

theorem sizeFor_le_offset (h : c.slot? = some i) : sizeFor i ≤ c.offset := by
  cases c with
  | liveSlots | usedSlots | headerLock | stamp | readLocks => cases h
  | _ =>
    obtain rfl := Option.some.inj h
    simp only [offset, lockStart, entryStart, sizeFor]
    omega

theorem offset_add_le_of_slot (h : c.slot? = some i) : c.offset + 8 ≤ sizeFor (i + 1) := by
  apply Within.offset_add_le
  cases c with
  | liveSlots | usedSlots | headerLock | stamp | readLocks => cases h
  | _ =>
    obtain rfl := Option.some.inj h
    exact Nat.lt_succ_self _

end Cell

/-! ### Addresses in words -/

/-- The first byte of slot `i`, computed in words. -/
def slotAddress (i : UInt64) : UInt64 := .ofNat headerSize + i * .ofNat slotSize

/-- The first byte of entry `e` of slot `i`, computed in words. -/
def entryAddress (i e : UInt64) : UInt64 := slotAddress i + .ofNat entriesStart + e * .ofNat entrySize

/-- How many whole slots `b` bytes hold, computed in words. -/
def slotsHeld (b : UInt64) : UInt64 := (if b < .ofNat headerSize then 0 else b - .ofNat headerSize) / .ofNat slotSize

/-- The first byte of a word, computed in words. -/
def Cell.address : Cell → UInt64
  | state i => slotAddress (.ofNat i)
  | partition i => slotAddress (.ofNat i) + 8
  | slotLock i => slotAddress (.ofNat i) + 16
  | key i e => entryAddress (.ofNat i) (.ofNat e)
  | lock i e => entryAddress (.ofNat i) (.ofNat e) + 8
  | c => .ofNat c.offset

theorem toNat_slotAddress (hi : sizeFor i < UInt64.size) : (slotAddress (.ofNat i)).toNat = slotStart i := by
  simp only [sizeFor, slotStart, headerSize, slotSize, UInt64.size] at hi
  simp only [slotAddress, slotStart, headerSize, slotSize, UInt64.toNat_add, UInt64.toNat_mul, UInt64.toNat_ofNat']
  omega

theorem toNat_entryAddress (hi : sizeFor (i + 1) < UInt64.size) (e : EntryIndex) :
    (entryAddress (.ofNat i) (.ofNat e)).toNat = entryStart i e := by
  have he := e.isLt
  have hslot := toNat_slotAddress (Nat.lt_of_le_of_lt (sizeFor_mono (Nat.le_succ i)) hi)
  simp only [sizeFor, slotStart, headerSize, slotSize, UInt64.size, entriesPerSlot] at hi he
  simp only [entryAddress, UInt64.toNat_add, UInt64.toNat_mul, UInt64.toNat_ofNat', hslot, entryStart, slotStart,
    headerSize, slotSize, entriesStart, entrySize]
  omega

theorem toNat_slotsHeld (b : UInt64) : (slotsHeld b).toNat = slotsIn b.toNat := by
  have hb := b.toNat_lt
  have hheader : (UInt64.ofNat headerSize).toNat = headerSize := rfl
  rw [slotsHeld, UInt64.toNat_div, slotsIn]
  congr 1
  split_ifs with hlt
  · rw [UInt64.lt_iff_toNat_lt, hheader] at hlt
    exact (Nat.sub_eq_zero_of_le (Nat.le_of_lt hlt)).symm
  · rw [UInt64.lt_iff_toNat_lt, hheader] at hlt
    rw [UInt64.toNat_sub_of_le _ _ (UInt64.le_iff_toNat_le.mpr (Nat.not_lt.mp hlt)), hheader]

theorem toNat_add_ofNat {a : UInt64} {k m : Nat} (ha : a.toNat = k) (h : k + m < UInt64.size) :
    (a + .ofNat m).toNat = k + m := by
  rw [UInt64.size] at h
  rw [UInt64.toNat_add, UInt64.toNat_ofNat', ha]
  omega

/-- Nothing wraps below the end of slots that end below the largest word. -/
theorem Cell.toNat_address (hn : sizeFor n < UInt64.size) (hc : c.Within n) : c.address.toNat = c.offset := by
  have hend := hc.offset_add_le
  have hroom : ∀ {i}, i < n → sizeFor (i + 1) < UInt64.size := fun hi => Nat.lt_of_le_of_lt (sizeFor_mono hi) hn
  have hslot : ∀ {i}, i < n → (slotAddress (.ofNat i)).toNat = slotStart i := fun hi =>
    toNat_slotAddress (Nat.lt_of_le_of_lt (sizeFor_mono (Nat.le_of_lt hi)) hn)
  cases c with
  | state i => exact hslot hc
  | partition i => exact toNat_add_ofNat (m := 8) (hslot hc) (by simp only [offset] at hend; omega)
  | slotLock i => exact toNat_add_ofNat (m := 16) (hslot hc) (by simp only [offset] at hend; omega)
  | key i e => exact toNat_entryAddress (hroom hc) e
  | lock i e => exact toNat_add_ofNat (m := 8) (toNat_entryAddress (hroom hc) e) (by simp only [offset, lockStart] at hend; omega)
  | _ => rfl

/-! ### Storing one word -/

namespace Mapping

variable {f : Image} {v : UInt64}

/-- Storing a word sets it, or does nothing to the file. -/
theorem put_cases (m : Mapping) (c : Cell) (v : UInt64) (f : Image) :
    m.put c v f = (.ok (), f.setCell c v) ∨ ∃ h, m.put c v f = (.error h, f) := by
  rcases m with ⟨_ | n⟩
  · exact .inr ⟨_, rfl⟩
  · by_cases hn : c.offset + 8 ≤ n
    · exact .inl (store_upTo c.offset_mod hn v f)
    · refine .inr ⟨.violated (.beyondMapping c.offset n), ?_⟩
      simp [put, store, check, c.offset_mod, Nat.not_le.mp hn, Act.bind_apply, Act.violate, Act.halt]

/-- Whatever is mapped, storing a word is not seen in any other one. -/
theorem get_put_of_ne (h : d ≠ c) (m m' : Mapping) (v : UInt64) (f : Image) :
    (m'.get d (m.put c v f).2).1 = (m'.get d f).1 := by
  rcases m.put_cases c v f with heq | ⟨_, heq⟩
  · rw [heq]
    refine load_congr ?_ m'
    rw [Image.setCell, Image.word_setWord, if_neg fun hw => h (Cell.offset_div_inj hw.1).symm]
  · rw [heq]

/-- Nor is it seen in the signature. -/
theorem readBytes_put (m m' : Mapping) (c : Cell) (v : UInt64) (f : Image) :
    (m'.readBytes 0 signatureSize (m.put c v f).2).1 = (m'.readBytes 0 signatureSize f).1 := by
  rcases m.put_cases c v f with heq | ⟨_, heq⟩
  · rw [heq]
    rcases m' with ⟨_ | n⟩
    · rfl
    · show ((upTo n).readBytes 0 signatureSize (f.setCells [(c, v)])).1 = ((upTo n).readBytes 0 signatureSize f).1
      rw [readBytes_upTo_apply, readBytes_upTo_apply, Image.read_signature_setCells]
  · rw [heq]

/-- It is seen in the word itself. -/
theorem get_put_self {m m' : Mapping} (hput : (m.put c v f).1 = .ok ()) (hget : ∃ u, (m'.get c f).1 = .ok u)
    (hf : c.offset + 8 ≤ f.size) : (m'.get c (m.put c v f).2).1 = .ok v := by
  rcases m.put_cases c v f with heq | ⟨_, heq⟩
  · rw [heq]
    rcases m' with ⟨_ | n⟩
    · obtain ⟨_, hget⟩ := hget
      cases hget
    · obtain ⟨u, hget⟩ := hget
      change ((upTo n).load c.offset f).1 = .ok u at hget
      show ((upTo n).load c.offset (f.setCell c v)).1 = .ok v
      rw [load_upTo_apply] at hget ⊢
      dsimp only at hget ⊢
      split_ifs at hget ⊢ with ha hn
      have hcell := congrFun (Image.cells_setCell hf v) c
      rw [Words.set_self] at hcell
      exact congrArg _ hcell
  · rw [heq] at hput
    cases hput

end Mapping

/-! ### The layout -/

/-- So many slots fit just if there are enough bytes for them, and if these can be counted in words, so can all that is
done with them. All named words are on 8-byte boundaries, behind the signature and apart from each other; those of a slot
lie in the bytes that are needed for it and not for the slots before it, the others before all slots. So storing one of
them is seen in no other and not in the signature, but, if it is mapped, in the word itself. -/
theorem layout_exact (hn : sizeFor n < UInt64.size) :
    ((∀ b, headerSize ≤ b → (n ≤ slotsIn b ↔ sizeFor n ≤ b)) ∧ (slotAddress (.ofNat n)).toNat = sizeFor n ∧
        (∀ b : UInt64, (slotsHeld b).toNat = slotsIn b.toNat) ∧ ∀ c : Cell, c.Within n → c.address.toNat = c.offset) ∧
      (∀ c : Cell, c.offset % 8 = 0 ∧ signatureSize ≤ c.offset ∧ (c.slot? = none → c.offset + 8 ≤ headerSize) ∧
        ∀ i, c.slot? = some i → sizeFor i ≤ c.offset ∧ c.offset + 8 ≤ sizeFor (i + 1)) ∧
      (∀ c d : Cell, c ≠ d → c.offset + 8 ≤ d.offset ∨ d.offset + 8 ≤ c.offset) ∧
      ∀ (m m' : Mapping) (f : Image) (c : Cell) (v : UInt64),
        (∀ d, d ≠ c → (m'.get d (m.put c v f).2).1 = (m'.get d f).1) ∧
          (m'.readBytes 0 signatureSize (m.put c v f).2).1 = (m'.readBytes 0 signatureSize f).1 ∧
          ((m.put c v f).1 = .ok () → (∃ u, (m'.get c f).1 = .ok u) → c.offset + 8 ≤ f.size →
            (m'.get c (m.put c v f).2).1 = .ok v) :=
  ⟨⟨fun _ => le_slotsIn_iff, toNat_slotAddress hn, toNat_slotsHeld, fun _ => Cell.toNat_address hn⟩,
    fun c => ⟨c.offset_mod, c.signatureSize_le_offset, Cell.offset_add_le_of_header,
      fun _ hi => ⟨Cell.sizeFor_le_offset hi, Cell.offset_add_le_of_slot hi⟩⟩,
    fun _ _ => Cell.offset_disjoint,
    fun m m' f c v => ⟨fun _ hd => Mapping.get_put_of_ne hd m m' v f, Mapping.readBytes_put m m' c v f,
      Mapping.get_put_self⟩⟩

/-- The most slots that can be counted, and the last word of the last of them. -/
theorem layout_exact_of_most_slots :
    let n := UInt64.size / 256 - 1
    let last := Cell.lock (n - 1) (13 : Fin 14)
    sizeFor n < UInt64.size ∧ ¬ n ≤ slotsIn (UInt64.size - 193) ∧ n ≤ slotsIn (UInt64.size - 192) ∧
      last.address.toNat = UInt64.size - 200 ∧ last.offset + 8 ≤ (Cell.state n).offset ∧
      ∀ (m m' : Mapping) (f : Image) (v : UInt64),
        (m'.get (.key (n - 1) (13 : Fin 14)) (m.put last v f).2).1 = (m'.get (.key (n - 1) (13 : Fin 14)) f).1 := by
  intro n last
  have hn : sizeFor n < UInt64.size := by decide
  obtain ⟨⟨hfit, -, -, haddress⟩, -, hapart, hstore⟩ := layout_exact hn
  have hlast : last.address.toNat = last.offset := haddress last (show n - 1 < n by decide)
  refine ⟨hn, ?_, (hfit _ (by decide)).mpr (by decide), hlast.trans (by decide), ?_, fun m m' f v => ?_⟩
  · rw [hfit _ (by decide)]
    decide
  · exact (hapart last (.state n) nofun).resolve_right (by decide)
  · exact (hstore m m' f last v).1 _ nofun

end VersionBoard
