import VersionBoard.LockWord
import Mathlib.Data.Nat.Bitwise

/-!
# What lock words say

A proper lock word counts readers or names a writer, never both. Adding and
taking away a reader are adding and taking away one, as long as the count stays
within its 48 bits.
-/

namespace VersionBoard.LockWord

/-- Only readers hold the version, or only a writer, or nobody. -/
def Proper (w : LockWord) : Prop := w = writeBit ∨ w.toNat < 2 ^ 48

instance (w : LockWord) : Decidable (Proper w) := inferInstanceAs (Decidable (_ ∨ _))

theorem proper_zero : Proper 0 := .inr (by decide)

theorem proper_writeBit : Proper writeBit := .inl rfl

theorem toNat_readers (w : LockWord) : (readers w).toNat = w.toNat % 2 ^ 48 := by
  have hmask : readerMask.toNat = 2 ^ 48 - 1 := rfl
  rw [readers, UInt64.toNat_and, hmask, Nat.and_two_pow_sub_one_eq_mod]

theorem readers_zero : readers 0 = 0 := by decide

theorem hasWriter_zero : hasWriter 0 = false := by decide

theorem readers_of_lt {w : LockWord} (h : w.toNat < 2 ^ 48) : readers w = w := by
  rw [← UInt64.toNat_inj, toNat_readers, Nat.mod_eq_of_lt h]

theorem and_eq_zero_of_lt {w b : LockWord} {k n : Nat} (hb : b.toNat = 2 ^ k) (h : w.toNat < 2 ^ n) (hk : n ≤ k) :
    w &&& b = 0 := by
  rw [← UInt64.toNat_inj, UInt64.toNat_and, hb, Nat.and_two_pow,
    Nat.testBit_lt_two_pow (Nat.lt_of_lt_of_le h (Nat.pow_le_pow_right (by decide) hk))]
  exact Nat.zero_mul _

theorem hasWriter_of_lt {w : LockWord} (h : w.toNat < 2 ^ 48) : hasWriter w = false := by
  rw [hasWriter, and_eq_zero_of_lt (k := 62) rfl h (by decide)]
  rfl

theorem isReserved_of_lt {w : LockWord} (h : w.toNat < 2 ^ 48) : isReserved w = false := by
  rw [isReserved, and_eq_zero_of_lt (k := 63) rfl h (by decide)]
  rfl

theorem Proper.isReserved {w : LockWord} (h : Proper w) : isReserved w = false := by
  rcases h with rfl | h
  · rfl
  · exact isReserved_of_lt h

theorem Proper.addReader_ne_reserved {w : LockWord} (h : Proper w) : addReader w ≠ .reserved := by
  rw [addReader, h.isReserved]
  split_ifs <;> simp_all

theorem Proper.addWriter_ne_reserved {w : LockWord} (h : Proper w) : addWriter w ≠ .reserved := by
  rw [addWriter, h.isReserved]
  split_ifs <;> simp_all

/-- A proper lock word has a writer just if it is the writer's mark. -/
theorem Proper.hasWriter_iff {w : LockWord} (h : Proper w) : hasWriter w = true ↔ w = writeBit := by
  constructor
  · rintro hw
    rcases h with rfl | h
    · rfl
    · rw [hasWriter_of_lt h] at hw
      cases hw
  · rintro rfl
    rfl

/-! ### Attempts -/

theorem toNat_add_one {w : LockWord} (h : w.toNat < 2 ^ 48) : (w + 1).toNat = w.toNat + 1 := by
  rw [UInt64.toNat_add, UInt64.toNat_one]
  omega

theorem toNat_sub_one {w : LockWord} (h : w ≠ 0) : (w - 1).toNat = w.toNat - 1 := by
  have hpos : w.toNat ≠ 0 := fun h0 => h (UInt64.toNat_inj.mp h0)
  rw [UInt64.toNat_sub_of_le]
  · rfl
  · rw [UInt64.le_iff_toNat_le, UInt64.toNat_one]
    omega

theorem addReader_eq_added {w v : LockWord} (h : addReader w = .added v) :
    v = w + 1 ∧ isReserved w = false ∧ hasWriter w = false ∧ readers w < readerMask := by
  unfold addReader at h
  split_ifs at h with h1 h2 h3
  cases h
  exact ⟨rfl, by simpa using h1, by simpa using h2, h3⟩

theorem removeReader?_eq_some {w v : LockWord} (h : removeReader? w = some v) : v = w - 1 ∧ readers w ≠ 0 := by
  unfold removeReader? at h
  split_ifs at h with h1
  cases h
  exact ⟨rfl, h1⟩

theorem addWriter_eq_acquired {w v : LockWord} (h : addWriter w = .acquired v) : v = writeBit ∧ w = 0 := by
  unfold addWriter at h
  split_ifs at h with h1 h2
  cases h
  exact ⟨rfl, h1⟩

theorem removeWriter_of_not_hasWriter {w : LockWord} (h : hasWriter w = false) : removeWriter w = w := by
  have h0 : w &&& writeBit = 0 := by simpa [hasWriter] using h
  apply UInt64.toBitVec_inj.mp
  ext i hi
  have hbit := congrArg (fun v : UInt64 => v.toBitVec[i]) h0
  simp only [UInt64.toBitVec_and, BitVec.getElem_and] at hbit
  simp only [removeWriter, UInt64.toBitVec_and, UInt64.toBitVec_not, BitVec.getElem_and, BitVec.getElem_not]
  cases hw : w.toBitVec[i] with
  | false => rfl
  | true =>
    rw [hw, Bool.true_and] at hbit
    rw [hbit]
    simp

namespace Proper

variable {w : LockWord} (h : Proper w)

include h

/-- One reader more is added to a count that has room for it. -/
theorem lt_of_addReader {v : LockWord} (hv : addReader w = .added v) : w.toNat + 1 < 2 ^ 48 := by
  obtain ⟨-, -, hw, hr⟩ := addReader_eq_added hv
  rcases h with rfl | h
  · exact absurd hw (by decide)
  · have hmask : readerMask.toNat = 2 ^ 48 - 1 := rfl
    rw [UInt64.lt_iff_toNat_lt, readers_of_lt h, hmask] at hr
    omega

theorem add_reader {v : LockWord} (hv : addReader w = .added v) : Proper (w + 1) := by
  have hlt := h.lt_of_addReader hv
  right
  rw [toNat_add_one (by omega)]
  exact hlt

/-- One reader less is taken from a count that is not zero. -/
theorem of_readers_ne_zero (hr : readers w ≠ 0) : w.toNat < 2 ^ 48 ∧ w ≠ 0 := by
  rcases h with rfl | h
  · exact absurd rfl hr
  · exact ⟨h, fun h0 => hr (by rw [h0]; rfl)⟩

theorem drop_reader (hr : readers w ≠ 0) : Proper (w - 1) := by
  obtain ⟨hlt, h0⟩ := h.of_readers_ne_zero hr
  right
  rw [toNat_sub_one h0]
  omega

theorem readers_add_one {v : LockWord} (hv : addReader w = .added v) :
    (readers (w + 1)).toNat = (readers w).toNat + 1 := by
  have hlt := h.lt_of_addReader hv
  have hadd := toNat_add_one (w := w) (by omega)
  rw [readers_of_lt (by omega), readers_of_lt (by omega), hadd]

theorem readers_sub_one (hr : readers w ≠ 0) : (readers (w - 1)).toNat + 1 = (readers w).toNat := by
  obtain ⟨hlt, h0⟩ := h.of_readers_ne_zero hr
  have hsub := toNat_sub_one h0
  have hpos : w.toNat ≠ 0 := fun hz => h0 (UInt64.toNat_inj.mp hz)
  rw [readers_of_lt (by omega), readers_of_lt (by omega), hsub]
  omega

theorem removeWriter (hw : hasWriter w = true) : LockWord.removeWriter w = 0 := by
  rw [h.hasWriter_iff.mp hw]
  rfl

end Proper

end VersionBoard.LockWord
