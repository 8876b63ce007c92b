/-!
# Little-endian numbers

How a number is laid out in bytes, least byte first. Bytes are lost in neither
direction: `ofNat_toNat` gives any bytes back, `toNat_ofNat` any number that
fits, and so for a word and its eight bytes the two directions are inverse
(`wordOf_bytesOf`, `bytesOf_wordOf`).
-/

namespace VersionBoard.LittleEndian

/-- The number that `bs` spells. -/
def toNat : List UInt8 → Nat
  | [] => 0
  | b :: bs => b.toNat + 256 * toNat bs

/-- The `n` lowest bytes of `v`. -/
def ofNat : (n v : Nat) → List UInt8
  | 0, _ => []
  | n + 1, v => UInt8.ofNat v :: ofNat n (v / 256)

@[simp] theorem length_ofNat (n v : Nat) : (ofNat n v).length = n := by
  induction n generalizing v with
  | zero => rfl
  | succ n ih => simp [ofNat, ih]

theorem ofNat_toNat (bs : List UInt8) : ofNat bs.length (toNat bs) = bs := by
  induction bs with
  | nil => rfl
  | cons b bs ih =>
    have hb := b.toNat_lt
    have hd : (b.toNat + 256 * toNat bs) / 256 = toNat bs := by omega
    have hm : UInt8.ofNat (b.toNat + 256 * toNat bs) = b := by
      apply UInt8.toNat_inj.mp
      rw [UInt8.toNat_ofNat']
      omega
    simp [toNat, ofNat, hd, hm, ih]

/-- How many numbers there are of `n` bytes. -/
def span : (n : Nat) → Nat
  | 0 => 1
  | n + 1 => 256 * span n

theorem toNat_lt_span (bs : List UInt8) : toNat bs < span bs.length := by
  induction bs with
  | nil => exact Nat.one_pos
  | cons b bs ih =>
    have hb := b.toNat_lt
    simp only [toNat, List.length_cons, span]
    omega

theorem toNat_ofNat (n : Nat) {v : Nat} (h : v < span n) : toNat (ofNat n v) = v := by
  induction n generalizing v with
  | zero =>
    have hv : v = 0 := by simpa [span] using h
    rw [hv, ofNat, toNat]
  | succ n ih =>
    rw [span] at h
    rw [ofNat, toNat, ih (by omega), UInt8.toNat_ofNat']
    omega

/-! ### Words -/

/-- The eight bytes of a word. -/
def bytesOf (w : UInt64) : List UInt8 := ofNat 8 w.toNat

/-- The word that eight bytes spell. -/
def wordOf (bs : List UInt8) : UInt64 := .ofNat (toNat bs)

@[simp] theorem length_bytesOf (w : UInt64) : (bytesOf w).length = 8 := length_ofNat ..

@[simp] theorem wordOf_bytesOf (w : UInt64) : wordOf (bytesOf w) = w := by
  have hw : w.toNat < UInt64.size := w.toNat_lt_size
  rw [wordOf, bytesOf, toNat_ofNat 8 hw, UInt64.ofNat_toNat]

theorem bytesOf_wordOf {bs : List UInt8} (h : bs.length = 8) : bytesOf (wordOf bs) = bs := by
  have hlt : toNat bs < UInt64.size := by
    have := toNat_lt_span bs
    rwa [h] at this
  rw [bytesOf, wordOf, UInt64.toNat_ofNat_of_lt' hlt, ← h, ofNat_toNat]

theorem bytesOf_zero : bytesOf 0 = List.replicate 8 0 := rfl

end VersionBoard.LittleEndian
