import VersionBoard.Image
import VersionBoard.Layout
import Mathlib.Logic.Function.Basic

/-!
# The words of a file

All that a board says, it says in words, and every word has a name. `Image.cells`
is what the words of a file say, as a function of their names, and `setCells`
writes some of them: on the words it is a change of that function (`cells_setCells`),
and on the bytes it changes those words only (`byte_setCells`). So two ways of
writing come to the same file as soon as they come to the same words
(`setCells_congr`), which is how the order of writes, and writes that are undone,
are left out of account.
-/

namespace VersionBoard

/-- What the words of a file say. -/
abbrev Words := Cell → UInt64

namespace Words

/-- The word `c` becomes `v`. -/
def set (w : Words) (c : Cell) (v : UInt64) : Words := Function.update w c v

/-- Some words change, one after another. -/
def setAll (w : Words) : List (Cell × UInt64) → Words
  | [] => w
  | (c, v) :: ws => (w.set c v).setAll ws

theorem set_apply (w : Words) (c d : Cell) (v : UInt64) : w.set c v d = if d = c then v else w d :=
  Function.update_apply ..

@[simp] theorem set_self (w : Words) (c : Cell) (v : UInt64) : w.set c v c = v := Function.update_self ..

theorem set_of_ne (w : Words) {c d : Cell} (h : d ≠ c) (v : UInt64) : w.set c v d = w d :=
  Function.update_of_ne h ..

@[simp] theorem setAll_nil (w : Words) : w.setAll [] = w := rfl

@[simp] theorem setAll_cons (w : Words) (c : Cell) (v : UInt64) (ws : List (Cell × UInt64)) :
    w.setAll ((c, v) :: ws) = (w.set c v).setAll ws := rfl

theorem setAll_append (w : Words) (ws vs : List (Cell × UInt64)) :
    w.setAll (ws ++ vs) = (w.setAll ws).setAll vs := by
  induction ws generalizing w with
  | nil => rfl
  | cons x ws ih => exact ih _

/-- A word that is not written stays. -/
theorem setAll_of_notMem (w : Words) {ws : List (Cell × UInt64)} {d : Cell} (h : ∀ x ∈ ws, x.1 ≠ d) :
    w.setAll ws d = w d := by
  induction ws generalizing w with
  | nil => rfl
  | cons x ws ih =>
    rw [setAll, ih _ fun y hy => h y (List.mem_cons_of_mem _ hy)]
    exact set_of_ne w (h x List.mem_cons_self).symm _

/-- A word that is written apart from others may as well be written last. -/
theorem setAll_set_comm (w : Words) {ws : List (Cell × UInt64)} {c : Cell} (h : ∀ x ∈ ws, x.1 ≠ c) (v : UInt64) :
    (w.set c v).setAll ws = (w.setAll ws).set c v := by
  induction ws generalizing w with
  | nil => rfl
  | cons x ws ih =>
    obtain ⟨d, u⟩ := x
    have hd : d ≠ c := h (d, u) List.mem_cons_self
    rw [setAll_cons, setAll_cons, ← ih _ fun y hy => h y (List.mem_cons_of_mem _ hy)]
    congr 1
    exact Function.update_comm hd.symm v u w

end Words

/-! ### Where words lie -/

/-- The word lies in the header or in one of the first `n` slots. -/
def Cell.Within (n : Nat) : Cell → Prop
  | state i => i < n
  | partition i => i < n
  | slotLock i => i < n
  | key i _ => i < n
  | lock i _ => i < n
  | _ => True

theorem Cell.Within.offset_add_le {n : Nat} {c : Cell} (hc : c.Within n) : c.offset + 8 ≤ sizeFor n := by
  cases c with
  | key i e =>
    have he := e.isLt
    simp only [Within, offset, entryStart, sizeFor, slotStart, headerSize, slotSize, entriesStart, entrySize,
      entriesPerSlot] at hc he ⊢
    omega
  | lock i e =>
    have he := e.isLt
    simp only [Within, offset, lockStart, entryStart, sizeFor, slotStart, headerSize, slotSize, entriesStart,
      entrySize, entriesPerSlot] at hc he ⊢
    omega
  | _ =>
    simp only [Within, offset, sizeFor, slotStart, headerSize, slotSize] at hc ⊢
    omega

/-- Slots that fit in `b` bytes lie inside them. -/
theorem sizeFor_le_of_le_slotsIn {n b : Nat} (hb : headerSize ≤ b) (h : n ≤ slotsIn b) : sizeFor n ≤ b := by
  simp only [sizeFor, slotStart, slotsIn, headerSize, slotSize] at *
  omega

theorem le_slotsIn_of_sizeFor_le {n b : Nat} (h : sizeFor n ≤ b) : n ≤ slotsIn b := by
  simp only [sizeFor, slotStart, slotsIn, headerSize, slotSize] at *
  omega

/-- Where a slot lies, there is a header. -/
theorem headerSize_le_of_lt_slotsIn {i b : Nat} (h : i < slotsIn b) : headerSize ≤ b := by
  simp only [slotsIn, headerSize, slotSize] at *
  omega

theorem slotsIn_mono {a b : Nat} (h : a ≤ b) : slotsIn a ≤ slotsIn b :=
  Nat.div_le_div_right (Nat.sub_le_sub_right h _)

theorem headerSize_le_sizeFor (n : Nat) : headerSize ≤ sizeFor n := Nat.le_add_right _ _

theorem sizeFor_mono {a b : Nat} (h : a ≤ b) : sizeFor a ≤ sizeFor b :=
  Nat.add_le_add_left (Nat.mul_le_mul_right _ h) _

/-- Words have the same number only if they have the same name. -/
theorem Cell.offset_div_inj {c d : Cell} (h : c.offset / 8 = d.offset / 8) : c = d := by
  by_contra hne
  have := Cell.offset_disjoint hne
  have := c.offset_mod
  have := d.offset_mod
  omega

/-- No named word is part of the signature. -/
theorem Cell.signatureSize_le_offset (c : Cell) : signatureSize ≤ c.offset := by
  cases c <;> simp only [offset, lockStart, entryStart, slotStart, headerSize, signatureSize, entriesStart] <;> omega

namespace Image

/-- What the words of a file say. -/
def cells (f : Image) : Words := fun c => f.word (c.offset / 8)

/-- The word `c` becomes `v`. -/
def setCell (f : Image) (c : Cell) (v : UInt64) : Image := f.setWord (c.offset / 8) v

/-- Some words change, one after another. -/
def setCells (f : Image) : List (Cell × UInt64) → Image
  | [] => f
  | (c, v) :: ws => (f.setCell c v).setCells ws

@[simp] theorem size_setCell (f : Image) (c : Cell) (v : UInt64) : (f.setCell c v).size = f.size := size_setWord ..

@[simp] theorem size_setCells (f : Image) (ws : List (Cell × UInt64)) : (f.setCells ws).size = f.size := by
  induction ws generalizing f with
  | nil => rfl
  | cons x ws ih => rw [setCells, ih, size_setCell]

theorem setCells_append (f : Image) (ws vs : List (Cell × UInt64)) :
    f.setCells (ws ++ vs) = (f.setCells ws).setCells vs := by
  induction ws generalizing f with
  | nil => rfl
  | cons x ws ih => exact ih _

theorem cells_setCell {f : Image} {c : Cell} (hc : c.offset + 8 ≤ f.size) (v : UInt64) :
    (f.setCell c v).cells = f.cells.set c v := by
  have hmod := c.offset_mod
  funext d
  rw [cells, setCell, word_setWord, Words.set_apply]
  by_cases hd : d = c
  · rw [if_pos ⟨by rw [hd], by omega⟩, if_pos hd]
  · rw [if_neg fun h => hd (Cell.offset_div_inj h.1).symm, if_neg hd]
    rfl

theorem cells_setCells {f : Image} {ws : List (Cell × UInt64)} (h : ∀ x ∈ ws, x.1.offset + 8 ≤ f.size) :
    (f.setCells ws).cells = f.cells.setAll ws := by
  induction ws generalizing f with
  | nil => rfl
  | cons x ws ih =>
    rw [setCells, Words.setAll, ih fun y hy => by rw [size_setCell]; exact h y (List.mem_cons_of_mem _ hy),
      cells_setCell (h x List.mem_cons_self)]

theorem word_setCells_of_ne (f : Image) {ws : List (Cell × UInt64)} {n : Nat} (h : ∀ x ∈ ws, x.1.offset / 8 ≠ n) :
    (f.setCells ws).word n = f.word n := by
  induction ws generalizing f with
  | nil => rfl
  | cons x ws ih =>
    rw [setCells, ih _ fun y hy => h y (List.mem_cons_of_mem _ hy), setCell, word_setWord,
      if_neg fun hn => h x List.mem_cons_self hn.1]

/-- Two files are the same if they are as long and hold the same words. -/
theorem ext_word {f g : Image} (hs : f.size = g.size) (hw : ∀ n, f.word n = g.word n) : f = g :=
  ext_byte hs fun i _ => by rw [byte_eq, byte_eq, hw]

theorem byte_eq_of_cells_eq {f g : Image} (h : f.cells = g.cells) {c : Cell} {b : Nat} (h1 : c.offset ≤ b)
    (h2 : b < c.offset + 8) : f.byte b = g.byte b := by
  have hmod := c.offset_mod
  have hword : f.word (c.offset / 8) = g.word (c.offset / 8) := congrFun h c
  rw [byte_eq, byte_eq, show b / 8 = c.offset / 8 by omega, hword]

/-- Two files are the same if they are as long, say the same in every word and have the same bytes outside of words. -/
theorem ext_cells {f g : Image} (hs : f.size = g.size) (hw : f.cells = g.cells)
    (hrest : ∀ b, (∀ c : Cell, b < c.offset ∨ c.offset + 8 ≤ b) → f.byte b = g.byte b) : f = g := by
  refine ext_byte hs fun b _ => ?_
  by_cases hc : ∃ c : Cell, c.offset ≤ b ∧ b < c.offset + 8
  · obtain ⟨c, h1, h2⟩ := hc
    exact byte_eq_of_cells_eq hw h1 h2
  · refine hrest b fun c => ?_
    by_contra hne
    exact hc ⟨c, by omega⟩

/-- Writes that come to the same words come to the same file. -/
theorem setCells_congr {f : Image} {ws vs : List (Cell × UInt64)} (hws : ∀ x ∈ ws, x.1.offset + 8 ≤ f.size)
    (hvs : ∀ x ∈ vs, x.1.offset + 8 ≤ f.size) (h : f.cells.setAll ws = f.cells.setAll vs) :
    f.setCells ws = f.setCells vs := by
  apply ext_word
  · rw [size_setCells, size_setCells]
  · intro n
    by_cases hn : ∃ c : Cell, c.offset / 8 = n
    · obtain ⟨c, rfl⟩ := hn
      have hc := congrFun ((cells_setCells hws).trans (h.trans (cells_setCells hvs).symm)) c
      exact hc
    · have hne : ∀ c : Cell, c.offset / 8 ≠ n := fun c hc => hn ⟨c, hc⟩
      rw [word_setCells_of_ne f fun x _ => hne x.1, word_setCells_of_ne f fun x _ => hne x.1]

/-- A word that becomes what it was stays as it was. -/
theorem setCell_cells (f : Image) (c : Cell) : f.setCell c (f.cells c) = f := by
  apply ext_word (size_setCell ..)
  intro n
  rw [setCell, word_setWord]
  split
  · next h => rw [← h.1]; rfl
  · rfl

theorem setCell_setCell (f : Image) (c : Cell) (u v : UInt64) : (f.setCell c u).setCell c v = f.setCell c v := by
  apply ext_word (by simp only [size_setCell])
  intro n
  simp only [setCell, word_setWord, size_setWord]
  split <;> rfl

/-- A byte of no written word stays. -/
theorem byte_setCells (f : Image) {ws : List (Cell × UInt64)} {i : Nat}
    (h : ∀ x ∈ ws, i < x.1.offset ∨ x.1.offset + 8 ≤ i) : (f.setCells ws).byte i = f.byte i := by
  rw [byte_eq, byte_eq, word_setCells_of_ne]
  intro x hx
  have := h x hx
  have := x.1.offset_mod
  omega

/-- Writing words leaves the signature. -/
theorem read_signature_setCells (f : Image) (ws : List (Cell × UInt64)) :
    (f.setCells ws).read 0 signatureSize = f.read 0 signatureSize := by
  apply read_congr
  intro i _ hi
  apply byte_setCells
  intro x _
  have := x.1.signatureSize_le_offset
  omega

@[simp] theorem cells_grow (f : Image) (n : Nat) : (f.grow n).cells = f.cells := by
  funext c
  exact word_grow ..

theorem read_grow (f : Image) (n o k : Nat) : (f.grow n).read o k = f.read o k :=
  read_congr fun i _ _ => byte_grow f n i

/-- A word inside the file may as well be written after the file has grown. -/
theorem grow_setCell {f : Image} {c : Cell} (hc : c.offset + 8 ≤ f.size) (v : UInt64) (n : Nat) :
    (f.setCell c v).grow n = (f.grow n).setCell c v := by
  have := c.offset_mod
  apply ext_word (by simp only [size_grow, size_setCell])
  intro k
  rw [word_grow, setCell, setCell, word_setWord, word_setWord, word_grow, size_grow]
  by_cases hk : c.offset / 8 = k
  · rw [if_pos ⟨hk, by omega⟩, if_pos ⟨hk, by omega⟩]
  · rw [if_neg fun h => hk h.1, if_neg fun h => hk h.1]

theorem grow_grow (f : Image) (k n : Nat) : (f.grow k).grow n = f.grow (max k n) := by
  apply ext_byte
  · rw [size_grow, size_grow, size_grow, Nat.max_assoc]
  · intro i _
    rw [byte_grow, byte_grow, byte_grow]

/-- Growing to a length that the file has already changes nothing. -/
theorem grow_of_le {f : Image} {n : Nat} (h : n ≤ f.size) : f.grow n = f :=
  ext_byte (by rw [size_grow]; omega) fun i _ => byte_grow f n i

/-- How far a file was made to grow is how long it is then, or makes no difference. -/
theorem grow_size_grow (f : Image) (n : Nat) : f.grow (f.grow n).size = f.grow n := by
  rw [size_grow, ← grow_grow, grow_of_le (Nat.le_refl f.size)]

end Image

end VersionBoard
