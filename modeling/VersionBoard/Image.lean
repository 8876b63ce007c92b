import VersionBoard.LittleEndian

/-!
# The contents of a file

A file is so many bytes, kept as words of eight, least byte first; where the
last word reaches past the end, the bytes there are zero. So a file can be read
as bytes and as words, and both are views of one thing (`word_eq`): `byte_write`
says what a write of bytes does, `byte_setWord` and `word_setWord` what a write
of one word does. Reading past the end gives zeros and writing there has no
effect; a file gets longer only by `grow`, which adds zeros.
-/

namespace VersionBoard

open LittleEndian (bytesOf wordOf)

/-- The byte at `i` of a file that is kept as `words`. -/
def byteIn (words : Array UInt64) (i : Nat) : UInt8 :=
  (bytesOf (words.getD (i / 8) 0)).getD (i % 8) 0

/-- The contents of a file. -/
structure Image where
  /-- How many bytes the file has. -/
  size : Nat
  /-- The words that the bytes make up. -/
  words : Array UInt64
  /-- There is a word for every byte, and none too many. -/
  size_words : words.size = (size + 7) / 8
  /-- There is nothing past the end. -/
  rest_zero : ∀ i, size ≤ i → byteIn words i = 0
  deriving DecidableEq

/-- Setting one word leaves every other word. -/
theorem getD_set (words : Array UInt64) (n k : Nat) (v : UInt64) :
    (words.setIfInBounds n v).getD k 0 = if n = k ∧ n < words.size then v else words.getD k 0 := by
  simp only [Array.getD_eq_getD_getElem?, Array.getElem?_setIfInBounds]
  by_cases hk : n = k
  · subst hk
    by_cases hn : n < words.size
    · rw [if_pos rfl, if_pos hn, if_pos ⟨rfl, hn⟩, Option.getD_some]
    · rw [if_pos rfl, if_neg hn, if_neg (fun h => hn h.2), Array.getElem?_eq_none (by omega)]
  · rw [if_neg hk, if_neg (fun h => hk h.1)]

/-- Words of zeros at the end change no word. -/
theorem getD_append_zeros (words : Array UInt64) (n k : Nat) :
    (words ++ Array.replicate n 0).getD k 0 = words.getD k 0 := by
  simp only [Array.getD_eq_getD_getElem?, Array.getElem?_append, Array.getElem?_replicate]
  by_cases hk : k < words.size
  · rw [if_pos hk]
  · rw [if_neg hk, Array.getElem?_eq_none (by omega)]
    split <;> rfl

theorem byteIn_set (words : Array UInt64) (n i : Nat) (v : UInt64) :
    byteIn (words.setIfInBounds n v) i =
      if n = i / 8 ∧ n < words.size then (bytesOf v).getD (i % 8) 0 else byteIn words i := by
  rw [byteIn, getD_set, byteIn]
  split <;> rfl

theorem byteIn_eq_zero {words : Array UInt64} {i : Nat} (h : words.getD (i / 8) 0 = 0) : byteIn words i = 0 := by
  rw [byteIn, h, LittleEndian.bytesOf_zero, List.getD_eq_getElem?_getD, List.getElem?_replicate]
  split <;> rfl

theorem byteIn_append_zeros (words : Array UInt64) (n i : Nat) :
    byteIn (words ++ Array.replicate n 0) i = byteIn words i := by
  rw [byteIn, getD_append_zeros, byteIn]

namespace Image

/-- A file without bytes. -/
def empty : Image := ⟨0, #[], rfl, fun _ _ => byteIn_eq_zero rfl⟩

instance : Inhabited Image := ⟨empty⟩

/-! ### Words and bytes -/

/-- Word number `n`; zero past the end. -/
def word (f : Image) (n : Nat) : UInt64 := f.words.getD n 0

/-- The byte at `i`; zero past the end. -/
def byte (f : Image) (i : Nat) : UInt8 := byteIn f.words i

/-- Word number `n` becomes `v`. A word that does not lie inside the file stays as it is. -/
def setWord (f : Image) (n : Nat) (v : UInt64) : Image :=
  if h : 8 * n + 8 ≤ f.size then
    { size := f.size
      words := f.words.setIfInBounds n v
      size_words := by simp [f.size_words]
      rest_zero := fun i hi => by rw [byteIn_set, if_neg (by omega), f.rest_zero i hi] }
  else f

/-- The byte at `i` becomes `b`; past the end nothing happens. -/
def setByte (f : Image) (i : Nat) (b : UInt8) : Image :=
  if h : i < f.size then
    { size := f.size
      words := f.words.setIfInBounds (i / 8) (wordOf ((bytesOf (f.word (i / 8))).set (i % 8) b))
      size_words := by simp [f.size_words]
      rest_zero := fun j hj => by
        rw [byteIn_set]
        split
        · next hij =>
          have h0 := f.rest_zero j hj
          have hne : i % 8 ≠ j % 8 := by omega
          rw [byteIn, ← hij.1] at h0
          rw [LittleEndian.bytesOf_wordOf (by simp), List.getD_eq_getElem?_getD, List.getElem?_set_ne hne,
            ← List.getD_eq_getElem?_getD]
          exact h0
        · exact f.rest_zero j hj }
  else f

/-! ### Ranges of bytes -/

/-- The `n` bytes from `o` on. -/
def read (f : Image) (o n : Nat) : List UInt8 := (List.range' o n).map f.byte

/-- The bytes from `o` on become `bs`. -/
def write (f : Image) (o : Nat) : List UInt8 → Image
  | [] => f
  | b :: bs => (f.setByte o b).write (o + 1) bs

/-! ### Length -/

/-- The file made at least `n` bytes long, with zeros at its end. -/
def grow (f : Image) (n : Nat) : Image where
  size := max f.size n
  words := f.words ++ Array.replicate ((max f.size n + 7) / 8 - f.words.size) 0
  size_words := by
    have := f.size_words
    rw [Array.size_append, Array.size_replicate]
    omega
  rest_zero i hi := by rw [byteIn_append_zeros, f.rest_zero i (by omega)]

/-- A file that holds `bs`. -/
def ofList (bs : List UInt8) : Image := (empty.grow bs.length).write 0 bs

/-- All bytes, in order. -/
def toList (f : Image) : List UInt8 := f.read 0 f.size

/-- The bytes from `o` on become `bs`, and the file gets as long as that takes. -/
def overwrite (f : Image) (o : Nat) (bs : List UInt8) : Image := (f.grow (o + bs.length)).write o bs

/-- The words that are not zero, each with the offset of its first byte. -/
def nonzeroWords (f : Image) : List (Nat × UInt64) :=
  (List.range f.words.size).filterMap fun n => if f.word n = 0 then none else some (8 * n, f.word n)

/-! ### What one operation does to the other view -/

theorem byte_eq (f : Image) (i : Nat) : f.byte i = (bytesOf (f.word (i / 8))).getD (i % 8) 0 := rfl

theorem byte_of_size_le (f : Image) {i : Nat} (h : f.size ≤ i) : f.byte i = 0 := f.rest_zero i h

@[simp] theorem size_setWord (f : Image) (n : Nat) (v : UInt64) : (f.setWord n v).size = f.size := by
  unfold setWord
  split <;> rfl

@[simp] theorem size_setByte (f : Image) (i : Nat) (b : UInt8) : (f.setByte i b).size = f.size := by
  unfold setByte
  split <;> rfl

@[simp] theorem size_write (f : Image) (o : Nat) (bs : List UInt8) : (f.write o bs).size = f.size := by
  induction bs generalizing f o with
  | nil => rfl
  | cons b bs ih => simp [write, ih]

@[simp] theorem size_grow (f : Image) (n : Nat) : (f.grow n).size = max f.size n := rfl

/-- A word inside the file becomes what was written, every other word stays. -/
theorem word_setWord (f : Image) (n k : Nat) (v : UInt64) :
    (f.setWord n v).word k = if n = k ∧ 8 * n + 8 ≤ f.size then v else f.word k := by
  have := f.size_words
  unfold setWord
  split
  · next h =>
    rw [word, getD_set, word]
    by_cases hk : n = k
    · rw [if_pos ⟨hk, by omega⟩, if_pos ⟨hk, h⟩]
    · rw [if_neg (fun hn => hk hn.1), if_neg (fun hn => hk hn.1)]
  · next h => rw [if_neg (fun hn => h hn.2)]

theorem byte_setWord (f : Image) (n i : Nat) (v : UInt64) :
    (f.setWord n v).byte i =
      if n = i / 8 ∧ 8 * n + 8 ≤ f.size then (bytesOf v).getD (i % 8) 0 else f.byte i := by
  rw [byte_eq, word_setWord, byte_eq]
  split <;> rfl

theorem byte_setByte (f : Image) (i j : Nat) (b : UInt8) :
    (f.setByte i b).byte j = if i = j ∧ i < f.size then b else f.byte j := by
  have := f.size_words
  unfold setByte
  split
  · next h =>
    simp only [byte, byteIn_set]
    split
    · next hij =>
      rw [LittleEndian.bytesOf_wordOf (by simp), List.getD_eq_getElem?_getD, List.getElem?_set]
      by_cases hm : i % 8 = j % 8
      · have hij' : i = j := by omega
        subst hij'
        simp [h, show i % 8 < 8 by omega]
      · rw [if_neg hm, if_neg (by omega), ← List.getD_eq_getElem?_getD, byteIn, word, hij.1]
    · next hij => rw [if_neg (by omega)]
  · next h => rw [if_neg (by omega)]

/-- A byte inside the written range is the written one, every other byte stays. -/
theorem byte_write (f : Image) (o i : Nat) (bs : List UInt8) :
    (f.write o bs).byte i =
      if o ≤ i ∧ i < o + bs.length ∧ i < f.size then bs.getD (i - o) 0 else f.byte i := by
  induction bs generalizing f o with
  | nil => rw [write, List.length_nil, if_neg (by omega)]
  | cons b bs ih =>
    rw [write, ih, byte_setByte, size_setByte, List.length_cons]
    rcases Nat.lt_trichotomy i o with hi | rfl | hi
    · rw [if_neg (by omega), if_neg (by omega), if_neg (by omega)]
    · by_cases hs : i < f.size
      · rw [if_neg (by omega), if_pos ⟨rfl, hs⟩, if_pos (by omega), Nat.sub_self, List.getD_cons_zero]
      · rw [if_neg (by omega), if_neg (by omega), if_neg (by omega)]
    · rw [show i - o = (i - (o + 1)) + 1 by omega, List.getD_cons_succ]
      by_cases hs : i < o + 1 + bs.length ∧ i < f.size
      · rw [if_pos (by omega), if_pos (by omega)]
      · rw [if_neg (by omega), if_neg (by omega), if_neg (by omega)]

theorem word_grow (f : Image) (n k : Nat) : (f.grow n).word k = f.word k :=
  getD_append_zeros ..

theorem byte_grow (f : Image) (n i : Nat) : (f.grow n).byte i = f.byte i := by
  rw [byte_eq, word_grow, byte_eq]

/-! ### What is read after a write -/

@[simp] theorem length_read (f : Image) (o n : Nat) : (f.read o n).length = n := by simp [read]

theorem read_congr {f g : Image} {o n : Nat} (h : ∀ i, o ≤ i → i < o + n → g.byte i = f.byte i) :
    g.read o n = f.read o n := by
  apply List.map_congr_left
  intro i hi
  rw [List.mem_range'_1] at hi
  exact h i hi.1 hi.2

/-- What was written inside the file is read back. -/
theorem read_write (f : Image) (o : Nat) (bs : List UInt8) (h : o + bs.length ≤ f.size) :
    (f.write o bs).read o bs.length = bs := by
  apply List.ext_getElem
  · simp
  · intro i h1 h2
    simp only [read, List.getElem_map, List.getElem_range', byte_write]
    rw [if_pos (by omega), show o + 1 * i - o = i by omega, List.getD_eq_getElem?_getD, List.getElem?_eq_getElem h2,
      Option.getD_some]

/-- A write elsewhere is not seen. -/
theorem read_write_of_disjoint (f : Image) (o p n : Nat) (bs : List UInt8)
    (h : p + n ≤ o ∨ o + bs.length ≤ p) : (f.write o bs).read p n = f.read p n := by
  apply read_congr
  intro i h1 h2
  rw [byte_write, if_neg (by omega)]

/-- A word is the eight bytes that it covers. -/
theorem word_eq (f : Image) (n : Nat) : f.word n = wordOf (f.read (8 * n) 8) := by
  rw [← LittleEndian.wordOf_bytesOf (f.word n)]
  congr 1
  apply List.ext_getElem
  · simp
  · intro i h1 h2
    simp only [LittleEndian.length_bytesOf] at h1
    simp only [read, List.getElem_map, List.getElem_range', Nat.one_mul, byte_eq,
      show (8 * n + i) / 8 = n by omega, show (8 * n + i) % 8 = i by omega]
    simp [List.getD_eq_getElem?_getD, h1]

theorem word_write_of_disjoint (f : Image) (o n : Nat) (bs : List UInt8)
    (h : 8 * n + 8 ≤ o ∨ o + bs.length ≤ 8 * n) : (f.write o bs).word n = f.word n := by
  rw [word_eq, read_write_of_disjoint _ _ _ _ _ h, ← word_eq]

/-- Two files are the same if they are as long and hold the same bytes. -/
theorem ext_byte {f g : Image} (hs : f.size = g.size) (hb : ∀ i, i < f.size → f.byte i = g.byte i) : f = g := by
  have hall : ∀ i, f.byte i = g.byte i := fun i => by
    by_cases hi : i < f.size
    · exact hb i hi
    · rw [f.byte_of_size_le (by omega), g.byte_of_size_le (by omega)]
  have hw : ∀ n, f.word n = g.word n := fun n => by
    rw [word_eq, word_eq, read_congr fun i _ _ => hall i]
  have hwords : f.words = g.words := by
    apply Array.ext
    · rw [f.size_words, g.size_words, hs]
    · intro n h1 h2
      have := hw n
      simpa [word, Array.getD_eq_getD_getElem?, h1, h2] using this
  obtain ⟨s, w, _, _⟩ := f
  obtain ⟨s', w', _, _⟩ := g
  subst hs hwords
  rfl

end Image

end VersionBoard
