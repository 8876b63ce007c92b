import VersionBoard.Proofs.Growth

/-!
# Words and bytes

A file is reached in two ways: word by word, on 8-byte boundaries only, and in
runs of bytes, which may begin anywhere. Both are views of the same bytes. To
store a word is to write its eight bytes, least byte first
(`Image.setWord_eq_write`), and what was written in either way is what everyone
reads afterwards, in either way, through a mapping of any length that holds it
(`Region.overwrite_exact`). A run may cover a word in part, and a file may end in
the middle of one; only the bytes written are different then.
-/

namespace VersionBoard

open LittleEndian (bytesOf wordOf)

namespace Image

variable {f g : Image} {o : Nat} {bs : List UInt8}

/-- The byte at `i` when the bytes from `o` on have become `bs`. -/
def byteUnder (f : Image) (o : Nat) (bs : List UInt8) (i : Nat) : UInt8 :=
  if o ≤ i ∧ i < o + bs.length then bs.getD (i - o) 0 else f.byte i

/-- In `g` the bytes from `o` on have become `bs`, and all else is as in `f`. -/
structure Overwrites (f : Image) (o : Nat) (bs : List UInt8) (g : Image) : Prop where
  /-- The file is as long as it was. -/
  size : g.size = f.size
  /-- The bytes are there, -/
  written : g.read o bs.length = bs
  /-- and no other byte is different. -/
  rest : ∀ i, i < o ∨ o + bs.length ≤ i → g.byte i = f.byte i

theorem overwrites_write (h : o + bs.length ≤ f.size) : f.Overwrites o bs (f.write o bs) where
  size := size_write ..
  written := read_write f o bs h
  rest i hi := by rw [byte_write, if_neg (by omega)]

/-- To store a word is to write its bytes. -/
theorem setWord_eq_write (ha : o % 8 = 0) (ho : o + 8 ≤ f.size) (v : UInt64) :
    f.setWord (o / 8) v = f.write o (bytesOf v) := by
  apply ext_byte (by rw [size_setWord, size_write])
  intro i _
  rw [byte_setWord, byte_write, LittleEndian.length_bytesOf]
  by_cases hi : o ≤ i ∧ i < o + 8
  · rw [if_pos ⟨by omega, by omega⟩, if_pos ⟨hi.1, hi.2, by omega⟩, show i % 8 = i - o by omega]
  · rw [if_neg (by omega), if_neg (by omega)]

theorem read_getD {n k : Nat} (f : Image) (o : Nat) (hk : k < n) : (f.read o n).getD k 0 = f.byte (o + k) := by
  simp [read, List.getD_eq_getElem?_getD, hk]

namespace Overwrites

theorem byte_eq (h : f.Overwrites o bs g) (i : Nat) : g.byte i = f.byteUnder o bs i := by
  rw [byteUnder]
  split_ifs with hi
  · have hget := g.read_getD o (show i - o < bs.length by omega)
    rw [h.written, show o + (i - o) = i by omega] at hget
    exact hget.symm
  · exact h.rest i (by omega)

theorem read_eq (h : f.Overwrites o bs g) (p k : Nat) : g.read p k = (List.range' p k).map (f.byteUnder o bs) :=
  List.map_congr_left fun i _ => h.byte_eq i

theorem word_eq (h : f.Overwrites o bs g) {p : Nat} (hp : p % 8 = 0) :
    g.word (p / 8) = wordOf ((List.range' p 8).map (f.byteUnder o bs)) := by
  rw [Image.word_eq, show 8 * (p / 8) = p by omega, h.read_eq]

/-- A word that the bytes do not touch stays. -/
theorem word_of_disjoint (h : f.Overwrites o bs g) {k : Nat} (hk : 8 * k + 8 ≤ o ∨ o + bs.length ≤ 8 * k) :
    g.word k = f.word k := by
  rw [Image.word_eq, Image.word_eq, read_congr fun i h1 h2 => h.rest i (by omega)]

end Overwrites

end Image

namespace Mapping

variable {f g : Image}

theorem readBytes_upTo_apply (n p k : Nat) (f : Image) : (upTo n).readBytes p k f =
    (if n < p + k then .error (.violated .byteRange) else .ok (f.read p k), f) := by
  by_cases hp : n < p + k
  · rw [if_pos hp]
    exact congrFun (if_pos hp) f
  · rw [if_neg hp]
    exact congrFun (if_neg hp) f

theorem writeBytes_upTo_apply (n o : Nat) (bs : List UInt8) (f : Image) : (upTo n).writeBytes o bs f =
    if n < o + bs.length then (.error (.violated .byteRange), f) else (.ok (), f.write o bs) := by
  by_cases ho : n < o + bs.length
  · rw [if_pos ho]
    exact congrFun (if_pos ho) f
  · rw [if_neg ho]
    exact congrFun (if_neg ho) f

end Mapping

namespace Region

variable {s t : Scene} {n o : Nat} {bs : List UInt8}

/-- After the bytes from `o` on were made `bs` through one handle of the file. -/
structure Overwrites (s : Scene) (o : Nat) (bs : List UInt8) (t : Scene) : Prop where
  /-- The contents of the file have changed so, -/
  image : s.file.image.Overwrites o bs t.file.image
  /-- and nothing else has. -/
  rest : t = s.withImage t.file.image
  /-- Whoever has a run of bytes mapped reads what is there now, -/
  bytes : ∀ (r : Region) (m p k : Nat), r.mapping = .upTo m → p + k ≤ m →
    onTable (fun x => x.readBytes p k) ⟨t.file, r⟩ =
      (.ok ((List.range' p k).map (s.file.image.byteUnder o bs)), ⟨t.file, r⟩)
  /-- and whoever has a word mapped reads the number that its eight bytes spell. -/
  words : ∀ (r : Region) (m p : Nat), r.mapping = .upTo m → p % 8 = 0 → p + 8 ≤ m →
    onTable (fun x => x.load p) ⟨t.file, r⟩ =
      (.ok (wordOf ((List.range' p 8).map (s.file.image.byteUnder o bs))), ⟨t.file, r⟩)

theorem overwrites_withImage {g : Image} (h : s.file.image.Overwrites o bs g) : Overwrites s o bs (s.withImage g) where
  image := h
  rest := rfl
  bytes r m p k hr hp := by
    refine onTable_of_eq (g := g) (s := ⟨(s.withImage g).file, r⟩) ?_
    rw [hr, Mapping.readBytes_upTo_apply, if_neg (by omega), ← h.read_eq]
    rfl
  words r m p hr ha hp := by
    refine onTable_of_eq (g := g) (s := ⟨(s.withImage g).file, r⟩) ?_
    rw [hr, Mapping.load_upTo ha hp, ← h.word_eq ha]
    rfl

/-- Storing a word that is mapped overwrites its eight bytes. -/
theorem store_overwrites (hm : s.region.mapping = .upTo n) (hn : n ≤ s.file.image.size) (ha : o % 8 = 0) (ho : o + 8 ≤ n)
    (v : UInt64) : ∃ t, onTable (fun x => x.store o v) s = (.ok (), t) ∧ Overwrites s o (bytesOf v) t := by
  have hfit : o + (bytesOf v).length ≤ s.file.image.size := by
    rw [LittleEndian.length_bytesOf]
    omega
  refine ⟨_, onTable_of_eq (g := s.file.image.write o (bytesOf v)) ?_,
    overwrites_withImage (Image.overwrites_write hfit)⟩
  rw [hm, Mapping.store_upTo ha ho, Image.setWord_eq_write ha (by omega)]

/-- Writing bytes that are mapped overwrites them. -/
theorem writeBytes_overwrites (hm : s.region.mapping = .upTo n) (hn : n ≤ s.file.image.size) (ho : o + bs.length ≤ n) :
    ∃ t, onTable (fun x => x.writeBytes o bs) s = (.ok (), t) ∧ Overwrites s o bs t := by
  refine ⟨_, onTable_of_eq (g := s.file.image.write o bs) ?_,
    overwrites_withImage (Image.overwrites_write (Nat.le_trans ho hn))⟩
  rw [hm, Mapping.writeBytes_upTo_apply, if_neg (by omega)]

/-- Writing bytes that are not all mapped changes nothing. -/
theorem writeBytes_beyond (hm : s.region.mapping = .upTo n) (ho : n < o + bs.length) :
    onTable (fun x => x.writeBytes o bs) s = (.error (.violated .byteRange), s) := by
  refine onTable_of_eq (g := s.file.image) ?_
  rw [hm, Mapping.writeBytes_upTo_apply, if_pos ho]

/-- A word that the bytes do not touch is read as before, through any handle. -/
theorem Overwrites.load_eq (h : Overwrites s o bs t) {p : Nat} (hp : p % 8 = 0)
    (ho : p + 8 ≤ o ∨ o + bs.length ≤ p) (r : Region) :
    (onTable (fun x => x.load p) ⟨t.file, r⟩).1 = (onTable (fun x => x.load p) ⟨s.file, r⟩).1 := by
  have hword := h.image.word_of_disjoint (k := p / 8) (by omega)
  exact Mapping.load_congr hword r.mapping

/-- Writing the signature leaves every byte behind it, and every word is read as before through any handle. -/
theorem writeSignature_spares (hm : s.region.mapping = .upTo n) (hn : n ≤ s.file.image.size) (hbs : bs.length = signatureSize)
    (hfit : signatureSize ≤ n) : ∃ t, onTable (fun x => x.writeBytes 0 bs) s = (.ok (), t) ∧
      t.file.image.read 0 signatureSize = bs ∧
      (∀ i, signatureSize ≤ i → t.file.image.byte i = s.file.image.byte i) ∧
      ∀ (r : Region) (c : Cell), (onTable (fun x => x.get c) ⟨t.file, r⟩).1 = (onTable (fun x => x.get c) ⟨s.file, r⟩).1 := by
  obtain ⟨t, hwrite, ht⟩ := writeBytes_overwrites hm hn (show 0 + bs.length ≤ n by omega)
  refine ⟨t, hwrite, ?_, fun i hi => ht.image.rest i (by omega), fun r c => ?_⟩
  · rw [← hbs]
    exact ht.image.written
  · have hc := c.signatureSize_le_offset
    exact ht.load_eq c.offset_mod (.inr (by omega)) r

/-- Storing a word that is mapped overwrites its eight bytes, and writing bytes that are mapped overwrites these, for
everyone; bytes that are not all mapped are not written at all. Behind a signature that is written nothing changes. -/
theorem overwrite_exact (hm : s.region.mapping = .upTo n) (hn : n ≤ s.file.image.size) :
    (∀ o v, o % 8 = 0 → o + 8 ≤ n →
        ∃ t, onTable (fun x => x.store o v) s = (.ok (), t) ∧ Overwrites s o (bytesOf v) t) ∧
      (∀ o bs, o + bs.length ≤ n →
        ∃ t, onTable (fun x => x.writeBytes o bs) s = (.ok (), t) ∧ Overwrites s o bs t) ∧
      (∀ o bs, n < o + bs.length → onTable (fun x => x.writeBytes o bs) s = (.error (.violated .byteRange), s)) ∧
      ∀ bs, bs.length = signatureSize → signatureSize ≤ n →
        ∃ t, onTable (fun x => x.writeBytes 0 bs) s = (.ok (), t) ∧ t.file.image.read 0 signatureSize = bs ∧
          (∀ i, signatureSize ≤ i → t.file.image.byte i = s.file.image.byte i) ∧
          ∀ (r : Region) (c : Cell),
            (onTable (fun x => x.get c) ⟨t.file, r⟩).1 = (onTable (fun x => x.get c) ⟨s.file, r⟩).1 :=
  ⟨fun _ v ha ho => store_overwrites hm hn ha ho v, fun _ _ => writeBytes_overwrites hm hn,
    fun _ _ => writeBytes_beyond hm, fun _ => writeSignature_spares hm hn⟩

/-- In a file that ends in the middle of a word, a word is stored and its last three bytes are overwritten together with
the first two of the next one. Another handle, which has less of the file mapped, reads what has come of it, before and
after the file is signed. -/
theorem overwrite_exact_of_partial_word :
    let s : Scene := ⟨⟨Image.empty.grow 70, false⟩, { path := "board", mapping := .upTo 70, host := .willing }⟩
    let other : Region := { path := "board", mapping := .upTo 64, host := .willing }
    ∃ t u v, onTable (fun x => x.store 24 0x0102030405060708) s = (.ok (), t) ∧
      onTable (fun x => x.writeBytes 29 [0xAA, 0xBB, 0xCC, 0xDD, 0xEE]) t = (.ok (), u) ∧
      onTable (fun x => x.load 24) ⟨u.file, other⟩ = (.ok 0xCCBBAA0405060708, ⟨u.file, other⟩) ∧
      onTable (fun x => x.writeBytes 66 [1, 2, 3, 4, 5]) u = (.error (.violated .byteRange), u) ∧
      onTable (fun x => x.writeBytes 0 Signature.current.toBytes) u = (.ok (), v) ∧
      (onTable (fun x => x.get .usedSlots) ⟨v.file, other⟩).1 = .ok 0xCCBBAA0405060708 := by
  intro s other
  obtain ⟨hstores, -⟩ := overwrite_exact (s := s) (n := 70) rfl (by decide)
  obtain ⟨t, hstore, ht⟩ := hstores 24 0x0102030405060708 (by decide) (by decide)
  have htm : t.region.mapping = .upTo 70 := by rw [ht.rest]; rfl
  have htn : 70 ≤ t.file.image.size := by rw [ht.image.size]; decide
  obtain ⟨-, hwrites, -⟩ := overwrite_exact htm htn
  obtain ⟨u, hwrite, hu⟩ := hwrites 29 [0xAA, 0xBB, 0xCC, 0xDD, 0xEE] (by decide)
  have hum : u.region.mapping = .upTo 70 := by rw [hu.rest]; exact htm
  have hun : 70 ≤ u.file.image.size := by rw [hu.image.size]; exact htn
  obtain ⟨-, -, hbeyond, hsigns⟩ := overwrite_exact hum hun
  obtain ⟨v, hsign, -, -, hspared⟩ := hsigns Signature.current.toBytes rfl (by decide)
  obtain rfl : t = (onTable (fun x => x.store 24 0x0102030405060708) s).2 := (congrArg Prod.snd hstore).symm
  have hload : onTable (fun x => x.load 24) ⟨u.file, other⟩ = (.ok 0xCCBBAA0405060708, ⟨u.file, other⟩) :=
    (hu.words other 64 24 rfl rfl (by decide)).trans (congrArg (Except.ok · , _) (by decide +kernel))
  have hused : (onTable (fun x => x.get .usedSlots) ⟨u.file, other⟩).1 = .ok 0xCCBBAA0405060708 := congrArg Prod.fst hload
  exact ⟨_, u, v, hstore, hwrite, hload, hbeyond 66 _ (by decide), hsign, (hspared other .usedSlots).trans hused⟩

end Region

end VersionBoard
