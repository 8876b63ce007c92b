import VersionBoard.Proofs.Seats

/-!
# Slots with pending counts

An attempt to lock a version may still be backing out when the version's entry is
given up. Until it has, its count stands in the lock word of an entry that is
free, or of one that a version has got since. So a table that is looked at while
others work on it may have any keys and any lock words in the entries of a slot.

What comes of registering a version does not depend on how they came about
(`Table.register_exact`): first the key of the version counts, then the lowest
free entry without a pending count, then the lowest registered one, and only if
every lock word says something there is no place or a wait. Nor does a partition
that gets a slot with pending counts come by any of them, or do away with any
(`Table.track_exact`).
-/

namespace VersionBoard

variable {w : Words} {f g : Image} {n i : Nat} {p : Partition} {txn : Txn} {d e : EntryIndex}
  {o : Except Halt Registration} {es : List Edit}

namespace Words

/-- The free entries of slot `i` with no pending count. -/
def clean (w : Words) (i : Nat) : Set EntryIndex := {d | w (.key i d) = 0 ∧ w (.lock i d) = 0}

/-- The registered entries of slot `i` that nobody holds. -/
def spare (w : Words) (i : Nat) : Set EntryIndex := {d | w (.key i d) ≠ 0 ∧ w (.lock i d) = 0}

/-- Slot `i` tracks `p`, and none of its entries is registered for `txn`. -/
def Lacks (w : Words) (i : Nat) (p : Partition) (txn : Txn) : Prop :=
  w.Tracks i p ∧ ∀ d, w (.key i d) ≠ txn.number + 1

theorem Lacks.not_isLeast (h : w.Lacks i p txn) (e : EntryIndex) : ¬ IsLeast {d | w (.key i d) = txn.number + 1} e :=
  fun he => h.2 e he.1

theorem not_isLeast_empty (e : EntryIndex) : ¬ IsLeast ∅ e := fun he => he.1

/-! ### Registering a version -/

/-- How registering version `txn` of `p` in slot `i` ends, and the edits that it makes. -/
inductive Enters (w : Words) (i : Nat) (p : Partition) (txn : Txn) : Except Halt Registration → List Edit → Prop
  | gone (hp : ¬ w.Tracks i p) : w.Enters i p txn (.ok .gone) []
  | known {e : EntryIndex} (hp : w.Tracks i p) (he : IsLeast {d | w (.key i d) = txn.number + 1} e) :
      w.Enters i p txn (.ok (.known e)) []
  | free {e : EntryIndex} (hnew : w.Lacks i p txn) (he : IsLeast (w.clean i) e) :
      w.Enters i p txn (.ok (.fresh e)) [.assign i e (txn.number + 1)]
  | spare {e : EntryIndex} (hnew : w.Lacks i p txn) (hclean : w.clean i = ∅) (he : IsLeast (w.spare i) e) :
      w.Enters i p txn (.ok (.fresh e)) [.evict i e (txn.number + 1)]
  | full (hnew : w.Lacks i p txn) (hclean : w.clean i = ∅) (hspare : w.spare i = ∅) (hfull : w.Full i) :
      w.Enters i p txn (.error (.failed (.versionsExhausted p entriesPerSlot))) []
  | pending (hnew : w.Lacks i p txn) (hclean : w.clean i = ∅) (hspare : w.spare i = ∅) (hfull : ¬ w.Full i) :
      w.Enters i p txn (.error (.waits (.freeEntry i))) []

/-- One of these is what the plan comes to. -/
theorem enters_register (w : Words) (i : Nat) (p : Partition) (htxn : txn.number ≤ Txn.max.number) :
    w.Enters i p txn (w.register i p txn).1 (w.register i p txn).2 := by
  have hk := Txn.key?_of_le htxn
  by_cases hp : w.Tracks i p
  · simp only [register, if_pos hp, withKey, hk]
    cases he : w.entryWith? i (txn.number + 1) with
    | some e => exact .known hp (isLeast_of_find? he)
    | none =>
      have hnew : w.Lacks i p txn := ⟨hp, entryWith?_eq_none_iff.mp he⟩
      dsimp only
      rw [claim]
      cases hf : w.free? i with
      | some e => exact .free hnew (isLeast_of_find? hf)
      | none =>
        have hclean : w.clean i = ∅ := eq_empty_of_find? hf
        cases hs : w.idle? i with
        | some e => exact .spare hnew hclean (isLeast_of_find? hs)
        | none =>
          have hspare : w.spare i = ∅ := eq_empty_of_find? hs
          by_cases hfull : w.Full i
          · dsimp only
            rw [if_pos hfull]
            exact .full hnew hclean hspare hfull
          · dsimp only
            rw [if_neg hfull]
            exact .pending hnew hclean hspare hfull
  · rw [register, if_neg hp]
    exact .gone hp

/-- How registering version `txn` of `p` in slot `i` ends. -/
structure Registers (w : Words) (i : Nat) (p : Partition) (txn : Txn) (o : Except Halt Registration) : Prop where
  /-- The slot is gone just if it does not track the partition. -/
  gone : o = .ok .gone ↔ ¬ w.Tracks i p
  /-- The version is known by the lowest entry with its key. -/
  known : ∀ e, o = .ok (.known e) ↔ w.Tracks i p ∧ IsLeast {d | w (.key i d) = txn.number + 1} e
  /-- Else it gets the lowest free entry with no pending count, and if there is none, the lowest registered one that
  nobody holds. -/
  fresh : ∀ e, o = .ok (.fresh e) ↔
    w.Lacks i p txn ∧ (IsLeast (w.clean i) e ∨ w.clean i = ∅ ∧ IsLeast (w.spare i) e)
  /-- If there is none of either, the entries are exhausted just if none is free. -/
  exhausted : o = .error (.failed (.versionsExhausted p entriesPerSlot)) ↔
    w.Lacks i p txn ∧ w.clean i = ∅ ∧ w.spare i = ∅ ∧ w.Full i
  /-- With a free entry left it waits. -/
  waits : o = .error (.waits (.freeEntry i)) ↔
    w.Lacks i p txn ∧ w.clean i = ∅ ∧ w.spare i = ∅ ∧ ¬ w.Full i
  /-- There is no other end. -/
  ends : (∃ r, o = .ok r) ∨ o = .error (.failed (.versionsExhausted p entriesPerSlot)) ∨
    o = .error (.waits (.freeEntry i))

theorem Enters.registers (h : w.Enters i p txn o es) : w.Registers i p txn o := by
  cases h with
  | gone hp =>
    constructor <;> simp [hp, Lacks]
  | known hp he =>
    have hold : ¬ w.Lacks i p txn := fun hnew => hnew.2 _ he.1
    constructor <;> simp [hp, hold, he.isLeast_iff_eq]
  | free hnew he =>
    constructor <;> simp [hnew, hnew.1, hnew.not_isLeast, he.isLeast_iff_eq, he.nonempty.ne_empty]
  | spare hnew hclean he =>
    constructor <;> simp [hnew, hnew.1, hnew.not_isLeast, hclean, not_isLeast_empty, he.isLeast_iff_eq,
      he.nonempty.ne_empty]
  | full hnew hclean hspare hfull =>
    constructor <;> simp [hnew, hnew.1, hnew.not_isLeast, hclean, hspare, not_isLeast_empty, hfull]
  | pending hnew hclean hspare hfull =>
    constructor <;> simp [hnew, hnew.1, hnew.not_isLeast, hclean, hspare, not_isLeast_empty, hfull]

end Words

/-- What registering version `txn` in slot `i` leaves if it ends with `o`: the file `g` where there was `f`. -/
structure Image.Leaves (f : Image) (i : Nat) (txn : Txn) (o : Except Halt Registration) (g : Image) : Prop where
  /-- A free entry gets the key of the version, and that is all. -/
  free : ∀ e, o = .ok (.fresh e) → f.cells (.key i e) = 0 → g = f.setCell (.key i e) (txn.number + 1)
  /-- For an entry that is registered the stamp moves by one before. -/
  spare : ∀ e, o = .ok (.fresh e) → f.cells (.key i e) ≠ 0 →
    g = (f.setCell .stamp (f.cells .stamp + 1)).setCell (.key i e) (txn.number + 1)
  /-- Nobody holds the version then. -/
  unheld : ∀ e, o = .ok (.fresh e) → g.cells (.lock i e) = 0
  /-- With any other end nothing has changed. -/
  unchanged : (∀ e, o ≠ .ok (.fresh e)) → (∀ x, o ≠ .error (.waits x)) → g = f
  /-- While it waits it has the lock of the slot, and nothing else has changed. -/
  waiting : ∀ x, o = .error (.waits x) → g = f.setCell (.slotLock i) Mapping.taken
  /-- The lock of the slot is free afterwards. -/
  unlocked : (∀ x, o ≠ .error (.waits x)) → g.cells (.slotLock i) = 0
  /-- Every lock word that is not zero stays, and so does the key of its entry. -/
  held : ∀ j d, f.cells (.lock j d) ≠ 0 →
    g.cells (.lock j d) = f.cells (.lock j d) ∧ g.cells (.key j d) = f.cells (.key j d)

namespace Image.Leaves

theorem of_unchanged (hl : f.cells (.slotLock i) = 0) (hne : ∀ e, o ≠ .ok (.fresh e)) (hw : ∀ x, o ≠ .error (.waits x)) :
    f.Leaves i txn o f where
  free e ho := absurd ho (hne e)
  spare e ho := absurd ho (hne e)
  unheld e ho := absurd ho (hne e)
  unchanged _ _ := rfl
  waiting x ho := absurd ho (hw x)
  unlocked _ := hl
  held _ _ _ := ⟨rfl, rfl⟩

/-- An entry that nobody holds is given to the version. -/
theorem of_given (hl : f.cells (.slotLock i) = 0) (hlock : f.cells (.lock i e) = 0)
    (hfree : f.cells (.key i e) = 0 → g = f.setCell (.key i e) (txn.number + 1))
    (hspare : f.cells (.key i e) ≠ 0 → g = (f.setCell .stamp (f.cells .stamp + 1)).setCell (.key i e) (txn.number + 1))
    (hsame : ∀ c : Cell, c ≠ .key i e → c ≠ .stamp → g.cells c = f.cells c) : f.Leaves i txn (.ok (.fresh e)) g where
  free d hd := by cases hd; exact hfree
  spare d hd := by cases hd; exact hspare
  unheld d hd := by cases hd; rw [hsame _ (by simp) (by simp), hlock]
  unchanged hne := absurd rfl (hne e)
  waiting _ hx := nomatch hx
  unlocked _ := by rw [hsame _ (by simp) (by simp), hl]
  held j d hd := by
    refine ⟨hsame _ (by simp) (by simp), hsame _ (fun hkey => hd ?_) (by simp)⟩
    cases hkey
    exact hlock

theorem of_waiting (hf : f.Holds i) (x : Wait) :
    f.Leaves i txn (.error (.waits x)) (f.setCell (.slotLock i) Mapping.taken) where
  free _ ho := nomatch ho
  spare _ ho := nomatch ho
  unheld _ ho := nomatch ho
  unchanged _ hne := absurd rfl (hne x)
  waiting _ _ := rfl
  unlocked hne := absurd rfl (hne x)
  held j d _ := by
    rw [Image.cells_setCell (hf.offset_add_le (c := .slotLock i) (Nat.lt_succ_self i))]
    exact ⟨Words.set_of_ne _ (by simp) _, Words.set_of_ne _ (by simp) _⟩

/-- The edits of a registration that ends. -/
theorem of_enters (hf : f.Holds i) (hl : f.cells (.slotLock i) = 0) (h : f.cells.Enters i p txn o es)
    (hends : ∀ x, o ≠ .error (.waits x)) : f.Leaves i txn o (f.edits es) := by
  have hcells : ∀ ed : Edit, ed.slot = i → (f.edits [ed]).cells = f.cells.edit ed := by
    rintro ed rfl
    exact Image.cells_edit hf
  cases h with
  | gone => exact of_unchanged hl nofun nofun
  | known => exact of_unchanged hl nofun nofun
  | free hnew he =>
    refine of_given hl he.1.2 (fun _ => rfl) (fun hne => absurd he.1.1 hne) fun c hkey _ => ?_
    rw [hcells _ rfl]
    exact Words.set_of_ne _ hkey _
  | spare hnew hclean he =>
    refine of_given hl he.1.2 (fun h0 => absurd h0 he.1.1) (fun _ => rfl) fun c hkey hstamp => ?_
    rw [hcells _ rfl]
    exact (Words.set_of_ne _ hkey _).trans (Words.set_of_ne _ hstamp _)
  | full => exact of_unchanged hl nofun nofun
  | pending => exact absurd rfl (hends _)

end Image.Leaves

namespace Table

open Mapping (upTo)

/-- A version that has to wait for a free entry keeps the lock of its slot. -/
theorem register_of_waits [Processor] (hn : headerSize ≤ n) (hs : n ≤ f.size) (hi : i < slotsIn n)
    (hl : f.cells (.slotLock i) = 0) {x : Wait} (hplan : f.cells.register i p txn = .stop (.waits x)) :
    register (upTo n) i p txn f = (.error (.waits x), f.setCell (.slotLock i) Mapping.taken) := by
  have hin := (holds_of_lt_slotsIn hn hs hi).offset_add_le (c := .slotLock i) (Nat.lt_succ_self i)
  obtain ⟨body, hbody, happly⟩ := register_eq_holdingSlot hn hi p txn
  rw [hbody, holdingSlot_apply hn hi hl]
  apply Act.afterwards_of_waits
  rw [happly _ (by rwa [Image.size_setCell]), Image.cells_setCell hin,
    Words.register_set_guard (Cell.isGuard_slotLock i), hplan]
  rfl

/-- Registering a version ends as the keys and the lock words of its slot say, whatever they are, and then at most
one key has changed, of an entry whose lock word is zero, and the stamp if the entry was registered. -/
theorem register_exact [Processor] (hs : n ≤ f.size) (hi : i < slotsIn n) (hl : f.cells (.slotLock i) = 0)
    (p : Partition) (htxn : txn.number ≤ Txn.max.number) :
    ∃ o g, register (upTo n) i p txn f = (o, g) ∧ f.cells.Registers i p txn o ∧ f.Leaves i txn o g := by
  have hn := headerSize_le_of_lt_slotsIn hi
  have hf := holds_of_lt_slotsIn hn hs hi
  have henters := f.cells.enters_register i p htxn
  have hfollows := register_follows hn hs hi hl p txn
  by_cases hw : ∃ x, (f.cells.register i p txn).1 = .error (.waits x)
  · obtain ⟨x, hx⟩ := hw
    have hplan : f.cells.register i p txn = .stop (.waits x) := by
      rw [hx] at henters
      refine Prod.ext hx ?_
      generalize (f.cells.register i p txn).2 = es at henters
      cases henters
      rfl
    rw [hplan] at henters
    exact ⟨_, _, register_of_waits hn hs hi hl hplan, henters.registers, .of_waiting hf x⟩
  · have hends : (f.cells.register i p txn).Ends := fun x hx => hw ⟨x, hx⟩
    exact ⟨_, _, hfollows.eq_of_ends hends, henters.registers, .of_enters hf hl henters hends⟩

/-- Slot 0 has a reader in entry 2, a version that nobody holds in entry 5, and a pending count in every other entry. A
version that is new to it takes the place of the one in entry 5. -/
theorem register_exact_of_pending_counts :
    let reading : EntryIndex := ⟨2, by decide⟩
    let idle : EntryIndex := ⟨5, by decide⟩
    let counts := (entryIndices.filter (· ≠ idle)).map fun d => (Cell.lock 0 d, (1 : UInt64))
    let f := (Image.empty.grow 320).setCells ([(.state 0, SlotState.live), (.key 0 reading, 7), (.key 0 idle, 9)] ++ counts)
    ∃ g, register (upTo 320) 0 ⟨0⟩ ⟨3⟩ f = (.ok (.fresh idle), g) ∧ f.cells.Registers 0 ⟨0⟩ ⟨3⟩ (.ok (.fresh idle)) ∧
      f.Leaves 0 ⟨3⟩ (.ok (.fresh idle)) g ∧ g.cells .stamp = 1 := by
  intro reading idle counts f
  obtain ⟨o, g, hrun, hends, hleaves⟩ := register_exact (f := f) (n := 320) (i := 0) (by decide) (by decide)
    (by decide +kernel) ⟨0⟩ (show (⟨3⟩ : Txn).number ≤ _ by decide)
  have ho : (register (upTo 320) 0 ⟨0⟩ ⟨3⟩ f).1 = .ok (.fresh idle) := by decide +kernel
  have hstamp : (register (upTo 320) 0 ⟨0⟩ ⟨3⟩ f).2.cells .stamp = 1 := by decide +kernel
  rw [hrun] at ho hstamp
  subst ho
  exact ⟨g, hrun, hends, hleaves, hstamp⟩

end Table

/-! ### Tracking a partition -/

namespace Words

/-- What becomes of the words where slot `i` is given to `p` with version `txn` in entry `e`. -/
structure Founds (w : Words) (p : Partition) (txn : Txn) (i : Nat) (e : EntryIndex) (v : Words) : Prop where
  /-- The version gets the lowest entry with no pending count. -/
  least : IsLeast {d | w (.lock i d) = 0} e
  /-- The slot tracks the partition. -/
  tracks : v.Tracks i p
  /-- No other entry is registered. -/
  key : ∀ d, v (.key i d) = if d = e then txn.number + 1 else 0
  /-- What is pending stays pending. -/
  lock : ∀ d, v (.lock i d) = w (.lock i d)
  /-- One live slot more. -/
  liveSlots : v .liveSlots = w .liveSlots + 1
  /-- The stamp moves by one. -/
  stamp : v .stamp = w .stamp + 1
  /-- One used slot more, if this is the one after all used ones. -/
  used : v.used = if i = w.used then w.used + 1 else w.used
  /-- No other word changes, and none of another slot. -/
  others : ∀ c : Cell, c ∉ [.state i, .partition i, .key i e, .usedSlots, .liveSlots, .stamp] → v c = w c

theorem founds_edit_track (hleast : IsLeast {d | w (.lock i d) = 0} e) (hvacant : ∀ d, w (.key i d) = 0)
    (hi : i + 1 < 2 ^ 64) (p : Partition) (txn : Txn) :
    w.Founds p txn i e (w.edit (.track i e p (txn.number + 1))) where
  least := hleast
  tracks := tracks_edit_track ..
  key d := by
    by_cases hd : d = e
    · rw [if_pos hd, hd, key_edit_of_keyed rfl]
    · rw [if_neg hd, key_edit_of_ne (by simp [Edit.keyed, Ne.symm hd]), hvacant]
  lock d := lock_edit_of_ne (by simp [Edit.locked])
  liveSlots := by simp [edit, Edit.writes, set_apply]
  stamp := by simp [edit, Edit.writes]
  used := by
    have hused : w.edit (.track i e p (txn.number + 1)) .usedSlots =
        if i = w.used then UInt64.ofNat (i + 1) else w .usedSlots := by
      simp [edit, Edit.writes, set_apply]
    rw [used, hused]
    by_cases hlast : i = w.used
    · rw [if_pos hlast, if_pos hlast, UInt64.toNat_ofNat', Nat.mod_eq_of_lt hi, hlast]
    · rw [if_neg hlast, if_neg hlast]
      rfl
  others c hc := setAll_of_notMem _ fun x hx hne => hc (by
    subst hne
    simp only [Edit.writes, List.mem_cons, List.not_mem_nil, or_false] at hx
    rcases hx with rfl | rfl | rfl | rfl | rfl | rfl <;> simp)

namespace Founds

variable {v : Words}

/-- A partition that no slot tracked before is found in its new slot. -/
theorem slot?_eq (h : w.Founds p txn i e v) {k : Nat} (hnone : ∀ j, j < i → ¬ w.Tracks j p) (hi : i < k) :
    v.slot? k p = some i := by
  refine List.find?_range_eq_some.mpr ⟨by simpa using h.tracks, List.mem_range.mpr hi, fun j hj => ?_⟩
  have htracks : v.Tracks j p ↔ w.Tracks j p := by
    rw [Tracks, Tracks, Live, Live, h.others _ (by simp; omega), h.others _ (by simp; omega)]
  simpa [htracks] using hnone j hj

/-- The version is found in its entry. -/
theorem entryWith?_eq (h : w.Founds p txn i e v) (hk : txn.number + 1 ≠ 0) :
    v.entryWith? i (txn.number + 1) = some e := by
  cases he : v.entryWith? i (txn.number + 1) with
  | none => exact absurd (by rw [h.key, if_pos rfl]) (entryWith?_eq_none_iff.mp he e)
  | some d =>
    have hkey := key_of_entryWith? he
    rw [h.key] at hkey
    split_ifs at hkey with hd
    · rw [hd]
    · exact absurd hkey.symm hk

end Founds

end Words

namespace Table

open Mapping (upTo)

/-- What is asked of a version that was just put into its slot. -/
theorem readerCount_of_founds {v : Words} (hn : headerSize ≤ n) (h : v.Founds p txn i e g.cells)
    (hslot : g.cells.slot? (min g.cells.used (slotsIn n)) p = some i) (hlock : v (.lock i e) = 0)
    (htxn : txn.number ≤ Txn.max.number) : readerCount (upTo n) p txn g = (.ok 0, g) := by
  have hk := Txn.key?_of_le htxn
  have hplan : g.cells.find (min g.cells.used (slotsIn n)) p txn = .answer (some (i, e)) := by
    simp only [Words.find, hslot, Words.withKey, hk, h.entryWith?_eq (Txn.ne_zero_of_key? hk), Option.map_some]
  have hcount := (readerCount_follows (f := g) hn p txn).eq_of_ends (by rw [hplan]; exact Plan.ends_ok _ _)
  rw [hplan] at hcount
  rw [hcount]
  show (Except.ok (LockWord.readers (g.cells (.lock i e))), g) = _
  rw [h.lock, hlock, LockWord.readers_zero]

/-- A partition that is tracked in the next slot, which may have pending counts, gets the slot and, for its first
version, the lowest entry with no pending count. The counts stay as they are, as do the bytes that belong to no word, and
the version has no readers. -/
theorem track_exact [Processor] (hs : n ≤ f.size) (hmax : n ≤ Region.maxSize)
    (hnone : slotOf (upTo n) p f = (.ok none, f))
    (hnext : nextSlot (upTo n) f = (.ok i, f)) (hi : i < slotsIn n) (hvacant : ∀ d, f.cells (.key i d) = 0)
    (hl : f.cells (.slotLock i) = 0) (hlocks : ∃ d, f.cells (.lock i d) = 0) (htxn : txn.number ≤ Txn.max.number) :
    ∃ e g, track (upTo n) p txn f = (.ok i, g) ∧ g.size = f.size ∧ f.cells.Founds p txn i e g.cells ∧
      (∀ b, (∀ c : Cell, b < c.offset ∨ c.offset + 8 ≤ b) → g.byte b = f.byte b) ∧
      slotOf (upTo n) p g = (.ok (some i), g) ∧ readerCount (upTo n) p txn g = (.ok 0, g) := by
  have hn := headerSize_le_of_lt_slotsIn hi
  have hroom : i + 1 < 2 ^ 64 := by
    simp only [slotsIn, headerSize, slotSize, Region.maxSize, UInt64.size] at hi hmax
    omega
  have huntracked : f.cells.slot? (min f.cells.used (slotsIn n)) p = none := by
    simpa using (slotOf_apply hn p).symm.trans hnone
  have hindex : f.cells.next (min f.cells.used (slotsIn n)) = i := by
    simpa using (nextSlot_apply hn).symm.trans hnext
  have hused : i ≤ f.cells.used := by
    rw [← hindex]
    exact Words.next_le (Nat.min_le_left ..)
  obtain ⟨e, hfree⟩ : ∃ e, f.cells.free? i = some e := by
    obtain ⟨d, hd⟩ := hlocks
    refine Option.ne_none_iff_exists'.mp fun hnofree => ?_
    exact (eq_empty_of_find? hnofree).subset (show d ∈ f.cells.clean i from ⟨hvacant d, hd⟩)
  obtain ⟨⟨-, hlock⟩, hlow⟩ := isLeast_of_find? hfree
  have hplan : f.cells.track (min f.cells.used (slotsIn n)) p txn =
      (.ok i, [.track i e p (txn.number + 1)]) := by
    simp only [Words.track, hindex, hfree, Txn.key?_of_le htxn]
  have hrun := (track_follows hn hs (by rwa [hindex]) (by rwa [hindex]) p txn).eq_of_ends
    (by rw [hplan]; exact Plan.ends_ok _ _)
  rw [hplan, Image.edits_singleton] at hrun
  have hholds : f.Holds (Edit.track i e p (txn.number + 1)).slot := holds_of_lt_slotsIn hn hs hi
  have hfounds : f.cells.Founds p txn i e (f.edit (.track i e p (txn.number + 1))).cells := by
    rw [Image.cells_edit hholds]
    exact Words.founds_edit_track ⟨hlock, fun d hd => hlow ⟨hvacant d, hd⟩⟩ hvacant hroom p txn
  have hfound : (f.edit (.track i e p (txn.number + 1))).cells.slot?
      (min (f.edit (.track i e p (txn.number + 1))).cells.used (slotsIn n)) p = some i := by
    refine hfounds.slot?_eq (fun j hj => Words.slot?_eq_none_iff.mp huntracked j (by omega)) ?_
    rw [hfounds.used]
    split_ifs <;> omega
  have hkept : ∀ b, (∀ c : Cell, b < c.offset ∨ c.offset + 8 ≤ b) →
      (f.edit (.track i e p (txn.number + 1))).byte b = f.byte b := by
    intro b hb
    rw [← Image.edits_singleton]
    exact Image.byte_edits_of_no_cell f _ hb
  refine ⟨e, _, hrun, Image.size_edit .., hfounds, hkept, ?_, readerCount_of_founds hn hfounds hfound hlock htxn⟩
  rw [slotOf_apply hn, hfound]

/-- Slot 0 is used again, and its entries 0 and 1 have pending counts still. The new version gets entry 2. -/
theorem track_exact_of_pending_counts :
    let f := (Image.empty.grow 576).setCells [(.usedSlots, 2), (.liveSlots, 1), (.state 0, SlotState.retired),
      (.lock 0 ⟨0, by decide⟩, 1), (.lock 0 ⟨1, by decide⟩, 3), (.state 1, SlotState.live), (.partition 1, 9)]
    ∃ e g, track (upTo 576) ⟨7⟩ ⟨4⟩ f = (.ok 0, g) ∧ f.cells.Founds ⟨7⟩ ⟨4⟩ 0 e g.cells ∧
      slotOf (upTo 576) ⟨7⟩ g = (.ok (some 0), g) ∧ readerCount (upTo 576) ⟨7⟩ ⟨4⟩ g = (.ok 0, g) ∧
      g.cells (.key 0 ⟨2, by decide⟩) = 5 ∧ g.cells (.lock 0 ⟨1, by decide⟩) = 3 := by
  intro f
  obtain ⟨e, g, hrun, -, hfounds, -, hslot, hcount⟩ := track_exact (f := f) (n := 576) (i := 0) (p := ⟨7⟩) (by decide)
    (by decide) (by decide +kernel) (by decide +kernel) (by decide) (by decide +kernel) (by decide +kernel)
    (by decide +kernel) (show (⟨4⟩ : Txn).number ≤ _ by decide)
  have hwords : (track (upTo 576) ⟨7⟩ ⟨4⟩ f).2.cells (.key 0 ⟨2, by decide⟩) = 5 ∧
      (track (upTo 576) ⟨7⟩ ⟨4⟩ f).2.cells (.lock 0 ⟨1, by decide⟩) = 3 := by decide +kernel
  rw [hrun] at hwords
  exact ⟨e, g, hrun, hfounds, hslot, hcount, hwords⟩

end Table

end VersionBoard
