import VersionBoard.Proofs.Holding

/-!
# What calls do to locks

Every call leaves all lock words alone, or moves one lock of one version by one:
up if it is an acquisition that was granted, down if it is a release that was
taken (`BoardCall.agrees`).
-/

namespace VersionBoard

namespace Edit

/-- The lock that an edit moves, and by how much. -/
def moves : Edit → Option (LockMode × Int)
  | addReader .. => some (.read, 1)
  | dropReader .. => some (.read, -1)
  | addWriter .. => some (.write, 1)
  | dropWriter .. => some (.write, -1)
  | _ => none

end Edit

theorem LockMode.moves_gain (mode : LockMode) (i : Nat) (e : EntryIndex) : (mode.gain i e).moves = some (mode, 1) := by
  cases mode <;> rfl

theorem LockMode.moves_lose (mode : LockMode) (i : Nat) (e : EntryIndex) : (mode.lose i e).moves = some (mode, -1) := by
  cases mode <;> rfl

namespace Words

variable {w : Words} {ed : Edit} {i : Nat} {e : EntryIndex} {mode : LockMode} {d : Int}

/-- An edit that moves a lock moves no other lock of the entry. -/
theorem held_edit (h : w.Coherent) (ha : ed.Allowed w) (hm : ed.moves = some (mode, d)) (hed : ed.locked = some (i, e))
    (m : LockMode) : (LockWord.held m (w.edit ed (.lock i e)) : Int) =
      LockWord.held m (w (.lock i e)) + if m = mode then d else 0 := by
  cases ed with
  | addReader j c =>
    obtain ⟨rfl, rfl⟩ : j = i ∧ c = e := by simpa [Edit.locked] using hed
    obtain ⟨rfl, rfl⟩ : LockMode.read = mode ∧ 1 = d := by simpa [Edit.moves] using hm
    obtain ⟨hk, u, hu⟩ := ha
    have hproper := h.proper j c hk
    rw [lock_edit_addReader]
    cases m with
    | read =>
      have hadd := hproper.readers_add_one hu
      simp only [LockWord.held, if_true]
      omega
    | write =>
      have hlt := hproper.lt_of_addReader hu
      have hlt' : (w (.lock j c) + 1).toNat < 2 ^ 48 := by rwa [LockWord.toNat_add_one (by omega)]
      simp [LockWord.held, LockWord.hasWriter_of_lt hlt', LockWord.hasWriter_of_lt (Nat.lt_of_succ_lt hlt)]
  | dropReader j c =>
    obtain ⟨rfl, rfl⟩ : j = i ∧ c = e := by simpa [Edit.locked] using hed
    obtain ⟨rfl, rfl⟩ : LockMode.read = mode ∧ -1 = d := by simpa [Edit.moves] using hm
    obtain ⟨hk, hr⟩ := ha
    have hproper := h.proper j c hk
    rw [lock_edit_dropReader]
    cases m with
    | read =>
      have hsub := hproper.readers_sub_one hr
      simp only [LockWord.held, if_true]
      omega
    | write =>
      obtain ⟨hlt, h0⟩ := hproper.of_readers_ne_zero hr
      have hlt' : (w (.lock j c) - 1).toNat < 2 ^ 48 := by
        rw [LockWord.toNat_sub_one h0]
        omega
      simp [LockWord.held, LockWord.hasWriter_of_lt hlt', LockWord.hasWriter_of_lt hlt]
  | addWriter j c =>
    obtain ⟨rfl, rfl⟩ : j = i ∧ c = e := by simpa [Edit.locked] using hed
    obtain ⟨rfl, rfl⟩ : LockMode.write = mode ∧ 1 = d := by simpa [Edit.moves] using hm
    rw [lock_edit_addWriter, ha.2]
    cases m <;> rfl
  | dropWriter j c =>
    obtain ⟨rfl, rfl⟩ : j = i ∧ c = e := by simpa [Edit.locked] using hed
    obtain ⟨rfl, rfl⟩ : LockMode.write = mode ∧ -1 = d := by simpa [Edit.moves] using hm
    obtain ⟨hk, hw⟩ := ha
    have hproper := h.proper j c hk
    rw [lock_edit_dropWriter, hproper.removeWriter hw, hproper.hasWriter_iff.mp hw]
    cases m <;> rfl
  | _ => cases hm

/-- The read locks are counted with the readers. -/
theorem readLocks_edit (hm : ed.moves = some (mode, d)) : ((w.edit ed .readLocks).toNat : Int) =
    ((w .readLocks).toNat + if LockMode.read = mode then d else 0) % 2 ^ 64 := by
  have hlt := (w .readLocks).toNat_lt
  cases ed with
  | addReader j c =>
    obtain ⟨rfl, rfl⟩ : LockMode.read = mode ∧ 1 = d := by simpa [Edit.moves] using hm
    rw [readLocks_edit_addReader, UInt64.toNat_add, UInt64.toNat_one, if_pos rfl]
    omega
  | dropReader j c =>
    obtain ⟨rfl, rfl⟩ : LockMode.read = mode ∧ -1 = d := by simpa [Edit.moves] using hm
    rw [readLocks_edit_dropReader, UInt64.toNat_sub, UInt64.toNat_one, if_pos rfl]
    omega
  | addWriter j c =>
    obtain ⟨rfl, rfl⟩ : LockMode.write = mode ∧ 1 = d := by simpa [Edit.moves] using hm
    have hnew : w.edit (.addWriter j c) .readLocks = w .readLocks := by simp [edit, Edit.writes, set_apply]
    rw [hnew, if_neg (by simp)]
    omega
  | dropWriter j c =>
    obtain ⟨rfl, rfl⟩ : LockMode.write = mode ∧ -1 = d := by simpa [Edit.moves] using hm
    have hnew : w.edit (.dropWriter j c) .readLocks = w .readLocks := by simp [edit, Edit.writes, set_apply]
    rw [hnew, if_neg (by simp)]
    omega
  | _ => cases hm

/-- Only who gets a lock or gives it back changes the count of read locks. -/
theorem readLocks_edit_of_still (hed : ed.locked = none) : w.edit ed .readLocks = w .readLocks := by
  cases ed <;> simp_all [Edit.locked, edit, Edit.writes, set_apply]

theorem readLocks_edits_of_still {es : List Edit} (hes : ∀ ed ∈ es, ed.locked = none) :
    w.edits es .readLocks = w .readLocks :=
  edits_apply fun ed hed _ => readLocks_edit_of_still (hes ed hed)

end Words

/-! ### Plans -/

namespace BoardCall

/-- By how much a call with this answer, if any, changes how many hold a lock of a version. -/
def weight (c : BoardCall) (answer? : Option Answer) (mode : LockMode) (p : Partition) (txn : Txn) : Int :=
  if c = .table (mode.acquire p txn) ∧ answer? = some (.flag true) then 1
  else if c = .table (mode.release p txn) ∧ answer? = some .done then -1
  else 0

variable {c : BoardCall} {answer? : Option Answer} {mode m : LockMode} {p q : Partition} {txn t : Txn}

theorem weight_acquire : weight (.table (mode.acquire p txn)) (some (.flag true)) m q t =
    if m = mode ∧ q = p ∧ t = txn then 1 else 0 := by
  unfold weight
  by_cases h : m = mode ∧ q = p ∧ t = txn
  · obtain ⟨rfl, rfl, rfl⟩ := h
    rw [if_pos ⟨rfl, rfl⟩, if_pos ⟨rfl, rfl, rfl⟩]
  · rw [if_neg h, if_neg, if_neg]
    · exact fun hr => LockMode.acquire_ne_release _ _ _ _ _ _ (table.inj hr.1)
    · exact fun ha => h ((LockMode.acquire_inj (table.inj ha.1)).imp Eq.symm (And.imp Eq.symm Eq.symm))

theorem weight_release : weight (.table (mode.release p txn)) (some .done) m q t =
    if m = mode ∧ q = p ∧ t = txn then -1 else 0 := by
  rw [weight, if_neg fun ha => LockMode.acquire_ne_release _ _ _ _ _ _ (table.inj ha.1).symm]
  by_cases h : m = mode ∧ q = p ∧ t = txn
  · obtain ⟨rfl, rfl, rfl⟩ := h
    rw [if_pos ⟨rfl, rfl⟩, if_pos ⟨rfl, rfl, rfl⟩]
  · rw [if_neg h, if_neg]
    exact fun hr => h ((LockMode.release_inj (table.inj hr.1)).imp Eq.symm (And.imp Eq.symm Eq.symm))

/-- A call changes nothing if no acquisition was granted and no release taken. -/
theorem weight_eq_zero (ha : c = .table (mode.acquire p txn) → answer? ≠ some (.flag true))
    (hr : c = .table (mode.release p txn) → answer? ≠ some .done) : c.weight answer? mode p txn = 0 := by
  rw [weight, if_neg fun h => ha h.1 h.2, if_neg fun h => hr h.1 h.2]

end BoardCall

/-- The last of the edits moves the lock of a version by `d`; the others move no lock. -/
def Words.Moves (w : Words) (es : List Edit) (mode : LockMode) (p : Partition) (txn : Txn) (d : Int) : Prop :=
  ∃ ds ed i e, es = ds ++ [ed] ∧ (∀ d ∈ ds, d.locked = none) ∧ ed.moves = some (mode, d) ∧ ed.locked = some (i, e) ∧
    (w.edits ds).Tracks i p ∧ txn.key? = some (w.edits ds (.key i e))

/-- What a call does to locks and how it counts agree: nothing, or one lock of one version is moved. -/
def BoardCall.Agrees (c : BoardCall) (w : Words) (plan : Plan Answer) : Prop :=
  ((∀ ed ∈ plan.2, ed.locked = none) ∧ ∀ mode p txn, c.weight plan.1.toOption mode p txn = 0) ∨
    ∃ mode p txn d, w.Moves plan.2 mode p txn d ∧
      ∀ m q t, c.weight plan.1.toOption m q t = if m = mode ∧ q = p ∧ t = txn then d else 0

namespace LockMode

theorem acquire_agrees (mode : LockMode) (w : Words) (v : Nat) (p : Partition) (txn : Txn) :
    BoardCall.Agrees (.table (mode.acquire p txn)) w ((mode.acquire p txn).plan w v) := by
  rcases mode.acquire_cases w v p txn with ⟨o, h, ho, -⟩ | ⟨i, e, hr, -, h⟩
  · left
    rw [h]
    refine ⟨fun ed hed => (Words.of_mem_findOrRegister hed).2.2.1, fun m q t => BoardCall.weight_eq_zero ?_ ?_⟩
    · intro _ hflag
      rcases o with x | a
      · cases hflag
      · exact ho (congrArg Except.ok (Option.some.inj hflag))
    · exact fun hc => absurd (BoardCall.table.inj hc) (acquire_ne_release mode m p q txn t)
  · right
    rw [h]
    obtain ⟨-, htracks, hkey, -⟩ := Words.of_findOrRegister hr
    have hstill : ∀ d ∈ (w.findOrRegister v p txn).2, d.locked = none := fun d hd =>
      (Words.of_mem_findOrRegister hd).2.2.1
    refine ⟨mode, p, txn, 1, ?_, fun m q t => BoardCall.weight_acquire⟩
    exact ⟨_, mode.gain i e, i, e, rfl, hstill, moves_gain .., locked_gain .., htracks, hkey⟩

theorem release_agrees (mode : LockMode) (w : Words) (v : Nat) (p : Partition) (txn : Txn) :
    BoardCall.Agrees (.table (mode.release p txn)) w ((mode.release p txn).plan w v) := by
  rcases mode.release_cases w v p txn with ⟨x, h, -⟩ | ⟨i, e, hr, -, h⟩
  · left
    rw [h]
    exact ⟨fun _ hed => (nomatch hed), fun m q t => BoardCall.weight_eq_zero (fun _ => nofun) fun _ => nofun⟩
  · right
    rw [h]
    obtain ⟨-, htracks, hkey⟩ := Words.of_find hr
    refine ⟨mode, p, txn, -1, ?_, fun m q t => BoardCall.weight_release⟩
    exact ⟨[], mode.lose i e, i, e, rfl, nofun, moves_lose .., locked_lose .., htracks, hkey⟩

end LockMode

/-- A call that is neither an acquisition nor a release moves no lock. -/
theorem BoardCall.agrees_of_still {c : BoardCall} {w : Words} {plan : Plan Answer}
    (hes : ∀ ed ∈ plan.2, ed.locked = none) (ha : ∀ mode p txn, c ≠ .table (LockMode.acquire mode p txn))
    (hr : ∀ mode p txn, c ≠ .table (LockMode.release mode p txn)) : c.Agrees w plan :=
  .inl ⟨hes, fun mode p txn => weight_eq_zero (fun h => absurd h (ha mode p txn)) fun h => absurd h (hr mode p txn)⟩

theorem TableCall.agrees (w : Words) (v : Nat) (c : TableCall) : BoardCall.Agrees (.table c) w (c.plan w v) := by
  rcases c.kinds with ⟨mode, p, txn, rfl⟩ | ⟨mode, p, txn, rfl⟩ | hc
  · exact mode.acquire_agrees w v p txn
  · exact mode.release_agrees w v p txn
  · refine BoardCall.agrees_of_still (fun ed hed => ?_) (fun mode p txn h => ?_) (fun mode p txn h => ?_)
    · rw [edits_of_isQuestion hc] at hed
      cases hed
    · rw [BoardCall.table.inj h] at hc
      cases mode <;> cases hc
    · rw [BoardCall.table.inj h] at hc
      cases mode <;> cases hc

/-- Every call about a version that can be tracked counts as it moves locks. -/
theorem BoardCall.agrees (w : Words) {c : BoardCall} (hc : c.Trackable) : c.Agrees w (c.plan w) := by
  cases c with
  | table c => exact c.agrees w w.used
  | add p txn =>
    refine agrees_of_still ?_ nofun nofun
    rcases w.unlocked_or_abandons_add p txn with hall | ⟨e, -, hk, -⟩
    · exact hall
    · exact absurd (hc txn rfl) (Txn.key?_eq_none hk)
  | remove p txn => exact agrees_of_still (fun ed hed => (Words.of_mem_untrack hed).2.1) nofun nofun

end VersionBoard
