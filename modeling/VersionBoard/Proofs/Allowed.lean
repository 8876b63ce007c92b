import VersionBoard.Proofs.Coherent
import VersionBoard.Proofs.PlanCases

/-!
# Plans keep to what is allowed

On a coherent table every plan makes allowed edits only (`BoardCall.allows_plan`),
so that the table is coherent again afterwards. Only a plan for a transaction
without a key abandons a slot (`BoardCall.abandons_of_mem_plan`).
-/

namespace VersionBoard

namespace Words

/-- The edits are allowed, each where the ones before it lead to. -/
def Allows (w : Words) : List Edit → Prop
  | [] => True
  | ed :: es => ed.Allowed w ∧ (w.edit ed).Allows es

theorem allows_append {w : Words} {es ds : List Edit} :
    w.Allows (es ++ ds) ↔ w.Allows es ∧ (w.edits es).Allows ds := by
  induction es generalizing w with
  | nil => exact (iff_of_eq (true_and _)).symm
  | cons ed es ih => exact (and_congr_right fun _ => ih).trans and_assoc.symm

theorem allows_concat {w : Words} {es : List Edit} {ed : Edit} :
    w.Allows (es ++ [ed]) ↔ w.Allows es ∧ ed.Allowed (w.edits es) :=
  allows_append.trans (and_congr_right fun _ => iff_of_eq (and_true _))

theorem Coherent.edits {w : Words} (h : w.Coherent) {es : List Edit} (hes : w.Allows es) : (w.edits es).Coherent := by
  induction es generalizing w with
  | nil => exact h
  | cons ed es ih => exact ih (h.edit hes.1) hes.2

end Words

theorem Txn.ne_zero_of_key? {t : Txn} {k : UInt64} (h : t.key? = some k) : k ≠ 0 := by
  rw [Txn.key?] at h
  split_ifs at h with hle
  rw [UInt64.le_iff_toNat_le] at hle
  have hmax : max.number.toNat = 2 ^ 64 - 2 := rfl
  rintro rfl
  have hsum : (t.number + 1).toNat = 0 := by rw [Option.some.inj h]; rfl
  rw [UInt64.toNat_add, UInt64.toNat_one] at hsum
  omega

namespace Words

variable {w : Words}

theorem next_le {v : Nat} (hv : v ≤ w.used) : w.next v ≤ w.used := by
  unfold next
  cases hf : (List.range v).find? fun i => w (.state i) = SlotState.retired with
  | none => exact Nat.le_refl _
  | some i => exact Nat.le_trans (Nat.le_of_lt (List.mem_range.mp (List.mem_of_find?_eq_some hf))) hv

theorem next_le_used (w : Words) : w.next w.used ≤ w.used := next_le (Nat.le_refl _)

theorem Coherent.not_live_next (h : w.Coherent) : ¬ w.Live (w.next w.used) := by
  unfold next
  cases hf : (List.range w.used).find? fun i => w (.state i) = SlotState.retired with
  | none =>
    intro hl
    exact absurd (h.lt_used_of_live hl) (Nat.lt_irrefl _)
  | some i =>
    have hr : w (.state i) = SlotState.retired := by simpa using List.find?_some hf
    intro hl
    rw [Live, Option.getD_some, hr] at hl
    exact absurd hl (by decide)

theorem Coherent.not_tracks (h : w.Coherent) {p : Partition} (hp : w.slot? w.used p = none) (i : Nat) :
    ¬ w.Tracks i p := fun ht => slot?_eq_none_iff.mp hp i (h.lt_used_of_live ht.1) ht

section Plans

variable (h : w.Coherent)

theorem allows_claim {i : Nat} (hi : w.Live i) (p : Partition) {k : UInt64} (hk : k ≠ 0)
    (hnew : ∀ d, w (.key i d) ≠ k) : w.Allows (w.claim i p k).2 := by
  unfold claim
  cases hf : w.free? i with
  | some e =>
    obtain ⟨h1, h2⟩ := of_free? hf
    exact ⟨⟨hi, h1, h2, hk, hnew⟩, trivial⟩
  | none =>
    cases hd : w.idle? i with
    | some e =>
      obtain ⟨h1, h2⟩ := of_idle? hd
      exact ⟨⟨h1, h2, hk, hnew⟩, trivial⟩
    | none => trivial

theorem allows_register (i : Nat) (p : Partition) (txn : Txn) : w.Allows (w.register i p txn).2 := by
  rcases w.register_cases i p txn with hnil | ⟨hp, k, hk, he, heq⟩
  · rw [hnil]
    trivial
  · rw [heq]
    exact allows_claim hp.1 p (Txn.ne_zero_of_key? hk) (entryWith?_eq_none_iff.mp he)

include h in
theorem allows_track (hroom : w.next w.used + 1 < 2 ^ 64) {p : Partition} (hp : w.slot? w.used p = none) (txn : Txn) :
    w.Allows (w.track w.used p txn).2 := by
  have hle := w.next_le_used
  rcases w.track_cases w.used p txn with ⟨-, heq⟩ | ⟨e, hf, ⟨k, hk, heq⟩ | ⟨-, heq⟩⟩ <;> rw [heq]
  · trivial
  · exact ⟨⟨h.not_live_next, hle, hroom, (of_free? hf).2, Txn.ne_zero_of_key? hk, h.not_tracks hp⟩, trivial⟩
  · exact ⟨⟨h.not_live_next, hle, (of_free? hf).2⟩, trivial⟩

theorem allows_untrack (v : Nat) (p : Partition) (txn : Txn) : w.Allows (w.untrack v p txn).2 := by
  rcases w.untrack_cases v p txn with ⟨o, heq, -⟩ | ⟨i, k, e, -, hk, rfl, hlock, heq⟩ <;> rw [heq]
  · trivial
  · have hkey := Txn.ne_zero_of_key? hk
    split_ifs with halone
    · exact ⟨⟨hkey, hlock, halone⟩, trivial⟩
    · exact ⟨⟨hkey, hlock, halone⟩, trivial⟩

theorem allows_findOrRegister (v : Nat) (p : Partition) (txn : Txn) : w.Allows (w.findOrRegister v p txn).2 := by
  rcases w.findOrRegister_cases v p txn with ⟨o, heq, -⟩ | ⟨i, k, hp, hk, he, heq⟩
  · rw [heq]
    trivial
  · rw [heq]
    exact allows_claim (of_slot? hp).2.1 p (Txn.ne_zero_of_key? hk) (entryWith?_eq_none_iff.mp he)

end Plans

end Words

namespace LockMode

variable {w : Words}

theorem allowed_gain {mode : LockMode} {i : Nat} {e : EntryIndex} (hk : w (.key i e) ≠ 0)
    (ha : mode.Admits (w (.lock i e))) : (mode.gain i e).Allowed w := by
  cases mode <;> exact ⟨hk, ha⟩

theorem allowed_lose {mode : LockMode} {i : Nat} {e : EntryIndex} (hk : w (.key i e) ≠ 0)
    (hh : LockWord.held mode (w (.lock i e)) ≠ 0) : (mode.lose i e).Allowed w := by
  cases mode with
  | read => exact ⟨hk, fun h0 => hh (congrArg UInt64.toNat h0)⟩
  | write => exact ⟨hk, by simpa [LockWord.held] using hh⟩

theorem allows_acquire (mode : LockMode) (v : Nat) (p : Partition) (txn : Txn) :
    w.Allows ((mode.acquire p txn).plan w v).2 := by
  have hfind := Words.allows_findOrRegister (w := w) v p txn
  rcases mode.acquire_cases w v p txn with ⟨o, h, -⟩ | ⟨i, e, hr, hadmits, h⟩
  · rwa [h]
  · obtain ⟨-, -, hkey, hlock⟩ := Words.of_findOrRegister hr
    rw [h]
    refine Words.allows_concat.mpr ⟨hfind, allowed_gain (Txn.ne_zero_of_key? hkey) ?_⟩
    rwa [hlock]

theorem allows_release (mode : LockMode) (v : Nat) (p : Partition) (txn : Txn) :
    w.Allows ((mode.release p txn).plan w v).2 := by
  rcases mode.release_cases w v p txn with ⟨x, h, -⟩ | ⟨i, e, hr, hheld, h⟩
  · rw [h]
    trivial
  · obtain ⟨-, -, hkey⟩ := Words.of_find hr
    rw [h]
    exact ⟨allowed_lose (Txn.ne_zero_of_key? hkey) hheld, trivial⟩

end LockMode

theorem TableCall.allows_plan (w : Words) (v : Nat) (c : TableCall) : w.Allows (c.plan w v).2 := by
  rcases c.kinds with ⟨mode, p, txn, rfl⟩ | ⟨mode, p, txn, rfl⟩ | hc
  · exact mode.allows_acquire v p txn
  · exact mode.allows_release v p txn
  · rw [edits_of_isQuestion hc]
    trivial

/-- On a coherent table every call keeps to what is allowed. -/
theorem BoardCall.allows_plan {w : Words} (h : w.Coherent) (c : BoardCall) : w.Allows (c.plan w).2 := by
  cases c with
  | table c => exact c.allows_plan w w.used
  | add p txn =>
    rw [plan]
    rcases w.add_cases p txn with ⟨i, -, heq⟩ | ⟨hp, ⟨hroom, heq⟩ | ⟨-, heq⟩⟩ <;> rw [heq]
    · exact Words.allows_register i p txn
    · refine Words.allows_track h ?_ hp txn
      have : Region.maxSize = 2 ^ 64 - 1 := rfl
      simp only [sizeFor, slotStart, headerSize, slotSize] at hroom
      omega
    · trivial
  | remove p txn => exact Words.allows_untrack w.used p txn

end VersionBoard
