import VersionBoard.Proofs.Allowed
import VersionBoard.Proofs.Halting

/-!
# Calls that need not wait

A call waits for a lock word of an entry that someone else is still about to
change. Between whole calls there is no such entry, unless a slot has been
abandoned, and then the plan of every call ends (`BoardCall.ends_plan`).
-/

namespace VersionBoard

/-! ### Plans that end -/

variable {α : Type}

/-- Whoever halts so does not wait. -/
def Halt.IsFinal (x : Halt) : Prop := ∀ u, x ≠ .waits u

theorem Halt.isFinal_failed (e : Error) : (failed e).IsFinal := fun _ hx => nomatch hx

theorem Halt.isFinal_violated (x : Violation) : (violated x).IsFinal := fun _ hx => nomatch hx

theorem Plan.ends_ok (a : α) (es : List Edit) : Plan.Ends (.ok a, es) := fun _ hw => nomatch hw

theorem Plan.HaltsOnly.ends {plan : Plan α} (h : plan.HaltsOnly Halt.IsFinal) : plan.Ends := fun u hu => h _ hu u rfl

namespace Words

variable {w : Words}

section Idle

variable (h : w.Coherent) (hidle : ∀ i e, w (.key i e) = 0 → w (.lock i e) = 0)

include hidle

theorem free?_eq_none_iff {i : Nat} : w.free? i = none ↔ w.Full i := by
  simp only [free?, List.find?_eq_none, entryIndices, List.mem_finRange, true_implies, decide_eq_true_eq, Full]
  exact forall_congr' fun e => ⟨fun hn hk => hn ⟨hk, hidle i e hk⟩, fun hk hn => hk hn.1⟩

/-- A slot with a free entry makes nobody wait for one. -/
theorem isFinal_of_not_full {i : Nat} (hf : w.free? i = none) (hfull : ¬ w.Full i) : (Halt.waits (.freeEntry i)).IsFinal :=
  absurd ((free?_eq_none_iff hidle).mp hf) hfull

theorem ends_register (i : Nat) (p : Partition) (txn : Txn) : (w.register i p txn).Ends :=
  (w.halts_register i p (fun _ => Halt.isFinal_violated _) (fun _ _ _ => Halt.isFinal_failed _)
    fun _ => isFinal_of_not_full hidle).ends

theorem ends_findOrRegister (v : Nat) (p : Partition) (txn : Txn) : (w.findOrRegister v p txn).Ends :=
  (w.halts_findOrRegister v p (fun _ => Halt.isFinal_violated _) (fun _ _ _ => Halt.isFinal_failed _)
    fun _ => isFinal_of_not_full hidle).ends

include h

theorem proper_lock (i : Nat) (e : EntryIndex) : LockWord.Proper (w (.lock i e)) := by
  by_cases hk : w (.key i e) = 0
  · rw [hidle i e hk]
    exact LockWord.proper_zero
  · exact h.proper i e hk

/-- All entries of the next slot are free. -/
theorem free?_next_ne_none : w.free? (w.next w.used) ≠ none := by
  intro hf
  exact (free?_eq_none_iff hidle).mp hf ⟨0, by decide⟩ (h.key_eq_zero h.not_live_next _)

theorem ends_track (p : Partition) (txn : Txn) : (w.track w.used p txn).Ends :=
  (w.halts_track w.used p (fun _ => Halt.isFinal_violated _) fun hf => absurd hf (free?_next_ne_none h hidle)).ends

end Idle

theorem ends_untrack (w : Words) (v : Nat) (p : Partition) (txn : Txn) : (w.untrack v p txn).Ends :=
  (w.halts_untrack v p fun _ => Halt.isFinal_violated _).ends

end Words

section Calls

variable {w : Words} (h : w.Coherent) (hidle : ∀ i e, w (.key i e) = 0 → w (.lock i e) = 0)

include h hidle

theorem BoardCall.MayHalt.isFinal {c : BoardCall} {x : Halt} (hx : c.MayHalt w x) : x.IsFinal := by
  cases hx with
  | misuse => exact Halt.isFinal_violated _
  | noRoom => exact Halt.isFinal_violated _
  | full => exact Halt.isFinal_failed _
  | pending hfree hi =>
    rcases hi with hi | rfl
    · exact Words.isFinal_of_not_full hidle hfree hi
    · exact absurd hfree (Words.free?_next_ne_none h hidle)
  | @reserved i e hr => exact absurd ((Words.proper_lock h hidle i e).isReserved.symm.trans hr) Bool.false_ne_true

theorem TableCall.ends_plan (v : Nat) (c : TableCall) : (c.plan w v).Ends :=
  ((c.halts_plan w v).mono fun _ hx => hx.isFinal h hidle).ends

/-- Between whole calls nothing is pending, so no call has anything to wait for. -/
theorem BoardCall.ends_plan (c : BoardCall) : (c.plan w).Ends :=
  ((c.halts_plan w).mono fun _ hx => hx.isFinal h hidle).ends

end Calls

end VersionBoard
