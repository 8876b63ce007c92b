import VersionBoard.Proofs.Violations

/-!
# Accesses

Every access to a file is checked: the mapping must be open and hold the word,
the word must be on an 8-byte boundary, a slot must lie inside the mapping. A
handle may have mapped much less than other handles have put to use, so each call
relies on having caught up first. No check fails, whatever hosts refuse and
whatever calls are about (`Shared.run_misuse`): the only violations are what
callers bring about themselves (`BoardCall.Misuse`), and as long as a file can
still get longer, its end is none of them.
-/

namespace VersionBoard

/-! ### Plans and their violations -/

/-- If the plan ends in a violation, then in one of these. -/
def Plan.ViolatesOnly {α : Type} (plan : Plan α) (P : Violation → Prop) : Prop :=
  ∀ x, plan.1 = .error (.violated x) → P x

/-- As long as there can be one slot more for a new partition, a violation is misuse. -/
theorem BoardCall.MayHalt.misuse_of_violated {w : Words} {c : BoardCall} {x : Violation} (h : c.MayHalt w (.violated x))
    (hroom : ∀ p txn, c = .add p txn → sizeFor (w.next w.used + 1) ≤ Region.maxSize) : c.Misuse x := by
  cases h with
  | misuse hx => exact hx
  | noRoom hc hfull => exact absurd (hroom _ _ hc) hfull

theorem TableCall.violatesOnly_plan (w : Words) (v : Nat) (c : TableCall) :
    (c.plan w v).ViolatesOnly (BoardCall.table c).Misuse :=
  fun _ hx => (c.halts_plan w v _ hx).misuse_of_violated (by simp)

theorem Words.violatesOnly_untrack (w : Words) (v : Nat) (p : Partition) (txn : Txn) :
    (w.untrack v p txn).ViolatesOnly (BoardCall.remove p txn).Misuse := by
  intro x hx
  have hhalt := w.halts_untrack v p (P := (BoardCall.remove p txn).MayHalt w) (fun hk => .misuse (.of_key? rfl hk)) _ hx
  exact hhalt.misuse_of_violated (by simp)

/-- As long as there can be one slot more, a call is a violation only by what it asks for. -/
theorem BoardCall.violatesOnly_plan {w : Words} (hroom : sizeFor (w.next w.used + 1) ≤ Region.maxSize) (c : BoardCall) :
    (c.plan w).ViolatesOnly c.Misuse :=
  fun _ hx => (c.halts_plan w _ hx).misuse_of_violated fun _ _ _ => hroom

/-! ### Runs -/

namespace Shared

variable {s : Shared} {rs : List Request}

/-- Whatever requests have come before and however they ended, a request that is a violation is a call, and one that
misuses the board: no access was out of bounds, off its boundary or after a close. -/
theorem run_misuse [Processor] (hs : s.Fresh) (hends : ∀ reply, some reply ∈ (s.run rs).1 → reply.Unstuck)
    (hsize : ∀ f, (s.run rs).2.file? = some f → f.size < 2 ^ 63) {r : Request} {reply : Reply Answer}
    (hreply : ((s.run rs).2.step r).1 = some reply) {x : Violation} (hx : reply.outcome = .error (.violated x)) :
    ∃ name c, r = .call name c ∧ c.Misuse x := by
  rcases run_fresh_or_opened hs hends with hfresh | ⟨f, hopened⟩
  · exact absurd hx ((hfresh.settled hreply).ne_violated x)
  · obtain ⟨name, c, g, h, h', calls, hr, -, hdoes, -⟩ := hopened.step_violated hreply hx
    refine ⟨name, c, hr, ?_⟩
    have hroom := hopened.coherent.sizeFor_next_le (hsize _ hopened.file)
    generalize ho : Except.error (Halt.violated x) = o at hdoes
    cases hdoes with
    | refused => cases ho
    | planned => exact c.violatesOnly_plan hroom x ho.symm

/-- A handle that has mapped the header only, when another one has put three slots to use and the file is longer for
them, is asked to give back what nobody has. -/
theorem run_misuse_of_lagging_handle :
    let rs := [.openBoard "a" "board" .willing (Config.default.withPolicy .day),
      .openBoard "b" "board" .willing (Config.default.withPolicy .day), .call "a" (.add ⟨1⟩ ⟨7⟩),
      .call "a" (.add ⟨2⟩ ⟨7⟩), .call "a" (.add ⟨3⟩ ⟨7⟩)]
    let release : Request := .call "b" (.table (.releaseRead ⟨3⟩ ⟨7⟩))
    ((run {} rs).2.handles.get? "b").map (·.region.mapping.size) = some 64 ∧
      (run {} rs).2.file?.map (·.size) = some 1664 ∧
      ((run {} rs).2.step release).1.map (·.outcome) = some (.error (.violated (.unmatchedRelease ⟨3⟩ ⟨7⟩))) ∧
      BoardCall.Misuse (.table (.releaseRead ⟨3⟩ ⟨7⟩)) (.unmatchedRelease ⟨3⟩ ⟨7⟩) := by
  intro rs release
  -- the run is evaluated once for all that is to be seen of its end
  obtain ⟨hmapped, hsize, houtcome, hfile⟩ : ((run {} rs).2.handles.get? "b").map (·.region.mapping.size) = some 64 ∧
      (run {} rs).2.file?.map (·.size) = some 1664 ∧
      ((run {} rs).2.step release).1.map (·.outcome) = some (.error (.violated (.unmatchedRelease ⟨3⟩ ⟨7⟩))) ∧
      ∀ f ∈ (run {} rs).2.file?, f.size < 2 ^ 63 := by decide +kernel
  obtain ⟨reply, hreply, hx⟩ := Option.map_eq_some_iff.mp houtcome
  obtain ⟨name, c, hr, hmisuse⟩ := run_misuse fresh_empty (run_unstuck fresh_empty (by decide)) hfile hreply hx
  obtain ⟨rfl, rfl⟩ : "b" = name ∧ BoardCall.table (.releaseRead ⟨3⟩ ⟨7⟩) = c := Request.call.inj hr
  exact ⟨hmapped, hsize, houtcome, hmisuse⟩

end Shared

end VersionBoard
