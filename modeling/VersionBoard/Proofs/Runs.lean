import VersionBoard.Proofs.Ending
import VersionBoard.Proofs.Steps

/-!
# Runs of requests

What holds after any run of requests on a file that was missing or blank: it
goes from one request to the next (`Shared.run_cases`). As long as every
transaction has a key, no request is ever stuck (`Shared.run_unstuck`), and from
the first successful opening on the file is sound, however calls end
(`Shared.run_sound`).
-/

namespace VersionBoard

/-! ### What was asked and what came of it -/

/-- A request and its reply, if it had one. -/
structure Exchange where
  request : Request
  reply? : Option (Reply Answer)

namespace Exchange

/-- The answer, if the request got one. -/
def answer? (x : Exchange) : Option Answer := x.reply?.bind (·.outcome.toOption)

/-- A board was opened. -/
def Opens (x : Exchange) : Prop := x.request.isOpening = true ∧ x.answer?.isSome = true

instance (x : Exchange) : Decidable x.Opens := inferInstanceAs (Decidable (_ ∧ _))

/-- It was a call only if it got no answer. -/
def Fruitless (x : Exchange) : Prop := x.request.call? = none ∨ x.answer? = none

theorem answer?_eq_none {r : Request} {reply? : Option (Reply Answer)}
    (h : ∀ reply, reply? = some reply → ∃ e, reply.outcome = .error e) : (mk r reply?).answer? = none := by
  cases reply? with
  | none => rfl
  | some reply =>
    obtain ⟨e, he⟩ := h reply rfl
    rw [answer?, Option.bind_some, he]
    rfl

/-- What gets no answer opens nothing. -/
theorem not_opens {x : Exchange} (hx : x.answer? = none) : ¬ x.Opens := by
  rw [Opens, hx]
  exact fun h => Bool.false_ne_true h.2

/-- To open a board is no call. -/
theorem fruitless_of_isOpening {x : Exchange} (hx : x.request.isOpening = true) : x.Fruitless := by
  obtain ⟨r, reply?⟩ := x
  cases r with
  | openBoard => exact .inl rfl
  | create => exact .inl rfl
  | _ => cases hx

end Exchange

/-- If the request is a call, then one that is not about a transaction without a key. -/
def Request.Trackable (r : Request) : Prop := ∀ c ∈ r.call?, c.Trackable

instance (r : Request) : Decidable r.Trackable := inferInstanceAs (Decidable (∀ c ∈ r.call?, _))

/-! ### One request more -/

theorem BoardCall.Does.sound {c : BoardCall} {path : String} {calls : List CallRecord} {f g : Image}
    {o : Except Halt Answer} (h : c.Does path calls f o g) (hc : c.Trackable) (hf : f.Sound) : g.Sound := by
  cases h with
  | refused hk => exact hf.grow hk
  | planned hk _ _ hholds =>
    refine (hf.grow hk).edits ?_ hholds fun ed hed => hc.abandons_eq_false hed
    rw [Image.cells_grow]
    exact c.allows_plan hf.table

namespace Shared

variable {s t : Shared} {f g : Image}

/-- On a sound board no request is stuck. -/
theorem Opened.unstuck [Processor] (hs : s.Opened f) (hf : f.Sound) (r : Request) (reply : Reply Answer)
    (hreply : (s.step r).1 = some reply) : reply.Unstuck :=
  step_unstuck hs r (fun _ c _ _ _ _ => c.ends_plan hf.table hf.idle) reply hreply

theorem Takes.sound {r : Request} {reply? : Option (Reply Answer)} (h : t.Takes f r reply? g) (hr : r.Trackable)
    (hf : f.Sound) : g.Sound := by
  cases h with
  | call _ _ _ hdoes => exact hdoes.sound (hr _ rfl) hf
  | _ => exact hf

/-! ### Runs -/

theorem run_append [Processor] (s : Shared) (rs ds : List Request) :
    s.run (rs ++ ds) = ((s.run rs).1 ++ ((s.run rs).2.run ds).1, ((s.run rs).2.run ds).2) := by
  induction rs generalizing s with
  | nil => rfl
  | cons r rs ih =>
    rw [List.cons_append]
    show (_ :: ((s.step r).2.run (rs ++ ds)).1, ((s.step r).2.run (rs ++ ds)).2) = _
    rw [ih]
    rfl

theorem length_run [Processor] (s : Shared) (rs : List Request) : (s.run rs).1.length = rs.length := by
  induction rs generalizing s with
  | nil => rfl
  | cons r rs ih => exact congrArg Nat.succ (ih _)

/-- What was asked in a run, and what came of it. -/
def history [Processor] (s : Shared) (rs : List Request) : List Exchange := rs.zipWith Exchange.mk (s.run rs).1

theorem history_append [Processor] (s : Shared) (rs ds : List Request) :
    s.history (rs ++ ds) = s.history rs ++ (s.run rs).2.history ds := by
  rw [history, run_append, List.zipWith_append (length_run s rs).symm]
  rfl

theorem history_concat [Processor] (s : Shared) (rs : List Request) (r : Request) :
    s.history (rs ++ [r]) = s.history rs ++ [⟨r, ((s.run rs).2.step r).1⟩] := history_append ..

/-- A board that was opened in a run was opened in any longer run. -/
theorem opens_append [Processor] {rs : List Request} (h : ∃ x ∈ s.history rs, x.Opens) (ds : List Request) :
    ∃ x ∈ s.history (rs ++ ds), x.Opens := by
  obtain ⟨x, hx, hopens⟩ := h
  rw [history_append]
  exact ⟨x, List.mem_append_left _ hx, hopens⟩

theorem run_concat [Processor] (s : Shared) (rs : List Request) (r : Request) :
    (s.run (rs ++ [r])).2 = ((s.run rs).2.step r).2 := by
  rw [run_append]
  rfl

theorem replies_concat [Processor] (s : Shared) (rs : List Request) (r : Request) :
    (s.run (rs ++ [r])).1 = (s.run rs).1 ++ [((s.run rs).2.step r).1] := by
  rw [run_append]
  rfl

/-- What holds of a new board whatever failed before, and is kept by every request, holds from the first
successful opening on. -/
theorem run_cases [Processor] {P : List Exchange → Image → Prop} (hs : s.Fresh) (rs : List Request)
    (hends : ∀ reply, some reply ∈ (s.run rs).1 → reply.Unstuck)
    (hnew : ∀ h policy k, (∀ x ∈ h, x.Fruitless) → sizeFor policy.initialPartitions ≤ k → k ≤ Region.maxSize →
      P h (Image.newBoard policy k))
    (hstep : ∀ h (t : Shared) f r g, r ∈ rs → t.Opened f → P h f → t.Takes f r (t.step r).1 g →
      P (h ++ [⟨r, (t.step r).1⟩]) g) :
    ((s.run rs).2.Fresh ∧ ∀ x ∈ s.history rs, x.Fruitless ∧ ¬ x.Opens) ∨
      ∃ f, (s.run rs).2.Opened f ∧ P (s.history rs) f := by
  induction rs using List.reverseRecOn with
  | nil => exact .inl ⟨hs, fun x hx => absurd hx List.not_mem_nil⟩
  | append_singleton rs r ih =>
    rw [replies_concat] at hends
    have hlast : ∀ reply, ((s.run rs).2.step r).1 = some reply → reply.Unstuck := fun reply hreply =>
      hends reply (List.mem_append_right _ (by rw [hreply]; exact List.mem_cons_self))
    rw [run_concat, history_concat]
    rcases ih (fun reply h => hends reply (List.mem_append_left _ h))
        (fun h t f r g hr => hstep h t f r g (List.mem_append_left _ hr)) with ⟨hfresh, hnone⟩ | ⟨f, hopened, hP⟩
    · rcases step_fresh hfresh r with ⟨⟨policy, k, hroom, hk, hopened⟩, hopening, -⟩ | ⟨hfresh', hfailed⟩
      · have hfruitless : Exchange.Fruitless ⟨r, ((s.run rs).2.step r).1⟩ := Exchange.fruitless_of_isOpening hopening
        exact .inr ⟨_, hopened, hnew _ policy k (List.forall_mem_append.mpr
          ⟨fun x hx => (hnone x hx).1, List.forall_mem_singleton.mpr hfruitless⟩) hroom hk⟩
      · have hanswer : (Exchange.mk r ((s.run rs).2.step r).1).answer? = none :=
          Exchange.answer?_eq_none fun reply hreply => (hfailed reply hreply).imp' _ fun _ he => he
        exact .inl ⟨hfresh', List.forall_mem_append.mpr
          ⟨hnone, List.forall_mem_singleton.mpr ⟨.inr hanswer, Exchange.not_opens hanswer⟩⟩⟩
    · obtain ⟨g, hopened', htakes⟩ := step_opened hopened r hlast
      exact .inr ⟨g, hopened', hstep _ _ f r g (List.mem_append_right _ List.mem_cons_self) hopened hP htakes⟩

/-- A run leaves the file as nobody has opened it yet, or with a coherent board. -/
theorem run_fresh_or_opened [Processor] (hs : s.Fresh) {rs : List Request}
    (hends : ∀ reply, some reply ∈ (s.run rs).1 → reply.Unstuck) : (s.run rs).2.Fresh ∨ ∃ f, (s.run rs).2.Opened f := by
  have hcases := run_cases (P := fun _ _ => True) hs rs hends (fun _ _ _ _ _ _ => trivial)
    fun _ _ _ _ _ _ _ _ _ => trivial
  exact hcases.imp And.left fun hboard => hboard.imp fun _ => And.left

/-- In a run in which every transaction has a key, no request is stuck. -/
theorem run_unstuck [Processor] (hs : s.Fresh) {rs : List Request} (hkeys : ∀ r ∈ rs, r.Trackable)
    (reply : Reply Answer) (hreply : some reply ∈ (s.run rs).1) : reply.Unstuck := by
  induction rs using List.reverseRecOn generalizing reply with
  | nil => cases hreply
  | append_singleton rs r ih =>
    have hends := ih fun r hr => hkeys r (List.mem_append_left _ hr)
    rw [replies_concat] at hreply
    rcases List.mem_append.mp hreply with hreply | hreply
    · exact hends reply hreply
    · have hlast := (List.mem_singleton.mp hreply).symm
      have hcases := run_cases (P := fun _ f => f.Sound) hs rs hends
        (fun _ policy k _ hroom hk => Image.sound_newBoard policy hroom hk)
        (fun _ t f r g hr _ hf htakes => htakes.sound (hkeys r (List.mem_append_left _ hr)) hf)
      rcases hcases with ⟨hfresh, -⟩ | ⟨f, hopened, hf⟩
      · exact (hfresh.settled hlast).unstuck
      · exact hopened.unstuck hf r reply hlast

/-- Nothing has been opened yet, or the file is sound. -/
theorem run_fresh_or_sound [Processor] (hs : s.Fresh) {rs : List Request} (hkeys : ∀ r ∈ rs, r.Trackable) :
    ((s.run rs).2.Fresh ∧ ∀ x ∈ s.history rs, ¬ x.Opens) ∨ ∃ f, (s.run rs).2.Opened f ∧ f.Sound := by
  have hcases := run_cases (P := fun _ f => f.Sound) hs rs (run_unstuck hs hkeys)
    (fun _ policy k _ hroom hk => Image.sound_newBoard policy hroom hk)
    (fun _ t f r g hr _ hf htakes => htakes.sound (hkeys r hr) hf)
  exact hcases.imp (fun h => ⟨h.1, fun x hx => (h.2 x hx).2⟩) id

/-- From the first successful opening on, the file is sound. -/
theorem run_sound [Processor] (hs : s.Fresh) {rs : List Request} (hkeys : ∀ r ∈ rs, r.Trackable)
    (hopens : ∃ x ∈ s.history rs, x.Opens) : ∃ f, (s.run rs).2.Opened f ∧ f.Sound := by
  rcases run_fresh_or_sound hs hkeys with ⟨-, hnone⟩ | h
  · obtain ⟨x, hx, hx'⟩ := hopens
    exact absurd hx' (hnone x hx)
  · exact h

/-- A board of a split table, with one version. -/
def oneVersion : List Request :=
  [.openBoard "a" "board" .willing (Config.default.withPolicy .day), .call "a" (.add ⟨5⟩ ⟨7⟩)]

/-- Two handles, a reader, a removal that is refused for it, and a release too many. -/
theorem run_sound_of_two_handles : ∃ f, (run {} (oneVersion ++
      [.openBoard "b" "board" .willing .default, .call "b" (.table (.acquireRead ⟨5⟩ ⟨7⟩)), .call "a" (.remove ⟨5⟩ ⟨7⟩),
        .call "a" (.table (.releaseRead ⟨5⟩ ⟨7⟩)), .call "a" (.table (.releaseRead ⟨5⟩ ⟨7⟩))])).2.Opened f ∧ f.Sound :=
  run_sound fresh_empty (by decide) (by decide +kernel)

end Shared

end VersionBoard
