import VersionBoard.Error

/-!
# Actions

An action works on a state of type `σ` and ends with an answer or with a `Halt`.
Either way it leaves a state: what was stored before an error or a violation
stays stored. `afterwards` is how locks are given back: its second part runs
however the first one ended, unless the first one is still waiting.
-/

namespace VersionBoard

/-- An action on states `σ` that answers with an `α`. -/
def Act (σ α : Type) : Type := σ → Except Halt α × σ

namespace Act

variable {σ τ α β : Type}

/-- Answer `a` and do nothing. -/
protected def pure (a : α) : Act σ α := fun s => (.ok a, s)

/-- Do `x`, then `f` of its answer; if `x` gives none, that is the end. -/
protected def bind (x : Act σ α) (f : α → Act σ β) : Act σ β := fun s =>
  match x s with
  | (.ok a, t) => f a t
  | (.error h, t) => (.error h, t)

instance : Monad (Act σ) where
  pure := Act.pure
  bind := Act.bind

/-- The state as it is. -/
def state : Act σ σ := fun s => (.ok s, s)

/-- Change the state. -/
def modify (f : σ → σ) : Act σ Unit := fun s => (.ok (), f s)

/-- End with `h`. -/
def halt (h : Halt) : Act σ α := fun s => (.error h, s)

/-- End with an error. -/
def fail (e : Error) : Act σ α := halt (.failed e)

/-- End with a violation. -/
def violate (v : Violation) : Act σ α := halt (.violated v)

/-- Wait. -/
def wait (w : Wait) : Act σ α := halt (.waits w)

/-- Do `x`, then `cleanup` however `x` ended; but a call that waits has not ended. -/
def afterwards (x : Act σ α) (cleanup : Act σ Unit) : Act σ α := fun s =>
  match x s with
  | (.error (.waits w), t) => (.error (.waits w), t)
  | (r, t) =>
    match cleanup t with
    | (.ok (), u) => (r, u)
    | (.error h, u) => (.error h, u)

/-- Do `x` on a part of the state. -/
def on (get : τ → σ) (set : σ → τ → τ) (x : Act σ α) : Act τ α := fun s =>
  match x (get s) with
  | (r, t) => (r, set t s)

/-! ### What an action does to a state -/

theorem pure_apply (a : α) (s : σ) : (pure a : Act σ α) s = (.ok a, s) := rfl

theorem bind_apply (x : Act σ α) (f : α → Act σ β) (s : σ) :
    (x >>= f) s = match x s with
      | (.ok a, t) => f a t
      | (.error h, t) => (.error h, t) := rfl

theorem bind_of_ok {x : Act σ α} {f : α → Act σ β} {s t : σ} {a : α} (h : x s = (.ok a, t)) :
    (x >>= f) s = f a t := by rw [bind_apply, h]

theorem bind_of_error {x : Act σ α} {f : α → Act σ β} {s t : σ} {e : Halt} (h : x s = (.error e, t)) :
    (x >>= f) s = (.error e, t) := by rw [bind_apply, h]

theorem map_apply (f : α → β) (x : Act σ α) (s : σ) :
    (f <$> x) s = match x s with
      | (.ok a, t) => (.ok (f a), t)
      | (.error h, t) => (.error h, t) := rfl

instance : LawfulMonad (Act σ) :=
  LawfulMonad.mk' _
    (by
      intro α x
      funext s
      show Act.bind x _ s = x s
      rcases h : x s with ⟨_ | _, t⟩ <;> simp [Act.bind, h, Act.pure])
    (by intros; rfl)
    (by
      intro α β γ x f g
      funext s
      show Act.bind (Act.bind x f) g s = Act.bind x (fun a => Act.bind (f a) g) s
      rcases h : x s with ⟨_ | _, t⟩ <;> simp [Act.bind, h])

end Act

end VersionBoard
