/-!
# Things under names

A list of things with their names. What was put under a name last is what is
there.
-/

namespace VersionBoard

/-- Things under names. -/
abbrev Named (α : Type) : Type := List (String × α)

namespace Named

variable {α : Type}

/-- What is under `name`. -/
def get? (l : Named α) (name : String) : Option α := l.lookup name

/-- Without what is under `name`. -/
def erase (l : Named α) (name : String) : Named α := l.filter (·.1 ≠ name)

/-- With `a` under `name`, in place of what was there. -/
def put (l : Named α) (name : String) (a : α) : Named α := (name, a) :: erase l name

/-- Whether `p` holds of something that is under a name. -/
def any (l : Named α) (p : α → Bool) : Bool := l.map Prod.fst |>.any fun name => (l.get? name).any p

@[simp] theorem get?_put_self (l : Named α) (name : String) (a : α) : (put l name a).get? name = some a := by
  simp [put, get?]

theorem get?_erase_of_ne (l : Named α) {name other : String} (h : other ≠ name) :
    (erase l name).get? other = l.get? other := by
  induction l with
  | nil => rfl
  | cons x l ih =>
    obtain ⟨key, a⟩ := x
    simp only [erase, get?] at ih ⊢
    by_cases hk : key = name
    · subst hk
      simp only [ne_eq, List.filter_cons, not_true_eq_false, decide_false, Bool.false_eq_true, if_false]
      rw [ih, List.lookup_cons, beq_eq_false_iff_ne.mpr h]
    · simp only [ne_eq, List.filter_cons, hk, not_false_eq_true, decide_true, if_true, List.lookup_cons]
      rw [ih]

theorem get?_put_of_ne (l : Named α) {name other : String} (h : other ≠ name) (a : α) :
    (put l name a).get? other = l.get? other := by
  rw [← get?_erase_of_ne l h]
  simp only [put, get?, List.lookup_cons, beq_eq_false_iff_ne.mpr h]

@[simp] theorem get?_erase_self (l : Named α) (name : String) : (erase l name).get? name = none := by
  simp only [get?, List.lookup_eq_none_iff, erase, List.mem_filter, decide_eq_true_eq]
  exact fun x hx => bne_iff_ne.mpr (Ne.symm hx.2)

theorem any_eq_true_iff {l : Named α} {p : α → Bool} : l.any p = true ↔ ∃ name a, l.get? name = some a ∧ p a = true := by
  rw [any, List.any_map, List.any_eq_true]
  constructor
  · rintro ⟨⟨name, b⟩, -, hp⟩
    obtain ⟨a, ha, hpa⟩ := Option.any_eq_true _ _ |>.mp hp
    exact ⟨name, a, ha, hpa⟩
  · rintro ⟨name, a, ha, hpa⟩
    obtain ⟨l₁, l₂, rfl, -⟩ := List.lookup_eq_some_iff.mp ha
    refine ⟨(name, a), by simp, ?_⟩
    rw [Function.comp_apply, ha]
    exact hpa

theorem any_of_any_erase {l : Named α} {name : String} {p : α → Bool} (h : (l.erase name).any p = true) :
    l.any p = true := by
  rw [any_eq_true_iff] at h ⊢
  obtain ⟨other, a, hget, hp⟩ := h
  by_cases hother : other = name
  · rw [hother, get?_erase_self] at hget
    cases hget
  · rw [get?_erase_of_ne l hother] at hget
    exact ⟨other, a, hget, hp⟩

theorem any_of_any_put {l : Named α} {name : String} {a : α} {p : α → Bool} (h : (l.put name a).any p = true) :
    p a = true ∨ l.any p = true := by
  obtain ⟨other, b, hget, hp⟩ := any_eq_true_iff.mp h
  by_cases hother : other = name
  · rw [hother, get?_put_self] at hget
    obtain rfl := Option.some.inj hget
    exact .inl hp
  · rw [get?_put_of_ne l hother] at hget
    exact .inr (any_eq_true_iff.mpr ⟨other, b, hget, hp⟩)

end Named

end VersionBoard
