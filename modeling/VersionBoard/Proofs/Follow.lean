import VersionBoard.Proofs.PlanCases

/-!
# Calls follow their plans

Through a mapping of the first `n` bytes, the calls on a table do what their
plans say (`TableCall.run_follows`), whatever the entries hold, as long as the
slots' own locks are free. What the plans leave out is what a call undoes itself:
the lock of a slot taken and given back, the mark on an entry that is about to
change hands, and the second look at the stamp. Nothing is said of what a call
leaves behind that waits, for it has not ended.
-/

namespace VersionBoard

variable {α β : Type}

/-! ### Lists of actions -/

namespace Act

variable {σ : Type}

/-- A search whose test changes the state only where it succeeds. -/
theorem findM?_apply {g : α → Act σ Bool} {q : α → Bool} {h : α → σ} {s : σ} {l : List α}
    (hg : ∀ a, g a s = (.ok (q a), if q a then h a else s)) :
    l.findM? g s = (.ok (l.find? q), (l.find? q).elim s h) := by
  induction l with
  | nil => rfl
  | cons a l ih =>
    rw [List.findM?, bind_of_ok (hg a), List.find?_cons]
    cases q a with
    | true => rfl
    | false => exact ih

/-- A search whose test changes nothing. -/
theorem findM?_test {g : α → Act σ Bool} {q : α → Bool} {s : σ} {l : List α}
    (hg : ∀ a ∈ l, g a s = (.ok (q a), s)) : l.findM? g s = (.ok (l.find? q), s) := by
  induction l with
  | nil => rfl
  | cons a l ih =>
    rw [List.findM?, bind_of_ok (hg a List.mem_cons_self), List.find?_cons]
    cases q a with
    | true => rfl
    | false => exact ih fun b hb => hg b (List.mem_cons_of_mem _ hb)

theorem allM_test {g : α → Act σ Bool} {q : α → Bool} {s : σ} {l : List α}
    (hg : ∀ a, g a s = (.ok (q a), s)) : l.allM g s = (.ok (l.all q), s) := by
  induction l with
  | nil => rfl
  | cons a l ih =>
    rw [List.allM, bind_of_ok (hg a), List.all_cons]
    cases q a with
    | true => exact ih
    | false => rfl

theorem mapM_query {g : α → Act σ β} {q : α → β} {s : σ} {l : List α}
    (hg : ∀ a, g a s = (.ok (q a), s)) : l.mapM g s = (.ok (l.map q), s) := by
  induction l with
  | nil => rfl
  | cons a l ih =>
    rw [List.mapM_cons, bind_of_ok (hg a), bind_of_ok ih]
    rfl

/-- What is given back afterwards is given back unless the action waits. -/
theorem afterwards_of_eq {x : Act σ α} {cleanup : Act σ Unit} {s t u : σ} {r : Except Halt α} (h : x s = (r, t))
    (hr : ∀ w, r ≠ .error (.waits w)) (hc : cleanup t = (.ok (), u)) : x.afterwards cleanup s = (r, u) := by
  unfold afterwards
  split
  · next w t' heq =>
    rw [h] at heq
    exact absurd (congrArg Prod.fst heq) (hr w)
  · next r' t' _ heq =>
    obtain ⟨rfl, rfl⟩ : r = r' ∧ t = t' := by simpa using h.symm.trans heq
    rw [hc]

theorem afterwards_of_ends {x : Act σ α} {cleanup : Act σ Unit} {s u : σ} (h : ∀ w, (x s).1 ≠ .error (.waits w))
    (hc : cleanup (x s).2 = (.ok (), u)) : x.afterwards cleanup s = ((x s).1, u) :=
  afterwards_of_eq rfl h hc

/-- What waits is not followed by anything. -/
theorem afterwards_of_waits {x : Act σ α} {cleanup : Act σ Unit} {s t : σ} {w : Wait}
    (h : x s = (.error (.waits w), t)) : x.afterwards cleanup s = (.error (.waits w), t) := by
  rw [afterwards, h]

end Act

theorem all_entryIndices (q : EntryIndex → Bool) : entryIndices.all q = decide (∀ e, q e = true) := by
  rw [Bool.eq_iff_iff, List.all_eq_true, decide_eq_true_eq]
  exact ⟨fun h e => h e (List.mem_finRange e), fun h e _ => h e⟩

/-! ### Following a plan -/

/-- On the file `f` the action ends as the plan says, and unless it waits it makes the plan's edits. -/
def Act.Follows (x : Act Image α) (f : Image) (plan : Plan α) : Prop :=
  (x f).1 = plan.1 ∧ (plan.Ends → (x f).2 = f.edits plan.2)

namespace Act.Follows

variable {x : Act Image α} {f : Image} {plan : Plan α}

theorem of_eq (h : x f = (plan.1, f.edits plan.2)) : x.Follows f plan := ⟨by rw [h], fun _ => by rw [h]⟩

theorem of_waits {w : Wait} {es : List Edit} (h : (x f).1 = .error (.waits w)) :
    x.Follows f (.error (.waits w), es) := ⟨h, fun he => absurd rfl (he w)⟩

/-- Unless it waits, all is said by the plan. -/
theorem eq_of_ends (h : x.Follows f plan) (hends : plan.Ends) : x f = (plan.1, f.edits plan.2) :=
  Prod.ext h.1 (h.2 hends)

/-- What is only read before does not matter. -/
theorem after {g : α → Act Image β} {plan : Plan β} {a : α} (h : x f = (.ok a, f)) (hg : (g a).Follows f plan) :
    (x >>= g).Follows f plan := by
  rw [Act.Follows, bind_of_ok h]
  exact hg

theorem pure (a : α) (f : Image) : (Pure.pure a : Act Image α).Follows f (.answer a) := of_eq rfl

theorem map (h : x.Follows f plan) (g : α → β) : (g <$> x).Follows f (plan.map g) := by
  obtain ⟨h1, h2⟩ := h
  refine ⟨?_, fun he => ?_⟩
  · rw [Act.map_apply, Plan.map, ← h1]
    rcases x f with ⟨_ | _, _⟩ <;> rfl
  · have hp : plan.Ends := fun w hw => he w (by rw [Plan.map, hw]; rfl)
    rw [Plan.map, ← h2 hp, Act.map_apply]
    rcases x f with ⟨_ | _, _⟩ <;> rfl

/-- First `x`, then what its answer calls for. -/
theorem bind {g : α → Act Image β} {k : α → Plan β} (h : x.Follows f plan)
    (hk : ∀ a, plan.1 = .ok a → (g a).Follows (f.edits plan.2) (k a)) :
    (x >>= g).Follows f (plan.andThen k) := by
  obtain ⟨h1, h2⟩ := h
  rcases hx : x f with ⟨_ | a, t⟩ <;> rw [hx] at h1 h2
  case error e =>
    have hp : plan.andThen k = (.error e, plan.2) := by rw [Plan.andThen, ← h1]
    rw [hp]
    refine ⟨by rw [bind_of_error hx], ?_⟩
    intro he
    rw [bind_of_error hx]
    exact h2 fun w hw => he w (by rw [show plan.1 = .error e from h1.symm] at hw; cases hw; rfl)
  case ok =>
    have hp : plan.andThen k = ((k a).1, plan.2 ++ (k a).2) := by rw [Plan.andThen, ← h1]
    have ht : t = f.edits plan.2 := h2 fun w hw => by rw [← h1] at hw; cases hw
    obtain ⟨h3, h4⟩ := hk a h1.symm
    rw [hp, Act.Follows, bind_of_ok hx, ht]
    refine ⟨h3, ?_⟩
    intro he
    rw [h4 he, Image.edits, Image.edits, Image.edits, List.foldl_append]

end Act.Follows

/-! ### Words through a mapping -/

namespace Mapping

variable {n : Nat}

@[simp] theorem capacity_upTo (n : Nat) : (upTo n).capacity = slotsIn n := rfl

@[simp] theorem size_upTo (n : Nat) : (upTo n).size = n := rfl

theorem offset_add_le_of_within (hn : headerSize ≤ n) {c : Cell} (hc : c.Within (slotsIn n)) : c.offset + 8 ≤ n :=
  Nat.le_trans hc.offset_add_le (sizeFor_le_of_le_slotsIn hn (Nat.le_refl _))

theorem get_apply (hn : headerSize ≤ n) (c : Cell) (hc : c.Within (slotsIn n)) (f : Image) :
    (upTo n).get c f = (.ok (f.cells c), f) :=
  load_upTo c.offset_mod (offset_add_le_of_within hn hc) f

theorem put_apply (hn : headerSize ≤ n) (c : Cell) (hc : c.Within (slotsIn n)) (v : UInt64) (f : Image) :
    (upTo n).put c v f = (.ok (), f.setCell c v) :=
  store_upTo c.offset_mod (offset_add_le_of_within hn hc) v f

theorem alter_apply (hn : headerSize ≤ n) (c : Cell) (hc : c.Within (slotsIn n)) (g : UInt64 → UInt64) (f : Image) :
    (upTo n).alter c g f = (.ok (), f.setCell c (g (f.cells c))) := by
  unfold alter update
  exact Act.bind_of_ok (get_apply hn c hc f) |>.trans (put_apply hn c hc _ f)

/-- A word is changed by the first attempt that does not miss, if it is to be changed. -/
theorem exchangeAfter_apply (hn : headerSize ≤ n) (c : Cell) (hc : c.Within (slotsIn n))
    (change : UInt64 → Option UInt64) (misses : Nat) (f : Image) : (upTo n).exchangeAfter c.offset change misses f =
      (.ok (f.cells c), (change (f.cells c)).elim f (f.setCell c)) := by
  rw [exchangeAfter_eq]
  refine Act.bind_of_ok (get_apply hn c hc f) |>.trans ?_
  cases change (f.cells c) with
  | none => rfl
  | some v => exact Act.bind_of_ok (put_apply hn c hc v f)

theorem exchange_of_none [Processor] (hn : headerSize ≤ n) (c : Cell) (hc : c.Within (slotsIn n))
    (change : UInt64 → Option UInt64) {f : Image} (h : change (f.cells c) = none) :
    (upTo n).exchange c.offset change f = (.ok (f.cells c), f) :=
  (exchangeAfter_apply hn c hc change (Processor.misses f c.offset) f).trans (by rw [h]; rfl)

theorem exchange_of_some [Processor] (hn : headerSize ≤ n) (c : Cell) (hc : c.Within (slotsIn n))
    (change : UInt64 → Option UInt64) {f : Image} {v : UInt64} (h : change (f.cells c) = some v) :
    (upTo n).exchange c.offset change f = (.ok (f.cells c), f.setCell c v) :=
  (exchangeAfter_apply hn c hc change (Processor.misses f c.offset) f).trans (by rw [h]; rfl)

/-- A lock word that is free is taken at once. -/
theorem take_apply [Processor] (hn : headerSize ≤ n) (c : Cell) (hc : c.Within (slotsIn n)) {f : Image}
    (h0 : f.cells c = 0) : (upTo n).take c.offset f = (.ok (), f.setCell c taken) := by
  have htaken : take? (f.cells c) = some taken := by
    rw [h0]
    rfl
  refine Act.bind_of_ok (exchange_of_some hn c hc take? htaken) |>.trans ?_
  rw [if_neg (by rw [h0]; decide)]
  rfl

end Mapping

namespace Table

open Mapping (upTo get_apply put_apply alter_apply)

variable {n : Nat} {f : Image}

/-! ### Reading -/

theorem usedSlots_apply (hn : headerSize ≤ n) : usedSlots (upTo n) f = (.ok (f.cells .usedSlots), f) :=
  get_apply hn .usedSlots trivial f

theorem stamp_apply (hn : headerSize ≤ n) : stamp (upTo n) f = (.ok (f.cells .stamp), f) :=
  get_apply hn .stamp trivial f

theorem visibleSlots_apply (hn : headerSize ≤ n) :
    visibleSlots (upTo n) f = (.ok (List.range (min f.cells.used (slotsIn n))), f) := by
  rw [visibleSlots, Act.bind_of_ok (usedSlots_apply hn)]
  rfl

theorem isSlotOf_apply (hn : headerSize ≤ n) {i : Nat} (hi : i < slotsIn n) (p : Partition) :
    isSlotOf (upTo n) i p f = (.ok (decide (f.cells.Tracks i p)), f) := by
  rw [isSlotOf, Act.bind_of_ok (get_apply hn (.state i) hi f), Act.bind_of_ok (get_apply hn (.partition i) hi f)]
  rfl

theorem slotOf_apply (hn : headerSize ≤ n) (p : Partition) :
    slotOf (upTo n) p f = (.ok (f.cells.slot? (min f.cells.used (slotsIn n)) p), f) := by
  rw [slotOf, Act.bind_of_ok (visibleSlots_apply hn)]
  refine Act.findM?_test fun i hi => isSlotOf_apply hn ?_ p
  rw [List.mem_range] at hi
  omega

theorem nextSlot_apply (hn : headerSize ≤ n) :
    nextSlot (upTo n) f = (.ok (f.cells.next (min f.cells.used (slotsIn n))), f) := by
  rw [nextSlot, Act.bind_of_ok (visibleSlots_apply hn)]
  refine Act.bind_of_ok ?_ |>.trans (Act.bind_of_ok (usedSlots_apply hn))
  refine Act.findM?_test fun i hi => ?_
  rw [List.mem_range] at hi
  have hi' : i < slotsIn n := by omega
  rw [Act.bind_of_ok (get_apply hn (.state i) hi' f)]
  rfl

theorem keyOf_of_key {txn : Txn} {k : UInt64} (hk : txn.key? = some k) : keyOf txn f = (.ok k, f) := by
  rw [keyOf, hk]
  rfl

theorem keyOf_of_no_key {txn : Txn} (hk : txn.key? = none) :
    keyOf txn f = (.error (.violated (.untrackable txn)), f) := by
  rw [keyOf, hk]
  rfl

theorem entryOf_of_key (hn : headerSize ≤ n) {i : Nat} (hi : i < slotsIn n) {txn : Txn} {k : UInt64}
    (hk : txn.key? = some k) : entryOf (upTo n) i txn f = (.ok (f.cells.entryWith? i k), f) := by
  rw [entryOf, Act.bind_of_ok (keyOf_of_key hk)]
  refine Act.findM?_test fun e _ => ?_
  rw [Act.bind_of_ok (get_apply hn (.key i e) hi f)]
  rfl

theorem entryOf_of_no_key {i : Nat} {txn : Txn} (hk : txn.key? = none) :
    entryOf (upTo n) i txn f = (.error (.violated (.untrackable txn)), f) := by
  rw [entryOf, Act.bind_of_error (keyOf_of_no_key hk)]

theorem isVacant_apply (hn : headerSize ≤ n) {i : Nat} (hi : i < slotsIn n) :
    isVacant (upTo n) i f = (.ok (decide (∀ e, f.cells (.key i e) = 0)), f) := by
  rw [isVacant, Act.allM_test (q := fun e => decide (f.cells (.key i e) = 0))]
  · rw [all_entryIndices]
    simp only [decide_eq_true_eq]
  · intro e
    rw [Act.bind_of_ok (get_apply hn (.key i e) hi f)]
    rfl

theorem entryState_apply (hn : headerSize ≤ n) {i : Nat} (hi : i < slotsIn n) (e : EntryIndex) :
    entryState (upTo n) i e f = (.ok (f.cells.entryState i e), f) := by
  rw [entryState, Act.bind_of_ok (get_apply hn (.key i e) hi f), Act.bind_of_ok (get_apply hn (.lock i e) hi f)]
  rfl

/-! ### Giving entries to versions -/

theorem reserve_apply (hn : headerSize ≤ n) {i : Nat} (hi : i < slotsIn n) (e : EntryIndex) :
    reserve (upTo n) i e f = (.ok (decide (f.cells (.lock i e) = 0)),
      if f.cells (.lock i e) = 0 then f.setCell (.lock i e) LockWord.reservedBit else f) := by
  rw [reserve, Act.bind_of_ok (get_apply hn (.lock i e) hi f)]
  by_cases h : f.cells (.lock i e) = 0
  · rw [if_pos h, if_pos h, decide_eq_true h, Act.bind_of_ok (put_apply hn (.lock i e) hi _ f)]
    rfl
  · rw [if_neg h, if_neg h, decide_eq_false h]
    rfl

theorem give_apply (hn : headerSize ≤ n) {i : Nat} (hi : i < slotsIn n) (e : EntryIndex) (k : UInt64) :
    give (upTo n) i e k f = (.ok (), f.setCells [(.key i e, k), (.lock i e, 0)]) := by
  rw [give, Act.bind_of_ok (put_apply hn (.key i e) hi k f), put_apply hn (.lock i e) hi]
  rfl

theorem takeFree_apply (hn : headerSize ≤ n) {i : Nat} (hi : i < slotsIn n) :
    takeFree (upTo n) i f = (.ok (f.cells.free? i),
      (f.cells.free? i).elim f fun e => f.setCell (.lock i e) LockWord.reservedBit) := by
  refine Act.findM?_apply fun e => ?_
  rw [Act.bind_of_ok (get_apply hn (.key i e) hi f)]
  by_cases hk : f.cells (.key i e) = 0
  · rw [if_pos hk, reserve_apply hn hi]
    simp only [hk, true_and, decide_eq_true_eq]
  · rw [if_neg hk]
    simp only [hk, false_and, decide_false, Bool.false_eq_true, if_false]
    rfl

theorem takeIdle_apply (hn : headerSize ≤ n) {i : Nat} (hi : i < slotsIn n) :
    takeIdle (upTo n) i f = (.ok (f.cells.idle? i),
      (f.cells.idle? i).elim f fun e => f.setCell (.lock i e) LockWord.reservedBit) := by
  refine Act.findM?_apply fun e => ?_
  rw [Act.bind_of_ok (get_apply hn (.key i e) hi f)]
  by_cases hk : f.cells (.key i e) = 0
  · rw [if_pos hk]
    simp only [hk, ne_eq, not_true_eq_false, false_and, decide_false, Bool.false_eq_true, if_false]
    rfl
  · rw [if_neg hk, reserve_apply hn hi]
    simp only [hk, ne_eq, not_false_eq_true, true_and, decide_eq_true_eq]

/-! ### Holding locks -/

theorem holds_of_lt_slotsIn (hn : headerSize ≤ n) (hs : n ≤ f.size) {i : Nat} (hi : i < slotsIn n) : f.Holds i :=
  Nat.le_trans (sizeFor_le_of_le_slotsIn hn hi) hs

/-- A slot's lock that is free is taken first and given back last. -/
theorem holdingSlot_apply [Processor] (hn : headerSize ≤ n) {i : Nat} (hi : i < slotsIn n)
    (hl : f.cells (.slotLock i) = 0) (body : Act Image α) : holdingSlot (upTo n) i body f =
      body.afterwards ((upTo n).release (Cell.slotLock i).offset) (f.setCell (.slotLock i) Mapping.taken) := by
  rw [holdingSlot, inSlot, Mapping.capacity_upTo, if_pos hi, Mapping.holding]
  exact Act.bind_of_ok (Mapping.take_apply hn (.slotLock i) hi hl)

/-- What is done with the lock of a slot held leaves no trace of the lock. -/
theorem holdingSlot_follows [Processor] {body : Act Image α} {plan : Plan α} (hn : headerSize ≤ n) (hs : n ≤ f.size)
    {i : Nat} (hi : i < slotsIn n) (hl : f.cells (.slotLock i) = 0) (hes : ∀ ed ∈ plan.2, f.Holds ed.slot)
    (hbody : body.Follows (f.setCell (.slotLock i) Mapping.taken) plan) :
    (holdingSlot (upTo n) i body).Follows f plan := by
  have hw : (Cell.slotLock i).Within (slotsIn n) := hi
  have hin : (Cell.slotLock i).offset + 8 ≤ f.size :=
    Nat.le_trans (Mapping.offset_add_le_of_within hn hw) hs
  obtain ⟨h1, h2⟩ := hbody
  rw [Act.Follows, holdingSlot_apply hn hi hl]
  by_cases hends : plan.Ends
  · have hundo := Image.release_edits (Cell.isGuard_slotLock i) hin hl hes Mapping.taken
    rw [← h2 hends] at hundo
    have hrelease : (upTo n).release (Cell.slotLock i).offset (body (f.setCell (.slotLock i) Mapping.taken)).2 =
        (.ok (), f.edits plan.2) := by
      rw [← hundo]
      exact put_apply hn (.slotLock i) hw 0 _
    rw [Act.afterwards_of_ends (fun w hw => hends w (h1.symm.trans hw)) hrelease]
    exact ⟨h1, fun _ => rfl⟩
  · obtain ⟨w, hw⟩ : ∃ w, plan.1 = .error (.waits w) := by simpa [Plan.Ends] using hends
    rw [Act.afterwards_of_waits (Prod.ext (h1.trans hw) rfl)]
    exact ⟨hw.symm, fun he => absurd he hends⟩

/-- What a call writes comes to an edit if it comes to the same words. -/
theorem setCells_eq_edit {i : Nat} (hf : f.Holds i) {ed : Edit} (hed : ed.slot = i) {ws : List (Cell × UInt64)}
    (hws : ∀ x ∈ ws, x.1.Within (i + 1)) (h : f.cells.setAll ws = f.cells.edit ed) : f.setCells ws = f.edit ed :=
  Image.setCells_congr (fun x hx => hf.offset_add_le (hws x hx)) (by subst hed; exact hf.offset_add_le_of_writes) h

theorem put_written (hn : headerSize ≤ n) (c : Cell) (hc : c.Within (slotsIn n)) (v : UInt64)
    (ws : List (Cell × UInt64)) : (upTo n).put c v (f.setCells ws) = (.ok (), f.setCells (ws ++ [(c, v)])) := by
  rw [put_apply hn c hc, Image.setCells_append]
  rfl

theorem alter_written (hn : headerSize ≤ n) (c : Cell) (hc : c.Within (slotsIn n)) (g : UInt64 → UInt64) {i : Nat}
    (hf : f.Holds i) (ws : List (Cell × UInt64)) (hws : ∀ x ∈ ws, x.1.Within (i + 1)) :
    (upTo n).alter c g (f.setCells ws) = (.ok (), f.setCells (ws ++ [(c, g (f.cells.setAll ws c))])) := by
  rw [alter_apply hn c hc, Image.cells_setCells fun x hx => hf.offset_add_le (hws x hx), Image.setCells_append]
  rfl

/-- An entry that is reserved, given away and opened again has the lock word that it had. -/
theorem setCells_give {i : Nat} {e : EntryIndex} (hf : f.Holds i) (hlock : f.cells (.lock i e) = 0)
    {ws : List (Cell × UInt64)} (hws : ∀ x ∈ ws, x.1.Within (i + 1) ∧ x.1 ≠ .lock i e) (k : UInt64) :
    ((f.setCell (.lock i e) LockWord.reservedBit).setCells ws).setCells [(.key i e, k), (.lock i e, 0)] =
      f.setCells (ws ++ [(.key i e, k)]) := by
  have hl : (Cell.lock i e).Within (i + 1) := Nat.lt_succ_self i
  have hk : (Cell.key i e).Within (i + 1) := Nat.lt_succ_self i
  rw [← Image.setCells_append]
  change f.setCells ((.lock i e, LockWord.reservedBit) :: _) = _
  apply Image.setCells_congr
  · intro x hx
    simp only [List.mem_append, List.mem_cons, List.not_mem_nil, or_false] at hx
    rcases hx with rfl | hx | rfl | rfl
    · exact hf.offset_add_le hl
    · exact hf.offset_add_le (hws x hx).1
    · exact hf.offset_add_le hk
    · exact hf.offset_add_le hl
  · intro x hx
    rcases List.mem_append.mp hx with hx | hx
    · exact hf.offset_add_le (hws x hx).1
    · rw [List.mem_singleton.mp hx]
      exact hf.offset_add_le hk
  · have hkeep : f.cells.setAll ws (.lock i e) = 0 :=
      (Words.setAll_of_notMem _ fun x hx => (hws x hx).2).trans hlock
    rw [Words.setAll_cons, Words.setAll_append, Words.setAll_set_comm _ fun x hx => (hws x hx).2, Words.setAll_append]
    funext c
    simp only [Words.setAll_cons, Words.setAll_nil, Words.set_apply]
    split_ifs <;> simp_all

theorem give_reserved (hn : headerSize ≤ n) (hs : n ≤ f.size) {i : Nat} (hi : i < slotsIn n) {e : EntryIndex}
    (hlock : f.cells (.lock i e) = 0) (ws : List (Cell × UInt64))
    (hws : ∀ x ∈ ws, x.1.Within (i + 1) ∧ x.1 ≠ .lock i e) (k : UInt64) :
    give (upTo n) i e k ((f.setCell (.lock i e) LockWord.reservedBit).setCells ws) =
      (.ok (), f.setCells (ws ++ [(.key i e, k)])) := by
  rw [give_apply hn hi, setCells_give (holds_of_lt_slotsIn hn hs hi) hlock hws]

theorem moveStamp_reserved (hn : headerSize ≤ n) (hs : n ≤ f.size) {i : Nat} (hi : i < slotsIn n) (e : EntryIndex) :
    moveStamp (upTo n) (f.setCell (.lock i e) LockWord.reservedBit) =
      (.ok (), (f.setCell (.lock i e) LockWord.reservedBit).setCells [(.stamp, f.cells .stamp + 1)]) := by
  have hin := (holds_of_lt_slotsIn hn hs hi).offset_add_le (c := .lock i e) (Nat.lt_succ_self i)
  have hstamp : (f.setCell (.lock i e) LockWord.reservedBit).cells .stamp = f.cells .stamp := by
    rw [Image.cells_setCell hin]
    exact Words.set_of_ne _ Cell.noConfusion _
  rw [moveStamp, alter_apply hn .stamp trivial, hstamp]
  rfl

/-! ### Structural calls -/

/-- A call on slot `i` whose body follows a plan that no lock has a part in. -/
theorem holdingSlot_follows_of [Processor] {body : Act Image α} (plan : Words → Plan α) (hn : headerSize ≤ n)
    (hs : n ≤ f.size)
    {i : Nat} (hi : i < slotsIn n) (hl : f.cells (.slotLock i) = 0) (hes : ∀ ed ∈ (plan f.cells).2, ed.slot = i)
    (hplan : ∀ v, plan (f.cells.set (.slotLock i) v) = plan f.cells)
    (hbody : ∀ g : Image, n ≤ g.size → g.cells = f.cells.set (.slotLock i) Mapping.taken →
      body.Follows g (plan g.cells)) :
    (holdingSlot (upTo n) i body).Follows f (plan f.cells) := by
  have hin := (holds_of_lt_slotsIn hn hs hi).offset_add_le (c := .slotLock i) (Nat.lt_succ_self i)
  refine holdingSlot_follows hn hs hi hl (fun ed hed => ?_) ?_
  · rw [hes ed hed]
    exact holds_of_lt_slotsIn hn hs hi
  · have hcells := Image.cells_setCell hin Mapping.taken
    have h := hbody (f.setCell (.slotLock i) Mapping.taken) (by rw [Image.size_setCell]; exact hs) hcells
    rwa [hcells, hplan] at h

/-- Giving an entry away does what its plan says, also where it waits. -/
theorem claim_apply (hn : headerSize ≤ n) (hs : n ≤ f.size) {i : Nat} (hi : i < slotsIn n) (p : Partition)
    (k : UInt64) :
    (do
      if let some e ← takeFree (upTo n) i then
        give (upTo n) i e k
        return .fresh e
      if let some e ← takeIdle (upTo n) i then
        moveStamp (upTo n)
        give (upTo n) i e k
        return .fresh e
      let full ← entryIndices.allM fun e => do return (← (upTo n).get (.key i e)) ≠ 0
      if full then .fail (.versionsExhausted p entriesPerSlot) else .wait (.freeEntry i) : Act Image Registration) f =
      (((f.cells.claim i p k).map Registration.fresh).1, f.edits ((f.cells.claim i p k).map Registration.fresh).2) := by
  have hf := holds_of_lt_slotsIn hn hs hi
  have hfree := takeFree_apply (f := f) hn hi
  have hidle := takeIdle_apply (f := f) hn hi
  rw [Words.claim]
  rcases h : f.cells.free? i with _ | e <;> rw [h] at hfree
  · rcases h' : f.cells.idle? i with _ | e <;> rw [h'] at hidle
    · -- no entry to be had
      have hfull : (entryIndices.allM fun e => do return (← (upTo n).get (.key i e)) ≠ 0 : Act Image Bool) f =
          (.ok (decide (f.cells.Full i)), f) := by
        rw [Act.allM_test (q := fun e => decide (f.cells (.key i e) ≠ 0))]
        · rw [all_entryIndices]
          exact congrArg (fun b => (Except.ok b, f)) (decide_eq_decide.mpr (by simp [Words.Full]))
        · intro e
          rw [Act.bind_of_ok (get_apply hn (.key i e) hi f)]
          rfl
      rw [Act.bind_of_ok hfree]
      refine Act.bind_of_ok hidle |>.trans (Act.bind_of_ok hfull |>.trans ?_)
      by_cases hfl : f.cells.Full i
      · rw [decide_eq_true hfl, if_pos rfl, if_pos hfl]
        rfl
      · rw [decide_eq_false hfl, if_neg Bool.false_ne_true, if_neg hfl]
        rfl
    · -- an entry that nobody holds
      obtain ⟨-, hlock⟩ := Words.of_idle? h'
      rw [Act.bind_of_ok hfree]
      refine Act.bind_of_ok hidle |>.trans (Act.bind_of_ok (moveStamp_reserved hn hs hi e) |>.trans ?_)
      exact Act.bind_of_ok (give_reserved hn hs hi hlock _ (by simp [Cell.Within]) k)
  · -- a free entry
    obtain ⟨-, hlock⟩ := Words.of_free? h
    rw [Act.bind_of_ok hfree]
    exact Act.bind_of_ok (give_reserved hn hs hi hlock [] (List.forall_mem_nil _) k)

/-- What is done with the lock of the slot held is what the plan says, also where it waits. -/
theorem register_eq_holdingSlot [Processor] (hn : headerSize ≤ n) {i : Nat} (hi : i < slotsIn n) (p : Partition)
    (txn : Txn) : ∃ body, register (upTo n) i p txn = holdingSlot (upTo n) i body ∧ ∀ g : Image, n ≤ g.size →
      body g = ((g.cells.register i p txn).1, g.edits (g.cells.register i p txn).2) := by
  refine ⟨_, rfl, fun g hg => ?_⟩
  have hslot := isSlotOf_apply (f := g) hn hi p
  rw [Words.register]
  by_cases hp : g.cells.Tracks i p
  · rw [if_pos hp, Words.withKey]
    rw [decide_eq_true hp] at hslot
    refine Act.bind_of_ok hslot |>.trans ?_
    cases hk : txn.key? with
    | none => exact Act.bind_of_error (entryOf_of_no_key hk)
    | some k =>
      refine Act.bind_of_ok (entryOf_of_key hn hi hk) |>.trans ?_
      cases he : g.cells.entryWith? i k with
      | some e => simp only [he]; rfl
      | none => simpa only [he] using Act.bind_of_ok (keyOf_of_key hk) |>.trans (claim_apply hn hg hi p k)
  · rw [if_neg hp]
    rw [decide_eq_false hp] at hslot
    exact Act.bind_of_ok hslot

/-- Registering a version does what its plan says. -/
theorem register_follows [Processor] (hn : headerSize ≤ n) (hs : n ≤ f.size) {i : Nat} (hi : i < slotsIn n)
    (hl : f.cells (.slotLock i) = 0) (p : Partition) (txn : Txn) :
    (register (upTo n) i p txn).Follows f (f.cells.register i p txn) := by
  obtain ⟨body, hbody, happly⟩ := register_eq_holdingSlot hn hi p txn
  rw [hbody]
  exact holdingSlot_follows_of (fun w => w.register i p txn) hn hs hi hl (fun ed hed => (Words.of_mem_register hed).1)
    (fun v => Words.register_set_guard (Cell.isGuard_slotLock i) v i p txn) fun g hg _ => .of_eq (happly g hg)

/-- What is left to do once the last version of a slot has gone: the slot retires and is not counted any more. -/
theorem retire_apply (hn : headerSize ≤ n) (hs : n ≤ f.size) {i : Nat} (hi : i < slotsIn n) (e : EntryIndex) :
    (do
      (upTo n).put (.state i) SlotState.retired
      (upTo n).alter .liveSlots (· - 1)
      moveStamp (upTo n)
      return true : Act Image Bool) (f.edits [.unregister i e]) = (.ok true, f.edits [.retire i e]) := by
  have hf := holds_of_lt_slotsIn hn hs hi
  refine Act.bind_of_ok (put_written hn (.state i) hi SlotState.retired _) |>.trans
    (Act.bind_of_ok (alter_written hn .liveSlots trivial _ hf _ (by simp [Edit.writes, Cell.Within])) |>.trans
      (Act.bind_of_ok (alter_written hn .stamp trivial _ hf _ (by simp [Edit.writes, Cell.Within])) |>.trans
        (congrArg (Prod.mk _) ?_)))
  refine setCells_eq_edit hf rfl (by simp [Edit.writes, Cell.Within]) ?_
  funext c
  cases c <;> simp [Words.set_apply, Words.edit, Edit.writes]

/-- Removing a version does what its plan says. -/
theorem untrack_follows [Processor] (hn : headerSize ≤ n) (hs : n ≤ f.size) (hl : ∀ i, f.cells (.slotLock i) = 0)
    (p : Partition)
    (txn : Txn) : (untrack (upTo n) p txn).Follows f (f.cells.untrack (min f.cells.used (slotsIn n)) p txn) := by
  rw [Words.untrack]
  refine .after (slotOf_apply hn p) ?_
  cases hp : f.cells.slot? (min f.cells.used (slotsIn n)) p with
  | none => exact .pure _ f
  | some i =>
    have hi : i < slotsIn n := by
      have := (Words.of_slot? hp).1
      omega
    refine holdingSlot_follows_of (fun w => w.unregister i txn) hn hs hi (hl i)
      (fun ed hed => (Words.of_mem_unregister hed).1)
      (fun v => Words.unregister_set_guard (Cell.isGuard_slotLock i) v i txn) fun g hg _ => ?_
    have hh := holds_of_lt_slotsIn hn hg hi
    rw [Words.unregister, Words.withKey]
    cases hk : txn.key? with
    | none => exact .of_eq (Act.bind_of_error (entryOf_of_no_key hk))
    | some k =>
      refine .after (entryOf_of_key hn hi hk) ?_
      cases he : g.cells.entryWith? i k with
      | none => simpa only [he] using .pure _ g
      | some e =>
        have hreserve := reserve_apply (f := g) hn hi e
        by_cases hlock : g.cells (.lock i e) = 0
        · rw [if_pos hlock, decide_eq_true hlock] at hreserve
          have hgiven := give_reserved hn hg hi hlock [(.stamp, g.cells .stamp + 1)] (by simp [Cell.Within]) 0
          have hvacant := isVacant_apply (f := g.edit (.unregister i e)) hn hi
          have hcells : (g.edit (.unregister i e)).cells = g.cells.edit (.unregister i e) := Image.cells_edit hh
          simp only [he, if_pos hlock]
          apply Act.Follows.of_eq
          refine Act.bind_of_ok hreserve |>.trans (Act.bind_of_ok (moveStamp_reserved hn hg hi e) |>.trans
            (Act.bind_of_ok hgiven |>.trans (Act.bind_of_ok hvacant |>.trans ?_)))
          have hva : (∀ d, (g.edit (.unregister i e)).cells (.key i d) = 0) ↔ g.cells.Alone i e := by
            rw [hcells]
            exact Words.vacant_unregister_iff
          by_cases ha : g.cells.Alone i e
          · rw [decide_eq_true (hva.mpr ha), if_pos rfl, if_pos ha]
            exact retire_apply hn hg hi e
          · rw [decide_eq_false (hva.not.mpr ha), if_neg Bool.false_ne_true, if_neg ha]
            rfl
        · rw [if_neg hlock, decide_eq_false hlock] at hreserve
          simp only [he, if_neg hlock]
          exact .after hreserve (.pure _ g)

/-- One live slot more, once other words are written. -/
theorem admit_written (hn : headerSize ≤ n) {i : Nat} (hf : f.Holds i) {ws : List (Cell × UInt64)}
    (hws : ∀ x ∈ ws, x.1.Within (i + 1)) (hne : ∀ x ∈ ws, x.1 ≠ .liveSlots ∧ x.1 ≠ .stamp) :
    (do
      (upTo n).alter .liveSlots (· + 1)
      moveStamp (upTo n)
      return i : Act Image Nat) (f.setCells ws) =
      (.ok i, f.setCells (ws ++ [(.liveSlots, f.cells .liveSlots + 1), (.stamp, f.cells .stamp + 1)])) := by
  have hlive : f.cells.setAll ws .liveSlots = f.cells .liveSlots := Words.setAll_of_notMem _ fun x hx => (hne x hx).1
  have hstamp : f.cells.setAll (ws ++ [(.liveSlots, f.cells .liveSlots + 1)]) .stamp = f.cells .stamp := by
    have hne' : Cell.stamp ≠ .liveSlots := nofun
    rw [Words.setAll_append, Words.setAll_cons, Words.setAll_nil, Words.set_of_ne _ hne']
    exact Words.setAll_of_notMem _ fun x hx => (hne x hx).2
  rw [Act.bind_of_ok (alter_written hn .liveSlots trivial _ hf ws hws), hlive]
  refine Act.bind_of_ok (alter_written hn .stamp trivial _ hf _ ?_) |>.trans ?_
  · intro x hx
    rcases List.mem_append.mp hx with hx | hx
    · exact hws x hx
    · rw [List.mem_singleton.mp hx]
      trivial
  · rw [hstamp, List.append_assoc]
    rfl

/-- What is left to do once the partition is named and the entry given: the slot becomes live and is counted. -/
theorem enlist_apply (hn : headerSize ≤ n) (hs : n ≤ f.size) {i : Nat} (hi : i < slotsIn n) (e : EntryIndex)
    (p : Partition) (k : UInt64) :
    (do
      (upTo n).put (.state i) SlotState.live
      if i = (← usedSlots (upTo n)).toNat then (upTo n).put .usedSlots (UInt64.ofNat (i + 1))
      (upTo n).alter .liveSlots (· + 1)
      moveStamp (upTo n)
      return i : Act Image Nat) (f.setCells [(.partition i, p.word), (.key i e, k)]) =
      (.ok i, f.edits [.track i e p k]) := by
  have hf := holds_of_lt_slotsIn hn hs hi
  have hin : ∀ x ∈ [(Cell.partition i, p.word), (.key i e, k), (.state i, SlotState.live)], x.1.Within (i + 1) := by
    simp [Cell.Within]
  have hused : (f.setCells [(.partition i, p.word), (.key i e, k), (.state i, SlotState.live)]).cells .usedSlots =
      f.cells .usedSlots := by
    rw [Image.cells_setCells fun x hx => hf.offset_add_le (hin x hx)]
    exact Words.setAll_of_notMem _ (by simp)
  refine Act.bind_of_ok (put_written hn (.state i) hi SlotState.live _) |>.trans
    (Act.bind_of_ok (usedSlots_apply hn) |>.trans ?_)
  rw [List.cons_append, List.cons_append, List.nil_append, hused]
  by_cases hlast : i = f.cells.used
  · have hdone : f.setCells [(.partition i, p.word), (.key i e, k), (.state i, SlotState.live),
        (.usedSlots, UInt64.ofNat (i + 1)), (.liveSlots, f.cells .liveSlots + 1), (.stamp, f.cells .stamp + 1)] =
        f.edits [.track i e p k] := by
      rw [Image.edits_singleton, Image.edit, Edit.writes, if_pos hlast]
    refine congrFun (if_pos hlast) _ |>.trans (Act.bind_of_ok (put_written hn .usedSlots trivial _ _) |>.trans ?_)
    rw [← hdone]
    exact admit_written hn hf (by simp [Cell.Within]) (by simp)
  · have hdone : f.setCells [(.partition i, p.word), (.key i e, k), (.state i, SlotState.live),
        (.liveSlots, f.cells .liveSlots + 1), (.stamp, f.cells .stamp + 1)] = f.edits [.track i e p k] := by
      rw [Image.edits_singleton]
      refine setCells_eq_edit hf rfl (by simp [Cell.Within]) ?_
      rw [Words.edit, Edit.writes, if_neg hlast]
      funext c
      cases c <;> simp [Words.set_apply]
    refine congrFun (if_neg hlast) _ |>.trans ?_
    rw [← hdone]
    exact admit_written hn hf hin (by simp)

/-- Tracking a partition in the next slot does what its plan says. -/
theorem track_follows [Processor] (hn : headerSize ≤ n) (hs : n ≤ f.size)
    (hi : f.cells.next (min f.cells.used (slotsIn n)) < slotsIn n)
    (hl : f.cells (.slotLock (f.cells.next (min f.cells.used (slotsIn n)))) = 0) (p : Partition) (txn : Txn) :
    (track (upTo n) p txn).Follows f (f.cells.track (min f.cells.used (slotsIn n)) p txn) := by
  refine .after (nextSlot_apply hn) ?_
  refine holdingSlot_follows_of (fun w => w.track (min f.cells.used (slotsIn n)) p txn) hn hs hi hl
    (fun ed hed => (Words.of_mem_track hed).1)
    (fun v => Words.track_set_guard (Cell.isGuard_slotLock _) v _ p txn) fun g hg hcells => ?_
  have hnext : g.cells.next (min f.cells.used (slotsIn n)) = f.cells.next (min f.cells.used (slotsIn n)) := by
    rw [hcells, Words.next_set_guard (Cell.isGuard_slotLock _)]
  rw [Words.track, hnext]
  generalize f.cells.next (min f.cells.used (slotsIn n)) = i at hi
  have hh := holds_of_lt_slotsIn hn hg hi
  have hnamed : g.setCell (.partition i) p.word = g.setCells [(.partition i, p.word)] := rfl
  have hcells₁ : (g.setCell (.partition i) p.word).cells = g.cells.set (.partition i) p.word :=
    Image.cells_setCell (hh.offset_add_le (c := .partition i) (Nat.lt_succ_self i)) _
  have htake := takeFree_apply (f := g.setCell (.partition i) p.word) hn hi
  rw [hcells₁, Words.free?_set_partition] at htake
  have hput := put_apply hn (.partition i) hi p.word g
  cases he : g.cells.free? i with
  | none =>
    rw [he] at htake
    refine .of_waits ?_
    rw [Act.bind_of_ok hput, Act.bind_of_ok htake]
    rfl
  | some e =>
    obtain ⟨-, hlock⟩ := Words.of_free? he
    have hlock₁ : (g.setCell (.partition i) p.word).cells (.lock i e) = 0 := by
      rw [hcells₁, Words.set_of_ne _ Cell.noConfusion, hlock]
    rw [he] at htake
    cases hk : txn.key? with
    | none =>
      refine .of_eq (Act.bind_of_ok hput |>.trans (Act.bind_of_ok htake |>.trans ?_))
      exact Act.bind_of_error (keyOf_of_no_key hk)
    | some k =>
      have hgive : give (upTo n) i e k ((g.setCell (.partition i) p.word).setCell (.lock i e) LockWord.reservedBit) =
          (.ok (), g.setCells [(.partition i, p.word), (.key i e, k)]) :=
        give_reserved hn (by rw [Image.size_setCell]; exact hg) hi hlock₁ [] (List.forall_mem_nil _) k
      show Act.Follows _ g (.ok i, [.track i e p k])
      refine .of_eq (Act.bind_of_ok hput |>.trans (Act.bind_of_ok htake |>.trans ?_))
      refine Act.bind_of_ok (keyOf_of_key hk) |>.trans (Act.bind_of_ok hgive |>.trans ?_)
      exact enlist_apply hn hg hi e p k

end Table

end VersionBoard
