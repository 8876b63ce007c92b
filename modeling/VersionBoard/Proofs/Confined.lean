import VersionBoard.Proofs.FollowLocks
import VersionBoard.Proofs.Growth

/-!
# What a mapping keeps calls from

A handle may have mapped any part of a file that holds the header. Whatever is in
the file then, a call on its table reads and writes only what is mapped: on files
that begin with the same mapped bytes it ends the same and leaves these bytes the
same, and behind them nothing changes (`Act.Confined`). That holds of every access
to a word, which either lies in the mapping or is a violation, and of all that is
made of such accesses.
-/

namespace VersionBoard

/-- The files are at least `n` bytes long, and the first `n` bytes are the same. -/
structure Image.Alike (n : Nat) (f g : Image) : Prop where
  le_size : n ≤ f.size
  le_size' : n ≤ g.size
  byte : ∀ b, b < n → g.byte b = f.byte b

/-- The action reads and writes nothing but the first `n` bytes of a file that has so many. -/
structure Act.Confined {α : Type} (n : Nat) (x : Act Image α) : Prop where
  /-- What is behind them makes no difference to how it ends and to what it leaves of them. -/
  reads : ∀ f g, f.Alike n g → (x g).1 = (x f).1 ∧ (x f).2.Alike n (x g).2
  /-- What is behind them stays. -/
  writes : ∀ f : Image, n ≤ f.size → (x f).2.size = f.size ∧ ∀ b, n ≤ b → (x f).2.byte b = f.byte b

namespace Act

variable {σ α : Type}

/-- Do `x`; the answer is how it ended. -/
def ended (x : Act σ α) : Act σ (Except Halt α) := fun s => (.ok (x s).1, (x s).2)

/-- End as another action did, after `cleanup` unless that one waits. -/
def settle (cleanup : Act σ Unit) : Except Halt α → Act σ α
  | .error (.waits w) => wait w
  | .error h => do
    cleanup
    halt h
  | .ok a => do
    cleanup
    return a

/-- What is done afterwards is done next, once it is known how the action ended. -/
theorem afterwards_eq (x : Act σ α) (cleanup : Act σ Unit) : x.afterwards cleanup = x.ended >>= settle cleanup := by
  funext s
  refine Eq.trans ?_ (bind_of_ok (show x.ended s = (.ok (x s).1, (x s).2) from rfl)).symm
  unfold afterwards
  rcases x s with ⟨(_ | _ | w) | a, t⟩
  case error.waits => rfl
  all_goals
    unfold settle
    dsimp only
    rw [bind_apply]
    rcases cleanup t with ⟨_ | _, u⟩ <;> rfl

end Act

namespace Act.Confined

variable {α β : Type} {n : Nat} {x : Act Image α}

/-! ### Actions made of actions -/

/-- What only looks at the file, and only at its first bytes. -/
theorem of_query {q : Image → Except Halt α} (hx : ∀ f, x f = (q f, f)) (hq : ∀ f g : Image, f.Alike n g → q g = q f) :
    x.Confined n where
  reads f g h := by
    rw [hx, hx]
    exact ⟨hq f g h, h⟩
  writes f _ := by
    rw [hx]
    exact ⟨rfl, fun _ _ => rfl⟩

theorem pure (a : α) : (Pure.pure a : Act Image α).Confined n := of_query (q := fun _ => .ok a) (fun _ => rfl) fun _ _ _ => rfl

theorem halt (h : Halt) : (Act.halt h : Act Image α).Confined n :=
  of_query (q := fun _ => .error h) (fun _ => rfl) fun _ _ _ => rfl

theorem bind {g : α → Act Image β} (hx : x.Confined n) (hg : ∀ a, (g a).Confined n) : (x >>= g).Confined n where
  reads f f' h := by
    obtain ⟨hend, halike⟩ := hx.reads f f' h
    rcases hxf : x f with ⟨e | a, t⟩ <;> rcases hxf' : x f' with ⟨e' | a', t'⟩ <;> rw [hxf, hxf'] at hend halike <;>
      cases hend
    · rw [Act.bind_of_error hxf, Act.bind_of_error hxf']
      exact ⟨rfl, halike⟩
    · rw [Act.bind_of_ok hxf, Act.bind_of_ok hxf']
      exact (hg a).reads t t' halike
  writes f hf := by
    obtain ⟨hsize, hbyte⟩ := hx.writes f hf
    rcases hxf : x f with ⟨e | a, t⟩ <;> rw [hxf] at hsize hbyte
    · rw [Act.bind_of_error hxf]
      exact ⟨hsize, hbyte⟩
    · rw [Act.bind_of_ok hxf]
      obtain ⟨hsize', hbyte'⟩ := (hg a).writes t (by rw [hsize]; exact hf)
      exact ⟨hsize'.trans hsize, fun b hb => (hbyte' b hb).trans (hbyte b hb)⟩

theorem map (hx : x.Confined n) (g : α → β) : (g <$> x).Confined n := by
  rw [← bind_pure_comp]
  exact hx.bind fun a => .pure _

theorem findM? {g : β → Act Image Bool} (hg : ∀ b, (g b).Confined n) (l : List β) : (l.findM? g).Confined n := by
  induction l with
  | nil => exact .pure none
  | cons b l ih =>
    refine (hg b).bind fun found => ?_
    cases found with
    | true => exact .pure _
    | false => exact ih

theorem allM {g : β → Act Image Bool} (hg : ∀ b, (g b).Confined n) (l : List β) : (l.allM g).Confined n := by
  induction l with
  | nil => exact .pure true
  | cons b l ih =>
    refine (hg b).bind fun holds => ?_
    cases holds with
    | true => exact ih
    | false => exact .pure _

theorem mapM {g : β → Act Image α} (hg : ∀ b, (g b).Confined n) (l : List β) : (l.mapM g).Confined n := by
  induction l with
  | nil => exact .pure []
  | cons b l ih =>
    rw [List.mapM_cons]
    exact (hg b).bind fun a => ih.bind fun as => .pure _

/-- What is done afterwards looks at how the action ended as at an answer. -/
theorem afterwards {cleanup : Act Image Unit} (hx : x.Confined n) (hc : cleanup.Confined n) :
    (x.afterwards cleanup).Confined n := by
  have hended : x.ended.Confined n :=
    ⟨fun f g h => ⟨congrArg Except.ok (hx.reads f g h).1, (hx.reads f g h).2⟩, hx.writes⟩
  rw [Act.afterwards_eq]
  refine hended.bind fun r => ?_
  rcases r with (_ | _ | w) | a
  · exact hc.bind fun _ => .halt _
  · exact hc.bind fun _ => .halt _
  · exact .halt _
  · exact hc.bind fun _ => .pure _

end Act.Confined

/-! ### Accesses to words -/

namespace Mapping

open Act (Confined)

variable {α : Type} {n : Nat}

/-- A word that lies among the first bytes is read from them. -/
theorem confined_load (n o : Nat) : ((upTo n).load o).Confined n := by
  refine .of_query (load_upTo_apply n o) ?_
  intro f g h
  split_ifs with ha hn
  · rfl
  · rfl
  · rw [Image.word_eq, Image.word_eq, Image.read_congr fun b _ hb => h.byte b (by omega)]

theorem store_upTo_of_not {o : Nat} (h : ¬ (o % 8 = 0 ∧ o + 8 ≤ n)) (v : UInt64) :
    ∃ x, (upTo n).store o v = Act.violate x := by
  by_cases ha : o % 8 = 0
  · refine ⟨.beyondMapping o n, ?_⟩
    funext f
    simp [store, check, upTo, ha, show n < o + 8 by omega, Act.bind_apply, Act.violate, Act.halt]
  · refine ⟨.misaligned o, ?_⟩
    funext f
    simp [store, check, upTo, ha, Act.bind_apply, Act.violate, Act.halt]

theorem confined_store (n o : Nat) (v : UInt64) : ((upTo n).store o v).Confined n := by
  by_cases h : o % 8 = 0 ∧ o + 8 ≤ n
  · obtain ⟨ha, hn⟩ := h
    constructor
    · intro f g h
      rw [store_upTo ha hn, store_upTo ha hn]
      refine ⟨rfl, by simpa using h.le_size, by simpa using h.le_size', fun b hb => ?_⟩
      have := h.le_size
      have := h.le_size'
      simp only [Image.byte_setWord, h.byte b hb]
      split_ifs <;> first | rfl | omega
    · intro f hf
      rw [store_upTo ha hn]
      refine ⟨Image.size_setWord .., fun b hb => ?_⟩
      rw [Image.byte_setWord, if_neg (by omega)]
  · obtain ⟨x, hx⟩ := store_upTo_of_not h v
    rw [hx]
    exact .halt _

theorem confined_get (n : Nat) (c : Cell) : ((upTo n).get c).Confined n := confined_load n c.offset

theorem confined_put (n : Nat) (c : Cell) (v : UInt64) : ((upTo n).put c v).Confined n := confined_store n c.offset v

theorem confined_alter (n : Nat) (c : Cell) (g : UInt64 → UInt64) : ((upTo n).alter c g).Confined n :=
  (confined_load n c.offset).bind fun v => confined_store n c.offset (g v)

theorem confined_exchange [Processor] (n o : Nat) (change : UInt64 → Option UInt64) :
    ((upTo n).exchange o change).Confined n := by
  rw [exchange_eq]
  refine (confined_load n o).bind fun w => ?_
  cases change w with
  | none => exact .pure _
  | some v => exact (confined_store n o v).bind fun _ => .pure _

theorem confined_take [Processor] (n o : Nat) : ((upTo n).take o).Confined n := by
  refine (confined_exchange n o take?).bind fun w => ?_
  split_ifs
  · exact .halt _
  · exact .pure _

theorem confined_holding [Processor] {body : Act Image α} (hbody : body.Confined n) (o : Nat) :
    ((upTo n).holding o body).Confined n :=
  (confined_take n o).bind fun _ => hbody.afterwards (confined_store n o 0)

end Mapping

/-! ### Calls on a table -/

namespace Table

open Act (Confined)
open Mapping (upTo confined_get confined_put confined_alter confined_exchange confined_holding)

variable {α : Type} {n : Nat}

theorem confined_visibleSlots (n : Nat) : (visibleSlots (upTo n)).Confined n :=
  (confined_get n .usedSlots).bind fun _ => .pure _

theorem confined_isSlotOf (n i : Nat) (p : Partition) : (isSlotOf (upTo n) i p).Confined n :=
  (confined_get n (.state i)).bind fun _ => (confined_get n (.partition i)).bind fun _ => .pure _

theorem confined_slotOf (n : Nat) (p : Partition) : (slotOf (upTo n) p).Confined n :=
  (confined_visibleSlots n).bind fun slots => .findM? (fun i => confined_isSlotOf n i p) slots

theorem confined_nextSlot (n : Nat) : (nextSlot (upTo n)).Confined n :=
  (confined_visibleSlots n).bind fun slots =>
    (Confined.findM? (fun i => (confined_get n (.state i)).bind fun _ => .pure _) slots).bind fun _ =>
      (confined_get n .usedSlots).bind fun _ => .pure _

theorem confined_keyOf (n : Nat) (txn : Txn) : (keyOf txn).Confined n := by
  rw [keyOf]
  cases txn.key? with
  | none => exact .halt _
  | some k => exact .pure k

theorem confined_entryOf (n i : Nat) (txn : Txn) : (entryOf (upTo n) i txn).Confined n :=
  (confined_keyOf n txn).bind fun _ => .findM? (fun e => (confined_get n (.key i e)).bind fun _ => .pure _) _

theorem confined_isEntryOf (n i : Nat) (e : EntryIndex) (txn : Txn) : (isEntryOf (upTo n) i e txn).Confined n :=
  (confined_get n (.key i e)).bind fun _ => (confined_keyOf n txn).bind fun _ => .pure _

theorem confined_isVacant (n i : Nat) : (isVacant (upTo n) i).Confined n :=
  .allM (fun e => (confined_get n (.key i e)).bind fun _ => .pure _) _

theorem confined_entryState (n i : Nat) (e : EntryIndex) : (entryState (upTo n) i e).Confined n :=
  (confined_get n (.key i e)).bind fun _ => (confined_get n (.lock i e)).bind fun _ => .pure _

theorem confined_reserve (n i : Nat) (e : EntryIndex) : (reserve (upTo n) i e).Confined n := by
  refine (confined_get n (.lock i e)).bind fun w => ?_
  split_ifs
  · exact (confined_put n (.lock i e) _).bind fun _ => .pure _
  · exact .pure _

theorem confined_give (n i : Nat) (e : EntryIndex) (k : UInt64) : (give (upTo n) i e k).Confined n :=
  (confined_put n (.key i e) k).bind fun _ => confined_put n (.lock i e) 0

theorem confined_takeFree (n i : Nat) : (takeFree (upTo n) i).Confined n := by
  refine .findM? (fun e => (confined_get n (.key i e)).bind fun k => ?_) _
  split_ifs
  · exact confined_reserve n i e
  · exact .pure _

theorem confined_takeIdle (n i : Nat) : (takeIdle (upTo n) i).Confined n := by
  refine .findM? (fun e => (confined_get n (.key i e)).bind fun k => ?_) _
  split_ifs
  · exact .pure _
  · exact confined_reserve n i e

theorem confined_moveStamp (n : Nat) : (moveStamp (upTo n)).Confined n := confined_alter n .stamp _

theorem confined_holdingSlot [Processor] {body : Act Image α} (i : Nat) (hbody : body.Confined n) :
    (holdingSlot (upTo n) i body).Confined n := by
  rw [holdingSlot, inSlot]
  split_ifs
  · exact confined_holding hbody _
  · exact .halt _

theorem confined_register [Processor] (n i : Nat) (p : Partition) (txn : Txn) :
    (register (upTo n) i p txn).Confined n := by
  refine confined_holdingSlot i ((confined_isSlotOf n i p).bind fun tracks => ?_)
  split_ifs
  · exact .pure _
  refine (confined_entryOf n i txn).bind fun known => ?_
  cases known with
  | some e => exact .pure _
  | none =>
    refine (confined_keyOf n txn).bind fun k => (confined_takeFree n i).bind fun free => ?_
    cases free with
    | some e => exact (confined_give n i e k).bind fun _ => .pure _
    | none =>
      refine (confined_takeIdle n i).bind fun idle => ?_
      cases idle with
      | some e => exact (confined_moveStamp n).bind fun _ => (confined_give n i e k).bind fun _ => .pure _
      | none =>
        refine (Confined.allM (fun e => (confined_get n (.key i e)).bind fun _ => .pure _) _).bind fun full => ?_
        split_ifs <;> exact .halt _

/-! #### Partitions that come and go -/

theorem confined_track [Processor] (n : Nat) (p : Partition) (txn : Txn) : (track (upTo n) p txn).Confined n := by
  refine (confined_nextSlot n).bind fun i => confined_holdingSlot i ?_
  refine (confined_put n (.partition i) _).bind fun _ => (confined_takeFree n i).bind fun free => ?_
  cases free with
  | none => exact .halt _
  | some e =>
    refine (confined_keyOf n txn).bind fun k => (confined_give n i e k).bind fun _ =>
      (confined_put n (.state i) _).bind fun _ => (confined_get n .usedSlots).bind fun used => ?_
    split_ifs
    · exact (confined_put n .usedSlots _).bind fun _ => (confined_alter n .liveSlots _).bind fun _ =>
        (confined_moveStamp n).bind fun _ => .pure _
    · exact (confined_alter n .liveSlots _).bind fun _ => (confined_moveStamp n).bind fun _ => .pure _

theorem confined_untrack [Processor] (n : Nat) (p : Partition) (txn : Txn) : (untrack (upTo n) p txn).Confined n := by
  refine (confined_slotOf n p).bind fun slot => ?_
  cases slot with
  | none => exact .pure _
  | some i =>
    refine confined_holdingSlot i ((confined_entryOf n i txn).bind fun entry => ?_)
    cases entry with
    | none => exact .pure _
    | some e =>
      refine (confined_reserve n i e).bind fun reserved => ?_
      cases reserved with
      | false => exact .pure _
      | true =>
        refine (confined_moveStamp n).bind fun _ => (confined_give n i e 0).bind fun _ =>
          (confined_isVacant n i).bind fun vacant => ?_
        split_ifs
        · exact (confined_put n (.state i) _).bind fun _ => (confined_alter n .liveSlots _).bind fun _ =>
            (confined_moveStamp n).bind fun _ => .pure _
        · exact .pure _

/-! #### Lock operations and questions -/

theorem confined_find (n : Nat) (p : Partition) (txn : Txn) : (find (upTo n) p txn).Confined n := by
  refine (confined_slotOf n p).bind fun slot => ?_
  cases slot with
  | none => exact .pure _
  | some i => exact (confined_entryOf n i txn).bind fun _ => .pure _

theorem confined_findOrRegister [Processor] (n : Nat) (p : Partition) (txn : Txn) :
    (findOrRegister (upTo n) p txn).Confined n := by
  refine (confined_slotOf n p).bind fun slot => ?_
  cases slot with
  | none => exact .pure _
  | some i =>
    refine (confined_entryOf n i txn).bind fun entry => ?_
    cases entry with
    | some e => exact .pure _
    | none =>
      refine (confined_register n i p txn).bind fun r => ?_
      cases r with
      | known e => exact .pure _
      | fresh e => exact .pure _
      | gone => exact .halt _

theorem confined_stillBelongs (n : Nat) (seen : UInt64) (i : Nat) (e : EntryIndex) (p : Partition) (txn : Txn) :
    (stillBelongs (upTo n) seen i e p txn).Confined n := by
  refine (confined_get n .stamp).bind fun stamp => ?_
  split_ifs
  · exact .pure _
  refine (confined_isSlotOf n i p).bind fun tracks => ?_
  split_ifs
  · exact confined_isEntryOf n i e txn
  · exact .pure _

theorem confined_acquireRead [Processor] (n : Nat) (p : Partition) (txn : Txn) :
    (acquireRead (upTo n) p txn).Confined n := by
  refine (confined_get n .stamp).bind fun seen => (confined_findOrRegister n p txn).bind fun place => ?_
  rcases place with _ | ⟨i, e⟩
  · exact .pure _
  refine (confined_exchange n (Cell.lock i e).offset _).bind fun w => ?_
  cases LockWord.addReader w with
  | reserved => exact .halt _
  | writer => exact .pure _
  | overflow => exact .halt _
  | added w =>
    refine (confined_stillBelongs n seen i e p txn).bind fun still => ?_
    split_ifs
    · exact (confined_alter n .readLocks _).bind fun _ => .pure _
    · exact (confined_alter n (.lock i e) _).bind fun _ => .halt _

theorem confined_acquireWrite [Processor] (n : Nat) (p : Partition) (txn : Txn) :
    (acquireWrite (upTo n) p txn).Confined n := by
  refine (confined_get n .stamp).bind fun seen => (confined_findOrRegister n p txn).bind fun place => ?_
  rcases place with _ | ⟨i, e⟩
  · exact .pure _
  refine (confined_get n (.lock i e)).bind fun w => ?_
  cases LockWord.addWriter w with
  | reserved => exact .halt _
  | busy => exact .pure _
  | acquired w =>
    refine (confined_put n (.lock i e) w).bind fun _ => (confined_stillBelongs n seen i e p txn).bind fun still => ?_
    split_ifs
    · exact .pure _
    · exact (confined_alter n (.lock i e) _).bind fun _ => .halt _

/-- What is done with a registered version looks for its entry first. -/
theorem confined_finding {g : Option (Nat × EntryIndex) → Act Image α} (p : Partition) (txn : Txn)
    (hnone : (g none).Confined n) (hsome : ∀ i e, (g (some (i, e))).Confined n) :
    (find (upTo n) p txn >>= g).Confined n := by
  refine (confined_find n p txn).bind fun place => ?_
  rcases place with _ | ⟨i, e⟩
  · exact hnone
  · exact hsome i e

theorem confined_releaseRead [Processor] (n : Nat) (p : Partition) (txn : Txn) :
    (releaseRead (upTo n) p txn).Confined n := by
  refine confined_finding p txn (.halt _) fun i e => (confined_exchange n (Cell.lock i e).offset _).bind fun w => ?_
  cases LockWord.removeReader? w with
  | none => exact .halt _
  | some w => exact confined_alter n .readLocks _

theorem confined_releaseWrite (n : Nat) (p : Partition) (txn : Txn) : (releaseWrite (upTo n) p txn).Confined n := by
  refine confined_finding p txn (.halt _) fun i e => (confined_get n (.lock i e)).bind fun w =>
    (confined_put n (.lock i e) _).bind fun _ => ?_
  split_ifs
  · exact .halt _
  · exact .pure _

theorem confined_readerCount (n : Nat) (p : Partition) (txn : Txn) : (readerCount (upTo n) p txn).Confined n :=
  confined_finding p txn (.pure _) fun i e => (confined_get n (.lock i e)).bind fun _ => .pure _

theorem confined_hasWriter (n : Nat) (p : Partition) (txn : Txn) : (hasWriter (upTo n) p txn).Confined n :=
  confined_finding p txn (.pure _) fun i e => (confined_get n (.lock i e)).bind fun _ => .pure _

theorem confined_slotOfVersion (n : Nat) (p : Partition) (txn : Txn) : (slotOfVersion (upTo n) p txn).Confined n :=
  confined_finding p txn (.pure _) fun _ _ => .pure _

theorem confined_versions (n : Nat) (p : Partition) : (versions (upTo n) p).Confined n := by
  refine (confined_slotOf n p).bind fun slot => ?_
  cases slot with
  | none => exact .pure _
  | some i => exact (Confined.mapM (confined_entryState n i) _).bind fun _ => .pure _

end Table

/-- No call on a table reads or writes anything that is not mapped. -/
theorem TableCall.confined_run [Processor] (n : Nat) (c : TableCall) : (c.run (Mapping.upTo n)).Confined n := by
  cases c with
  | acquireRead p txn => exact (Table.confined_acquireRead n p txn).map _
  | acquireWrite p txn => exact (Table.confined_acquireWrite n p txn).map _
  | releaseRead p txn => exact (Table.confined_releaseRead n p txn).map _
  | releaseWrite p txn => exact (Table.confined_releaseWrite n p txn).map _
  | readerCount p txn => exact (Table.confined_readerCount n p txn).map _
  | hasWriter p txn => exact (Table.confined_hasWriter n p txn).map _
  | slotOfVersion p txn => exact (Table.confined_slotOfVersion n p txn).map _
  | versions p => exact (Table.confined_versions n p).map _
  | readLocks => exact (Mapping.confined_get n .readLocks).map _
  | partitionCount => exact (Mapping.confined_get n .liveSlots).map _
  | stamp => exact (Mapping.confined_get n .stamp).map _

end VersionBoard
