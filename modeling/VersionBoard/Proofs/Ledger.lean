import VersionBoard.Proofs.Accounts
import VersionBoard.Proofs.Runs
import Mathlib.Algebra.BigOperators.Finprod
import Mathlib.Data.Finite.Prod

/-!
# The ledger of locks

A history of requests and replies tells how many locks of a version are out: the
acquisitions that were granted, less the releases that were taken. The lock words
say the same (`Words.Ledger`), and so does every question about locks, through
whatever handle it is asked (`Shared.run_ledger`).
-/

namespace VersionBoard

/-! ### What a history tells -/

namespace Exchange

/-- The lock was acquired. -/
def Grants (mode : LockMode) (p : Partition) (txn : Txn) (x : Exchange) : Prop :=
  x.request.call? = some (.table (mode.acquire p txn)) ∧ x.answer? = some (.flag true)

/-- The lock was released. -/
def Returns (mode : LockMode) (p : Partition) (txn : Txn) (x : Exchange) : Prop :=
  x.request.call? = some (.table (mode.release p txn)) ∧ x.answer? = some .done

instance (mode : LockMode) (p : Partition) (txn : Txn) (x : Exchange) : Decidable (x.Grants mode p txn) :=
  inferInstanceAs (Decidable (_ ∧ _))

instance (mode : LockMode) (p : Partition) (txn : Txn) (x : Exchange) : Decidable (x.Returns mode p txn) :=
  inferInstanceAs (Decidable (_ ∧ _))

/-- By how much the exchange changes how many locks of a version are out. -/
def weight (x : Exchange) (mode : LockMode) (p : Partition) (txn : Txn) : Int :=
  match x.request.call? with
  | some c => c.weight x.answer? mode p txn
  | none => 0

theorem weight_eq (x : Exchange) (mode : LockMode) (p : Partition) (txn : Txn) :
    x.weight mode p txn = (if x.Grants mode p txn then 1 else 0) - if x.Returns mode p txn then 1 else 0 := by
  cases hc : x.request.call? with
  | none => simp [weight, Grants, Returns, hc]
  | some c =>
    simp only [weight, Grants, Returns, hc, BoardCall.weight, Option.some.injEq]
    split_ifs with ha hr hr
    · rw [ha.2] at hr
      cases hr.2
    · rfl
    · rfl
    · rfl

theorem weight_of_answer?_eq_none {x : Exchange} (hx : x.answer? = none) (mode : LockMode) (p : Partition) (txn : Txn) :
    x.weight mode p txn = 0 := by
  simp [weight_eq, Grants, Returns, hx]

theorem Fruitless.weight {x : Exchange} (hx : x.Fruitless) (mode : LockMode) (p : Partition) (txn : Txn) :
    x.weight mode p txn = 0 := by
  rcases hx with hx | hx
  · simp [Exchange.weight, hx]
  · exact weight_of_answer?_eq_none hx mode p txn

end Exchange

/-- How many locks of a version are out: the acquisitions granted less the releases taken. -/
def balance (h : List Exchange) (mode : LockMode) (p : Partition) (txn : Txn) : Int :=
  h.countP (Exchange.Grants mode p txn) - h.countP (Exchange.Returns mode p txn)

theorem balance_concat (h : List Exchange) (x : Exchange) (mode : LockMode) (p : Partition) (txn : Txn) :
    balance (h ++ [x]) mode p txn = balance h mode p txn + x.weight mode p txn := by
  simp only [balance, List.countP_append, List.countP_singleton, Exchange.weight_eq, decide_eq_true_eq]
  push_cast
  omega

theorem balance_append (h l : List Exchange) (mode : LockMode) (p : Partition) (txn : Txn) :
    balance (h ++ l) mode p txn = balance h mode p txn + balance l mode p txn := by
  simp only [balance, List.countP_append]
  push_cast
  omega

theorem balance_of_fruitless {h : List Exchange} (hh : ∀ x ∈ h, x.Fruitless) (mode : LockMode) (p : Partition)
    (txn : Txn) : balance h mode p txn = 0 := by
  induction h using List.reverseRecOn with
  | nil => rfl
  | append_singleton h x ih =>
    rw [balance_concat, ih fun y hy => hh y (List.mem_append_left _ hy),
      (hh x (List.mem_append_right _ List.mem_cons_self)).weight]
    rfl

/-! ### All versions together -/

instance : Finite (Partition × Txn) :=
  Finite.of_injective (fun v : Partition × Txn => (v.1.word.toFin, v.2.number.toFin)) fun u v h => by
    obtain ⟨h1, h2⟩ := Prod.mk.inj h
    exact Prod.ext (Partition.word_inj (UInt64.toFin_inj.mp h1)) (congrArg Txn.mk (UInt64.toFin_inj.mp h2))

/-- How many read locks are out. -/
noncomputable def readBalance (h : List Exchange) : Int := ∑ᶠ v : Partition × Txn, balance h .read v.1 v.2

theorem readBalance_concat (h : List Exchange) (x : Exchange) :
    readBalance (h ++ [x]) = readBalance h + ∑ᶠ v : Partition × Txn, x.weight .read v.1 v.2 := by
  simp only [readBalance, balance_concat]
  exact finsum_add_distrib (Set.toFinite _) (Set.toFinite _)

theorem readBalance_of_fruitless {h : List Exchange} (hh : ∀ x ∈ h, x.Fruitless) : readBalance h = 0 := by
  simp only [readBalance, balance_of_fruitless hh, finsum_zero]

/-! ### What the words say -/

/-- The words of a table say of every lock what the history tells. -/
structure Words.Ledger (w : Words) (h : List Exchange) : Prop where
  /-- Every version is held as often as its balance says. -/
  held : ∀ mode p txn k, txn.key? = some k → (LockWord.held mode (w.holding p k) : Int) = balance h mode p txn
  /-- The read locks are counted, as far as a word can count. -/
  counted : ((w .readLocks).toNat : Int) = readBalance h % 2 ^ 64

namespace Words.Ledger

variable {w u : Words} {h : List Exchange} {x : Exchange}

/-- The lock words stay, and the exchange counts nothing. -/
theorem still (hl : w.Ledger h) (hhold : ∀ p k, k ≠ 0 → u.holding p k = w.holding p k)
    (hlocks : u .readLocks = w .readLocks) (hx : ∀ mode p txn, x.weight mode p txn = 0) : u.Ledger (h ++ [x]) where
  held mode p txn k hk := by
    rw [balance_concat, hx, hhold p k (Txn.ne_zero_of_key? hk), hl.held mode p txn k hk, Int.add_zero]
  counted := by
    simp only [readBalance_concat, hx, finsum_zero, hlocks, hl.counted, Int.add_zero]

/-- One lock of one version moves, and the exchange counts it. -/
theorem moves (hl : w.Ledger h) (hw : w.Coherent) {es : List Edit} (ha : w.Allows es) {mode : LockMode} {p : Partition}
    {txn : Txn} {d : Int} (hes : w.Moves es mode p txn d)
    (hx : ∀ m q t, x.weight m q t = if m = mode ∧ q = p ∧ t = txn then d else 0) : (w.edits es).Ledger (h ++ [x]) := by
  obtain ⟨ds, ed, i, e, rfl, hds, hm, hed, hp, hkey⟩ := hes
  obtain ⟨hads, haed⟩ := Words.allows_concat.mp ha
  have hw' := hw.edits hads
  have hlast : w.edits (ds ++ [ed]) = (w.edits ds).edit ed := Words.edits_append ..
  rw [hlast]
  constructor
  · intro m q t k hk
    have hk0 := Txn.ne_zero_of_key? hk
    rw [balance_concat, ← hl.held m q t k hk, hx, ← holding_edits_of_still hw hads hds hk0]
    by_cases hv : q = p ∧ t = txn
    · obtain ⟨rfl, rfl⟩ := hv
      obtain rfl : k = w.edits ds (.key i e) := Option.some.inj (hk.symm.trans hkey)
      rw [holding_edit_of_locked hw' haed hed hk0 hp rfl, hw'.holding_eq hk0 hp rfl, held_edit hw' haed hm hed]
      simp only [and_true, and_self]
    · rw [holding_edit_of_ne hw' haed hk0, if_neg fun hn => hv hn.2, Int.add_zero]
      rintro j c hjc hq rfl
      obtain ⟨rfl, rfl⟩ : i = j ∧ e = c := by simpa [hed] using hjc
      exact hv ⟨hq.2.symm.trans hp.2, Txn.key?_inj hk hkey⟩
  · have hsum : ∑ᶠ v : Partition × Txn, x.weight .read v.1 v.2 = if LockMode.read = mode then d else 0 := by
      rw [finsum_eq_single _ (p, txn) fun v hv => ?_]
      · simp only [hx, and_true, and_self]
      · rw [hx, if_neg fun hn => hv (Prod.ext hn.2.1 hn.2.2)]
    rw [readLocks_edit hm, readLocks_edits_of_still hds, readBalance_concat, hsum, hl.counted]
    omega

end Words.Ledger

/-! ### Runs -/

namespace Shared

variable {s t : Shared} {f g : Image} {h : List Exchange}

/-- The ledger stays right with every request. -/
theorem Takes.ledger {r : Request} {reply? : Option (Reply Answer)} (ht : t.Takes f r reply? g) (hr : r.Trackable)
    (hf : f.Coherent) (hl : f.cells.Ledger h) : g.cells.Ledger (h ++ [⟨r, reply?⟩]) := by
  cases ht with
  | other hr' =>
    refine hl.still (fun _ _ _ => rfl) rfl fun mode p txn => ?_
    rw [Exchange.weight, hr']
  | unknown => exact hl.still (fun _ _ _ => rfl) rfl (Exchange.weight_of_answer?_eq_none rfl)
  | closed _ _ hreply =>
    refine hl.still (fun _ _ _ => rfl) rfl (Exchange.weight_of_answer?_eq_none ?_)
    exact Exchange.answer?_eq_none fun reply' h' => by
      obtain rfl := Option.some.inj h'
      exact ⟨_, hreply⟩
  | @call name c hd calls reply g hname hopen hsaid hdoes =>
    rcases hdoes.cells_cases with ⟨⟨e, -, he⟩, hcells⟩ | ⟨-, ho, hcells⟩
    · rw [hcells]
      refine hl.still (fun _ _ _ => rfl) rfl (Exchange.weight_of_answer?_eq_none ?_)
      exact Exchange.answer?_eq_none fun reply' h' => by
        obtain rfl := Option.some.inj h'
        exact ⟨_, he⟩
    · have hweight : ∀ mode p txn, (Exchange.mk (.call name c) (some reply)).weight mode p txn =
          c.weight (c.plan f.cells).1.toOption mode p txn := fun mode p txn => by rw [← ho]; rfl
      have ha := c.allows_plan hf.table
      rw [hcells]
      rcases c.agrees f.cells (hr c rfl) with ⟨hes, hx⟩ | ⟨mode, p, txn, d, hmoves, hx⟩
      · refine hl.still (fun p k hk => Words.holding_edits_of_still hf.table ha hes hk)
          (Words.readLocks_edits_of_still hes) fun mode p txn => ?_
        rw [hweight, hx]
      · refine hl.moves hf.table ha hmoves ?_
        intro m q t
        rw [hweight, hx]

/-- On a new board no locks are out. -/
theorem ledger_newBoard (hh : ∀ x ∈ h, x.Fruitless) (policy : Policy) {k : Nat}
    (hk : sizeFor policy.initialPartitions ≤ k) : (Image.newBoard policy k).cells.Ledger h := by
  rw [Image.cells_newBoard hk]
  have ha := Image.allows_seeds policy
  have hes : ∀ ed ∈ Image.seeds policy, ed.locked = none := by
    cases policy <;> decide
  constructor
  · intro mode p txn k hkey
    have hzero : Words.holding (fun _ => 0) p k = 0 := by
      rw [Words.holding]
      cases Words.at? (fun _ => 0) p k <;> rfl
    rw [Words.holding_edits_of_still Words.coherent_zero ha hes (Txn.ne_zero_of_key? hkey), balance_of_fruitless hh, hzero,
      LockWord.held_zero]
    rfl
  · rw [Words.readLocks_edits_of_still hes, readBalance_of_fruitless hh]
    rfl

/-- From the first successful opening on, the file is sound and the ledger right. -/
theorem run_booked [Processor] (hs : s.Fresh) {rs : List Request} (hkeys : ∀ r ∈ rs, r.Trackable) :
    ((s.run rs).2.Fresh ∧ ∀ x ∈ s.history rs, x.Fruitless ∧ ¬ x.Opens) ∨
      ∃ f, (s.run rs).2.Opened f ∧ f.Sound ∧ f.cells.Ledger (s.history rs) :=
  run_cases (P := fun h f => f.Sound ∧ f.cells.Ledger h) hs rs (run_unstuck hs hkeys)
    (fun _ policy _ hh hroom hk => ⟨Image.sound_newBoard policy hroom hk, ledger_newBoard hh policy hroom⟩)
    (fun _ _ _ r _ hr _ hP ht => ⟨ht.sound (hkeys r hr) hP.1, ht.ledger (hkeys r hr) hP.1.toCoherent hP.2⟩)

/-! ### What handles are told -/

variable {p : Partition} {txn : Txn} {k : UInt64}

theorem Opened.answers_readerCount [Processor] (ht : t.Opened f) (hk : txn.key? = some k) :
    t.Answers (.table (.readerCount p txn)) (.count (LockWord.readers (f.cells.holding p k))) := by
  have hplan : (TableCall.readerCount p txn).plan f.cells f.cells.used =
      (.ok (.count (LockWord.readers (f.cells.holding p k))), []) := by
    rw [TableCall.plan, Words.find_of_key hk, Words.holding]
    cases f.cells.at? p k with
    | none => exact congrArg (fun n => (Except.ok (Answer.count n), [])) LockWord.readers_zero.symm
    | some x => rfl
  exact (ht.gets_of_table hplan (by simp)).mono fun _ _ h => h.1

theorem Opened.answers_hasWriter [Processor] (ht : t.Opened f) (hk : txn.key? = some k) :
    t.Answers (.table (.hasWriter p txn)) (.flag (LockWord.hasWriter (f.cells.holding p k))) := by
  have hplan : (TableCall.hasWriter p txn).plan f.cells f.cells.used =
      (.ok (.flag (LockWord.hasWriter (f.cells.holding p k))), []) := by
    rw [TableCall.plan, Words.find_of_key hk, Words.holding]
    cases f.cells.at? p k with
    | none => exact congrArg (fun b => (Except.ok (Answer.flag b), [])) LockWord.hasWriter_zero.symm
    | some x => rfl
  exact (ht.gets_of_table hplan (by simp)).mono fun _ _ h => h.1

theorem Opened.answers_slotOfVersion [Processor] (ht : t.Opened f) (hk : txn.key? = some k) :
    t.Answers (.table (.slotOfVersion p txn)) (.slot ((f.cells.at? p k).map (·.1))) := by
  have hplan : (TableCall.slotOfVersion p txn).plan f.cells f.cells.used =
      (.ok (.slot ((f.cells.at? p k).map (·.1))), []) := by
    rw [TableCall.plan, Words.find_of_key hk]
    rfl
  exact (ht.gets_of_table hplan (by simp)).mono fun _ _ h => h.1

theorem Opened.answers_readLocks [Processor] (ht : t.Opened f) :
    t.Answers (.table .readLocks) (.count (f.cells .readLocks)) := by
  have hplan : TableCall.readLocks.plan f.cells f.cells.used = (.ok (.count (f.cells .readLocks)), []) := rfl
  exact (ht.gets_of_table hplan (by simp)).mono fun _ _ h => h.1

/-- A release ends well if someone holds the lock, else in a violation that leaves the file as it is. -/
theorem Opened.gets_release [Processor] (ht : t.Opened f) (hk : txn.key? = some k) (mode : LockMode) :
    t.Gets (.table (mode.release p txn)) fun o file? =>
      LockWord.held mode (f.cells.holding p k) ≠ 0 ∧ o = .ok .done ∨
        LockWord.held mode (f.cells.holding p k) = 0 ∧ (∃ x, o = .error (.violated x)) ∧ file? = t.file? := by
  rcases mode.release_cases f.cells f.cells.used p txn with ⟨x, hplan, hnone⟩ | ⟨i, e, hfind, hheld, hplan⟩
  · refine (ht.gets_of_table hplan (by simp)).mono fun o file? h => .inr ⟨?_, ⟨x, h.1⟩, h.2⟩
    rw [Words.find_of_key hk] at hnone
    cases hat : f.cells.at? p k with
    | none =>
      rw [Words.holding, hat]
      exact LockWord.held_zero mode
    | some y =>
      rw [Words.holding, hat]
      exact hnone y.1 y.2 (congrArg Except.ok hat)
  · have hplan' : (BoardCall.table (mode.release p txn)).plan f.cells = (.ok .done, [mode.lose i e]) := hplan
    refine ht.gets (by rw [hplan']; exact Plan.ends_ok _ _) fun k' _ => .inl ⟨?_, congrArg Prod.fst hplan'⟩
    rw [Words.find_of_key hk] at hfind
    have hat : f.cells.at? p k = some (i, e) := Except.ok.inj hfind
    rw [Words.holding, hat]
    exact hheld

/-- Questions about locks and releases of locks are answered as the ledger says: whatever was asked before
and however it ended, and whatever handle is asked now. -/
theorem run_ledger [Processor] (hs : s.Fresh) {rs : List Request} (hkeys : ∀ r ∈ rs, r.Trackable)
    (hopens : ∃ x ∈ s.history rs, x.Opens) :
    (∀ p txn, txn.number ≤ Txn.max.number →
      (∃ n, (s.run rs).2.Answers (.table (.readerCount p txn)) (.count n) ∧
        (n.toNat : Int) = balance (s.history rs) .read p txn) ∧
      (s.run rs).2.Answers (.table (.hasWriter p txn)) (.flag (balance (s.history rs) .write p txn = 1)) ∧
      (balance (s.history rs) .write p txn = 0 ∨ balance (s.history rs) .write p txn = 1) ∧
      (balance (s.history rs) .read p txn = 0 ∨ balance (s.history rs) .write p txn = 0) ∧
      ∀ mode, (s.run rs).2.Gets (.table (LockMode.release mode p txn)) fun o file? =>
        0 < balance (s.history rs) mode p txn ∧ o = .ok .done ∨
          balance (s.history rs) mode p txn ≤ 0 ∧ (∃ x, o = .error (.violated x)) ∧ file? = (s.run rs).2.file?) ∧
      ∃ n, (s.run rs).2.Answers (.table .readLocks) (.count n) ∧
        (n.toNat : Int) = (∑ᶠ v : Partition × Txn, balance (s.history rs) .read v.1 v.2) % 2 ^ 64 := by
  rcases run_booked hs hkeys with ⟨-, hnone⟩ | ⟨f, ht, hf, hl⟩
  · obtain ⟨x, hx, hx'⟩ := hopens
    exact absurd hx' (hnone x hx).2
  refine ⟨fun p txn htxn => ?_, _, ht.answers_readLocks, hl.counted⟩
  have hk := Txn.key?_of_le htxn
  have hread := hl.held .read p txn _ hk
  have hwrite := hl.held .write p txn _ hk
  have hproper := hf.table.proper_holding hf.idle p (txn.number + 1)
  refine ⟨⟨_, ht.answers_readerCount hk, hread⟩, ?_, ?_, ?_, fun mode => ?_⟩
  · have hflag : decide (balance (s.history rs) .write p txn = 1) =
        LockWord.hasWriter (f.cells.holding p (txn.number + 1)) := by
      rw [← hwrite, LockWord.held]
      cases LockWord.hasWriter (f.cells.holding p (txn.number + 1)) <;> rfl
    rw [hflag]
    exact ht.answers_hasWriter hk
  · rw [← hwrite, LockWord.held]
    split_ifs <;> simp
  · rw [← hread, ← hwrite]
    rcases hproper with hw | hlt
    · rw [hw]
      exact .inl rfl
    · right
      rw [LockWord.held, LockWord.hasWriter_of_lt hlt]
      rfl
  · refine (ht.gets_release hk mode).mono ?_
    intro o file? h
    rw [← hl.held mode p txn _ hk]
    rcases h with ⟨h0, ho⟩ | ⟨h0, ho⟩
    · exact .inl ⟨by omega, ho⟩
    · exact .inr ⟨by omega, ho⟩

/-- Two readers through two handles, one of which has left, and no writer beside them. -/
theorem run_ledger_of_two_readers :
    let rs := oneVersion ++ [.openBoard "b" "board" .willing .default, .call "a" (.table (.acquireRead ⟨5⟩ ⟨7⟩)),
      .call "b" (.table (.acquireRead ⟨5⟩ ⟨7⟩)), .call "b" (.table (.acquireWrite ⟨5⟩ ⟨7⟩)),
      .call "a" (.table (.releaseRead ⟨5⟩ ⟨7⟩))]
    balance (history {} rs) .read ⟨5⟩ ⟨7⟩ = 1 ∧ balance (history {} rs) .write ⟨5⟩ ⟨7⟩ = 0 ∧
      (∃ n, (run {} rs).2.Answers (.table (.readerCount ⟨5⟩ ⟨7⟩)) (.count n) ∧
        (n.toNat : Int) = balance (history {} rs) .read ⟨5⟩ ⟨7⟩) ∧
      (run {} rs).2.Answers (.table (.hasWriter ⟨5⟩ ⟨7⟩)) (.flag (balance (history {} rs) .write ⟨5⟩ ⟨7⟩ = 1)) := by
  intro rs
  have hkeys : ∀ r ∈ rs, r.Trackable := by decide
  obtain ⟨hcount, hwriter, -⟩ := (run_ledger fresh_empty hkeys (by decide +kernel)).1 ⟨5⟩ ⟨7⟩ (by decide)
  exact ⟨by decide +kernel, by decide +kernel, hcount, hwriter⟩

end Shared

end VersionBoard
