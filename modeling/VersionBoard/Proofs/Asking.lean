import VersionBoard.Proofs.Opening

/-!
# What an opening asks its host for

An opening makes up to eight calls on its host, and how it ends is decided by
what the host says to them. An action is candid (`Act.Candid`) if the first
refusal that it meets is the error it fails with, and if it does, where it meets
none, what it does on a host that refuses nothing. What never asks a host is
candid, a single call is, and so is what is made of candid parts one after
another. Opening a board is made of such parts (`Board.candid_start`); the one
refusal that does not show is that of giving the advisory lock back. Besides its
calls an opening needs a second descriptor of the file, which the system may not
let it have; then that is what it reports (`Host.Blames`).
-/

namespace VersionBoard

/-- `e` is to be reported of these calls on the host: it is their first refusal, or, if none of them is reported, then
after some of them no second descriptor of the file could be had. -/
def Host.Blames (host : Host) (path : String) (calls : List CallRecord) (e : Error) : Prop :=
  firstError? path calls = some e ∨
    firstError? path calls = none ∧ ∃ before why, before <+: calls ∧ host.noDuplicate? (host.log ++ before) = some why ∧
      e = .cannotOpen path (.refused why)

namespace Host.Blames

variable {host : Host} {path : String} {xs ys : List CallRecord} {e : Error}

theorem append_left (h : (host.told xs).Blames path ys e) (hxs : firstError? path xs = none) :
    host.Blames path (xs ++ ys) e := by
  rw [Blames, firstError?_append, hxs, Option.none_or]
  refine h.imp_right (And.imp_right ?_)
  rintro ⟨before, why, hprefix, hwhy, rfl⟩
  refine ⟨xs ++ before, why, (List.prefix_append_right_inj xs).mpr hprefix, ?_, rfl⟩
  rw [← List.append_assoc]
  exact hwhy

theorem append_right (h : host.Blames path xs e) (hys : firstError? path ys = none) : host.Blames path (xs ++ ys) e := by
  rw [Blames, firstError?_append, hys, Option.or_none]
  refine h.imp_right (And.imp_right ?_)
  rintro ⟨before, why, hprefix, hwhy⟩
  exact ⟨before, why, hprefix.trans (List.prefix_append ..), hwhy⟩

/-- Where a second descriptor can always be had, what is reported is the first refusal. -/
theorem eq_some (h : host.Blames path xs e) (hhost : ∀ calls, host.noDuplicate? calls = none) :
    firstError? path xs = some e := by
  rcases h with h | ⟨-, before, why, -, hwhy, -⟩
  · exact h
  · rw [hhost] at hwhy
    cases hwhy

end Host.Blames

namespace Act

variable {α β : Type} {s : Scene}

/-! ### Actions that never ask -/

/-- The action does the same whatever the host is and whether or not the region holds the advisory lock; it leaves both
as they are, and the path. -/
def HostFree (x : Act Scene α) : Prop :=
  ∀ s : Scene, (x s).2.region.path = s.region.path ∧
    ∀ (h : Host) (b : Bool), x (s.withSide h b) = ((x s).1, (x s).2.withSide h b)

namespace HostFree

variable {x : Act Scene α}

theorem host (hx : x.HostFree) (s : Scene) : (x s).2.region.host = s.region.host := by
  have hsame : s.withSide s.region.host s.region.holds = s := rfl
  have h := (hx s).2 s.region.host s.region.holds
  rw [hsame] at h
  exact congrArg (fun r : Except Halt α × Scene => r.2.region.host) h

theorem pure (a : α) : HostFree (Pure.pure a) := fun _ => ⟨rfl, fun _ _ => rfl⟩

theorem halt (y : Halt) : HostFree (Act.halt y : Act Scene α) := fun _ => ⟨rfl, fun _ _ => rfl⟩

theorem bind {f : α → Act Scene β} (hx : x.HostFree) (hf : ∀ a, (f a).HostFree) : HostFree (x >>= f) := by
  intro s
  obtain ⟨hpath, hsame⟩ := hx s
  simp only [bind_apply, hsame]
  revert hpath
  rcases x s with ⟨y | a, t⟩
  · exact fun hpath => ⟨hpath, fun _ _ => rfl⟩
  · obtain ⟨hpath', hsame'⟩ := hf a t
    exact fun hpath => ⟨hpath'.trans hpath, hsame'⟩

/-- However an action ends that never asks, what is done next does not ask either. -/
theorem afterwards {y : Act Scene Unit} (hx : x.HostFree) (hy : y.HostFree) : HostFree (x.afterwards y) := by
  intro s
  obtain ⟨hpath, hsame⟩ := hx s
  simp only [Act.afterwards, hsame]
  revert hpath
  rcases x s with ⟨(e | v | w) | a, t⟩
  case error.waits => exact fun hpath => ⟨hpath, fun _ _ => rfl⟩
  all_goals
    obtain ⟨hpath', hsame'⟩ := hy t
    simp only [hsame']
    revert hpath'
    rcases y t with ⟨z | u, t'⟩ <;> exact fun hpath' hpath => ⟨hpath'.trans hpath, fun _ _ => rfl⟩

end HostFree

/-! ### Candid actions -/

/-- From `s` on the action fails with what is to be reported of its calls; if there is nothing, it does what it does on
any host that refuses nothing, but for what the region has of the advisory lock then. -/
def Candid (x : Act Scene α) (s : Scene) : Prop :=
  ∃ calls, (x s).2.region.host = s.region.host.told calls ∧ (x s).2.region.path = s.region.path ∧
    ((∃ e, s.region.host.Blames s.region.path calls e ∧ (x s).1 = .error (.failed e)) ∨
      firstError? s.region.path calls = none ∧ ∀ (h : Host) (b : Bool), h.Willing →
        ∃ (h' : Host) (b' : Bool), h'.Willing ∧ x (s.withSide h b) = ((x s).1, (x s).2.withSide h' b'))

theorem HostFree.candid {x : Act Scene α} (hx : x.HostFree) (s : Scene) : x.Candid s :=
  ⟨[], by rw [hx.host, Host.told_nil], (hx s).1, .inr ⟨rfl, fun h b hw => ⟨h, b, hw, (hx s).2 h b⟩⟩⟩

namespace Candid

variable {x : Act Scene α}

theorem path (hx : x.Candid s) : (x s).2.region.path = s.region.path := by
  obtain ⟨-, -, hpath, -⟩ := hx
  exact hpath

/-- Candid actions one after another: the second one is not even begun if there is something to report of the first. -/
theorem bind {f : α → Act Scene β} (hx : x.Candid s) (hf : ∀ a t, x s = (.ok a, t) → (f a).Candid t) :
    Candid (x >>= f) s := by
  obtain ⟨calls, hhost, hpath, hcases⟩ := hx
  rcases hrun : x s with ⟨y | a, t⟩
  · rw [hrun] at hhost hpath hcases
    rw [Candid, bind_of_error hrun]
    refine ⟨calls, hhost, hpath, ?_⟩
    rcases hcases with ⟨e, hfirst, he⟩ | ⟨hnone, hsame⟩
    · exact .inl ⟨e, hfirst, by rw [Except.error.inj he]⟩
    · refine .inr ⟨hnone, fun h b hw => ?_⟩
      obtain ⟨h', b', hw', hsame'⟩ := hsame h b hw
      exact ⟨h', b', hw', bind_of_error hsame'⟩
  · rw [hrun] at hhost hpath hcases
    rw [Candid, bind_of_ok hrun]
    rcases hcases with ⟨e, -, he⟩ | ⟨hnone, hsame⟩
    · cases he
    · obtain ⟨calls', hhost', hpath', hcases'⟩ := hf a t hrun
      rw [hpath, hhost] at hcases'
      refine ⟨calls ++ calls', ?_, hpath'.trans hpath, ?_⟩
      · rw [hhost', hhost, Host.told_told]
      · rcases hcases' with ⟨e, hblames, he⟩ | ⟨hnone', hsame'⟩
        · exact .inl ⟨e, hblames.append_left hnone, he⟩
        · refine .inr ⟨by rw [firstError?_append, hnone, hnone']; rfl, fun h b hw => ?_⟩
          obtain ⟨h₁, b₁, hw₁, hx⟩ := hsame h b hw
          obtain ⟨h₂, b₂, hw₂, hf⟩ := hsame' h₁ b₁ hw₁
          exact ⟨h₂, b₂, hw₂, by rw [bind_of_ok hx, hf]⟩

/-- What depends on the state, but not on the host in it or on the advisory lock. -/
theorem state_bind {f : Scene → Act Scene β} (hf : ∀ h b, f (s.withSide h b) = f s) (hs : (f s).Candid s) :
    Candid (Act.state >>= f) s := by
  obtain ⟨calls, hhost, hpath, hcases⟩ := hs
  refine ⟨calls, hhost, hpath, hcases.imp_right (And.imp_right fun hsame h b hw => ?_)⟩
  obtain ⟨h', b', hw', hsame'⟩ := hsame h b hw
  refine ⟨h', b', hw', ?_⟩
  show f (s.withSide h b) (s.withSide h b) = _
  rw [hf, hsame']
  rfl

end Candid

end Act

namespace Region

open Act

variable {α : Type} {s : Scene}

/-! ### The region's operations -/

theorem hostFree_pathOf : HostFree pathOf := fun _ => ⟨rfl, fun _ _ => rfl⟩

theorem hostFree_currentMapping : HostFree currentMapping := fun _ => ⟨rfl, fun _ _ => rfl⟩

theorem hostFree_onTable (f : Mapping → Act Image α) : HostFree (onTable f) := fun _ => ⟨rfl, fun _ _ => rfl⟩

theorem hostFree_requireOpen : HostFree requireOpen := by
  refine hostFree_currentMapping.bind fun m => ?_
  split_ifs
  · exact .halt _
  · exact .pure _

theorem hostFree_holdingHeader [Processor] {body : Act Scene α} (hbody : body.HostFree) :
    HostFree (holdingHeader body) :=
  (hostFree_onTable _).bind fun _ => hbody.afterwards (hostFree_onTable _)

/-- One call is candid if its refusal is reported as it should be. -/
theorem candid_attempt {call : Call} {error : Refusal → Error}
    (herror : ∀ why, call.error? s.region.path why = some (error why)) : (attempt call error).Candid s := by
  have hask : ask call s = (.ok (s.region.host.answer call).1, s.withHost (s.region.host.answer call).2) := rfl
  have hrecord : (s.region.host.answer call).2 = s.region.host.told [⟨call, (s.region.host.answer call).1⟩] := rfl
  rw [Candid, attempt, bind_of_ok hask, hrecord]
  refine ⟨[⟨call, (s.region.host.answer call).1⟩], ?_⟩
  cases (s.region.host.answer call).1 with
  | some why => exact ⟨rfl, rfl, .inl ⟨error why, .inl (by simp [firstError?, CallRecord.error?, herror]), rfl⟩⟩
  | none =>
    refine ⟨rfl, rfl, .inr ⟨by simp [firstError?, CallRecord.error?], fun h b hw => ?_⟩⟩
    have hpasses : (h.answer call).1 = none := by rw [Host.answer, hw.grants]; rfl
    have hask' : ask call (s.withSide h b) = (.ok none, s.withSide (h.answer call).2 b) := by rw [← hpasses]; rfl
    exact ⟨(h.answer call).2, b, hw.told [_], bind_of_ok hask'⟩

/-- To need a second descriptor is candid. -/
theorem candid_duplicate (s : Scene) :
    (require (fun h => h.noDuplicate? h.log) fun why => .cannotOpen s.region.path (.refused why)).Candid s := by
  have hgranted : ∀ t : Scene, t.region.host.noDuplicate? t.region.host.log = none →
      require (fun h => h.noDuplicate? h.log) (fun why => .cannotOpen s.region.path (.refused why)) t = (.ok (), t) := by
    intro t ht
    rcases require_cases (fun h => h.noDuplicate? h.log) (fun why => .cannotOpen s.region.path (.refused why)) t with
      ⟨hok, -⟩ | ⟨why, -, hwhy⟩
    · exact hok
    · exact nomatch ht.symm.trans hwhy
  rcases require_cases (fun h => h.noDuplicate? h.log) (fun why => .cannotOpen s.region.path (.refused why)) s with
    ⟨hok, -⟩ | ⟨why, herr, hwhy⟩
  · rw [Candid, hok]
    refine ⟨[], (Host.told_nil _).symm, rfl, .inr ⟨rfl, fun h b hw => ⟨h, b, hw, ?_⟩⟩⟩
    exact hgranted _ (hw.duplicates _)
  · rw [Candid, herr]
    refine ⟨[], (Host.told_nil _).symm, rfl, .inl ⟨_, .inr ⟨rfl, [], why, List.prefix_refl _, ?_, rfl⟩, rfl⟩⟩
    rw [List.append_nil]
    exact hwhy

/-- Nor does it matter what is done after the call, if the host is not asked again. -/
theorem candid_call {call : Call} {error : String → Refusal → Error} {x : Act Scene α}
    (herror : ∀ path why, call.error? path why = some (error path why)) (hx : x.HostFree) (s : Scene) :
    Candid (do let path ← pathOf; attempt call (error path); x) s := by
  refine (hostFree_pathOf.candid s).bind ?_
  rintro _ _ ⟨⟩
  exact (candid_attempt (herror _)).bind fun _ t _ => hx.candid t

theorem candid_measure (s : Scene) : measure.Candid s :=
  candid_call (fun _ _ => rfl) (fun _ => ⟨rfl, fun _ _ => rfl⟩) s

theorem candid_allocate (n : Nat) (s : Scene) : (allocate n).Candid s :=
  candid_call (fun _ _ => rfl) (fun _ => ⟨rfl, fun _ _ => rfl⟩) s

theorem candid_mapFirst (n : Nat) (s : Scene) : (mapFirst n).Candid s :=
  candid_call (fun _ _ => rfl) (fun _ => ⟨rfl, fun _ _ => rfl⟩) s

theorem candid_mapWhole (least : Nat) (s : Scene) : (mapWhole least).Candid s := by
  refine (candid_measure s).bind fun size t _ => ?_
  dsimp only
  split_ifs
  · exact (candid_allocate least t).bind fun _ u _ => candid_mapFirst _ u
  · exact candid_mapFirst _ t

theorem candid_fileSize (s : Scene) : fileSize.Candid s :=
  (hostFree_requireOpen.candid s).bind fun _ t _ => candid_measure t

theorem candid_reach (required : Nat) (s : Scene) : (reach required).Candid s := by
  refine (hostFree_currentMapping.candid s).bind fun m t _ => ?_
  split_ifs
  · exact (HostFree.pure ()).candid t
  · refine (candid_fileSize t).bind fun size u _ => ?_
    split_ifs
    · exact candid_mapFirst _ u
    · exact (candid_allocate _ u).bind fun _ v _ => candid_mapFirst _ v

/-- To note whether the advisory lock is held is nothing to report. -/
theorem candid_setHolds (b : Bool) (s : Scene) : (setHolds b).Candid s :=
  ⟨[], (Host.told_nil _).symm, rfl, .inr ⟨rfl, fun h _ hw => ⟨h, b, hw, rfl⟩⟩⟩

theorem candid_lock (s : Scene) : lock.Candid s := by
  refine (hostFree_requireOpen.candid s).bind fun _ t _ => (hostFree_pathOf.candid t).bind ?_
  rintro _ _ ⟨⟩
  refine (candid_duplicate t).bind fun _ u hu => ?_
  have hpath := (candid_duplicate t).path
  rw [hu] at hpath
  rw [← hpath]
  refine (candid_attempt fun why => rfl).bind fun _ v _ => Candid.state_bind (fun _ _ => rfl) ?_
  dsimp only
  split_ifs
  · exact ((HostFree.halt _).candid v).bind fun _ _ h => nomatch h
  · exact candid_setHolds true v

/-- Giving the advisory lock back is one call more, and nothing else depends on what comes of it. -/
theorem candid_unlocking {body : Act Scene α} (hbody : body.Candid s) : (body.afterwards unlock).Candid s := by
  obtain ⟨calls, hhost, hpath, hcases⟩ := hbody
  by_cases hwaits : ∃ w, (body s).1 = .error (.waits w)
  · obtain ⟨w, hw⟩ := hwaits
    have hends : ∀ t : Scene, (body t).1 = .error (.waits w) → body.afterwards unlock t = body t := by
      intro t ht
      rcases hrun : body t with ⟨r, u⟩
      rw [hrun] at ht
      subst ht
      rw [Act.afterwards, hrun]
    rw [Candid, hends s hw]
    refine ⟨calls, hhost, hpath, hcases.imp_right (And.imp_right fun hsame h b hwilling => ?_)⟩
    obtain ⟨h', b', hw', hsame'⟩ := hsame h b hwilling
    exact ⟨h', b', hw', by rw [hends _ (by rw [hsame', hw]), hsame']⟩
  · have hends : ∀ t : Scene, (body t).1 = (body s).1 →
        body.afterwards unlock t = ((body s).1, (unlock (body t).2).2) := by
      intro t ht
      rw [← ht]
      exact Act.afterwards_of_eq rfl (fun w hw => hwaits ⟨w, ht.symm.trans hw⟩) (unlock_apply _)
    have hlast : firstError? s.region.path [⟨.unlock, ((body s).2.region.host.answer .unlock).1⟩] = none := by
      simp [firstError?_eq_none_iff]
    rw [Candid, hends s rfl, unlock_apply]
    refine ⟨calls ++ [⟨.unlock, ((body s).2.region.host.answer .unlock).1⟩], ?_, hpath, ?_⟩
    · rw [← Host.told_told, ← hhost]
      rfl
    · rcases hcases with ⟨e, hblames, he⟩ | ⟨hnone, hsame⟩
      · exact .inl ⟨e, hblames.append_right hlast, he⟩
      · refine .inr ⟨by rw [firstError?_append, hlast, hnone]; rfl, fun h b hw => ?_⟩
        obtain ⟨h', b', hw', hsame'⟩ := hsame h b hw
        refine ⟨(h'.answer .unlock).2, (h'.answer .unlock).1.isSome && h'.keepsLock h'.log, hw'.told [_], ?_⟩
        rw [hends _ (by rw [hsame']), hsame', unlock_apply]
        rfl

theorem candid_holdingFile {body : Act Scene α} (hbody : ∀ t, body.Candid t) (s : Scene) : (holdingFile body).Candid s :=
  (candid_lock s).bind fun _ t _ => candid_unlocking (hbody t)

end Region

namespace Board

open Act Region

/-! ### Opening a board -/

theorem candid_seed [Processor] (policy : Policy) (s : Scene) : (seed policy).Candid s := by
  rw [seed]
  split_ifs
  · exact (HostFree.pure ()).candid s
  · refine (candid_reach _ s).bind fun _ t _ => HostFree.candid ?_ t
    exact hostFree_holdingHeader ((hostFree_onTable _).bind fun _ => .pure ())

theorem candid_setUp [Processor] (policy : Policy) (s : Scene) : (setUp policy).Candid s := by
  refine candid_holdingFile (fun t => (hostFree_pathOf.candid t).bind fun path t _ =>
    ((hostFree_onTable _).candid t).bind fun bytes t _ => ?_) s
  cases Signature.ofBytes bytes with
  | error fault => exact (HostFree.halt _).candid t
  | ok signature =>
    dsimp only
    split_ifs
    · refine ((hostFree_onTable _).candid t).bind fun _ t _ => (candid_seed policy t).bind fun _ t _ => ?_
      exact (hostFree_onTable _).candid t
    · cases signature.fault? with
      | none => exact (HostFree.pure ()).candid t
      | some fault => exact (HostFree.halt _).candid t

theorem candid_catchUp (s : Scene) : catchUp.Candid s :=
  ((hostFree_onTable _).candid s).bind fun _ t _ => candid_reach _ t

theorem candid_start [Processor] (config : Config) (s : Scene) : (start config).Candid s :=
  (candid_mapWhole _ s).bind fun _ t _ => (candid_setUp _ t).bind fun _ t _ => (candid_catchUp t).bind fun _ t _ =>
    HostFree.candid (hostFree_currentMapping.bind fun _ => .pure _) t

variable {body : Nat → Act Scene Answer}

/-- The calls that an opening makes decide it: it fails with what is to be reported of them; if there is nothing, it ends
as on any host that refuses nothing and leaves the same file. -/
theorem opening_candid [Processor] (hbody : ∀ n t, (body n).Candid t) (path : String) (host : Host) (config : Config)
    (file? : Option File) :
    ∃ calls, (opening path host config (.ok file?) body).2.2.host = host.told calls ∧
      ((∃ e, host.Blames path calls e ∧
          (opening path host config (.ok file?) body).1.outcome = .error (.failed e)) ∨
        firstError? path calls = none ∧ ∀ h : Host, h.Willing →
          (opening path h config (.ok file?) body).1.outcome = (opening path host config (.ok file?) body).1.outcome ∧
          (opening path h config (.ok file?) body).2.1 = (opening path host config (.ok file?) body).2.1) := by
  have hrecord : (host.answer .openRw).2 = host.told [⟨.openRw, (host.answer .openRw).1⟩] := rfl
  cases hanswer : (host.answer .openRw).1 with
  | some why =>
    rw [opening, enter_of_refused hanswer]
    refine ⟨[⟨.openRw, (host.answer .openRw).1⟩], hrecord, .inl ⟨_, .inl ?_, rfl⟩⟩
    rw [hanswer]
    rfl
  | none =>
    obtain ⟨calls, hhost, -, hcases⟩ : Candid (do body (← start config)) (entered path host file?) :=
      (candid_start config _).bind fun n t _ => hbody n t
    have hopened : firstError? path [⟨.openRw, none⟩] = none := rfl
    rw [hanswer] at hrecord
    have hside : (entered path host file?).region.host = host.told [⟨.openRw, none⟩] := hrecord
    rw [hside] at hhost hcases
    rw [opening, enter_of_opened hanswer]
    refine ⟨[⟨.openRw, none⟩] ++ calls, ?_, ?_⟩
    · rw [← Host.told_told]
      exact hhost
    · rcases hcases with ⟨e, hblames, he⟩ | ⟨hnone, hsame⟩
      · exact .inl ⟨e, hblames.append_left hopened, he⟩
      · refine .inr ⟨by rw [firstError?_append, hopened]; exact hnone, fun h hw => ?_⟩
        have hpasses : (h.answer .openRw).1 = none := by
          rw [Host.answer, hw.grants]
          rfl
        obtain ⟨h', b', -, hrun⟩ := hsame (h.answer .openRw).2 false (hw.told [_])
        have hentered : entered path h file? = (entered path host file?).withSide (h.answer .openRw).2 false := rfl
        rw [opening, enter_of_opened hpasses, hentered, hrun]
        exact ⟨rfl, rfl⟩

end Board

end VersionBoard
