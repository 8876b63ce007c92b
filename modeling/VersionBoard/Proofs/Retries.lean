import VersionBoard.Proofs.Asking
import VersionBoard.Proofs.NewBoards

/-!
# Openings that fail

An opening can be refused at any call that it makes, after the file has been made
longer, wiped, or grown for its first slot. It fails exactly then, with the first
refusal, and it does no harm: the signature is the last thing that is written, so
a blank file stays blank and can be set up by the next attempt, which finds it
longer and makes other calls. However many attempts fail, the one that succeeds
leaves what a single attempt would have left (`Shared.reopen`). What else keeps a
board from being opened is no call: that a second descriptor of the file is not
to be had, or that a handle holds the advisory lock, which a host has refused to
take back.
-/

namespace VersionBoard

namespace Board

variable {body : Nat → Act Scene Answer}

/-- Whatever becomes of an opening, a file that was there is there. -/
theorem isSome_opening [Processor] (path : String) (host : Host) (config : Config) {file? : Option File}
    (h : file?.isSome = true) : (opening path host config (.ok file?) body).2.1.isSome = true := by
  cases hanswer : (host.answer .openRw).1 with
  | some why =>
    rw [opening, enter_of_refused hanswer]
    exact Option.isSome_map.trans h
  | none =>
    rw [opening, enter_of_opened hanswer]
    rfl

end Board

theorem Request.candid_onceOpen (r : Request) (n : Nat) (t : Scene) : (r.onceOpen n).Candid t := by
  cases r with
  | openBoard => exact (Act.HostFree.pure _).candid t
  | _ => exact ⟨[], (Host.told_nil _).symm, rfl, .inr ⟨rfl, fun h b hw => ⟨h, false, hw, rfl⟩⟩⟩

namespace Shared

variable {s : Shared} {path : String} {host : Host} {config : Config} {r : Request}

/-- The calls that an opening makes on its host. -/
def asked [Processor] (s : Shared) : Request → List CallRecord
  | .openBoard _ path host config => (Board.openAt path host config (.ok s.found?)).2.2.host.log.drop host.log.length
  | .create path host config => (Board.createAt path host config (.ok s.found?)).2.2.host.log.drop host.log.length
  | _ => []

/-- The file holds a signed board. -/
def Signed (s : Shared) : Prop := ∃ f, s.file? = some f ∧ f.Signed

/-- Requests have led here from a file that was missing or blank, and none of them was stuck. -/
def Attained [Processor] (s : Shared) : Prop :=
  ∃ (u : Shared) (rs : List Request), u.Fresh ∧ (∀ reply, some reply ∈ (u.run rs).1 → reply.Unstuck) ∧ (u.run rs).2 = s

/-- Whatever has been asked for, a file that was missing or blank is so still, or it has been signed. -/
theorem Attained.fresh_or_signed [Processor] (hs : s.Attained) : s.Fresh ∨ s.Signed := by
  obtain ⟨u, rs, hu, hends, rfl⟩ := hs
  exact (run_fresh_or_opened hu hends).imp_right fun ⟨f, hopened⟩ => ⟨f, hopened.file, hopened.coherent.toSigned⟩

theorem Fresh.unsigned (hs : s.Fresh) : s.Unsigned := hs.file

/-! ### How an opening ends -/

/-- On a host that refuses nothing an opening succeeds, or it waits for a handle that holds the advisory lock. -/
theorem opening_willing [Processor] (hs : s.Fresh ∨ s.Signed) (hw : host.Willing) (r : Request) (path : String)
    (config : Config) :
    s.locked = false ∧ (∃ a, (Board.opening path host config (.ok s.found?) r.onceOpen).1.outcome = .ok a) ∨
      s.locked = true ∧ (Board.opening path host config (.ok s.found?) r.onceOpen).1.outcome =
        .error (.waits .advisoryLock) := by
  rcases hs with hfresh | ⟨f, hfile, hf⟩
  · left
    rcases Board.opening_of_blank r.gentle_onceOpen path host config hfresh.file s.locked with
      ⟨t, m, -, -, -, -, hok, -⟩ | ⟨hhindered, -⟩
    · refine ⟨hfresh.locked, ?_⟩
      rw [found?, hok]
      exact (r.gentle_onceOpen m t).1
    · rw [hfresh.locked] at hhindered
      exact absurd (hhindered.locked_of_willing hw) Bool.false_ne_true
  · rw [found?, hfile]
    rcases (Board.opening_of_signed r.gentle_onceOpen path host config hf s.locked).2 with
      hhindered | ⟨t, -, -, htook, hok, -⟩
    · exact .inr ⟨hhindered.locked_of_willing hw, hhindered.waits_of_willing hw⟩
    · refine .inl ⟨htook.free, ?_⟩
      rw [Option.map_some, hok]
      exact (r.gentle_onceOpen f.size t).1

/-- An opening fails with what is to be reported of its calls. If there is nothing, it succeeds, unless a handle holds
the advisory lock; then it waits. -/
theorem step_asks [Processor] (hs : s.Fresh ∨ s.Signed) (hr : r.Opens path host config) :
    ∃ reply, (s.step r).1 = some reply ∧ (host.silent = false → reply.calls = s.asked r) ∧
      ((∃ e, host.Blames path (s.asked r) e ∧ reply.outcome = .error (.failed e)) ∨
        firstError? path (s.asked r) = none ∧ (s.locked = false ∧ (∃ a, reply.outcome = .ok a) ∨
          s.locked = true ∧ reply.outcome = .error (.waits .advisoryLock))) := by
  obtain ⟨calls, hhost, hcases⟩ := Board.opening_candid r.candid_onceOpen path host config s.found?
  have hasked : s.asked r = (host.told calls).log.drop host.log.length := by
    rw [← hhost]
    cases hr <;> rfl
  rw [Host.told, List.drop_left] at hasked
  refine ⟨_, (step_of_opens hr s).1, fun hsilent => ?_, ?_⟩
  · have hreport : (Board.opening path host config (.ok s.found?) r.onceOpen).1.calls =
        (host.told calls).reportSince host := by rw [← hhost]; rfl
    rw [hreport, hasked, Host.reportSince_told, hsilent]
    rfl
  · rw [hasked]
    refine hcases.imp_right ?_
    rintro ⟨hnone, hsame⟩
    refine ⟨hnone, ?_⟩
    rw [← (hsame .willing Host.willing_willing).1]
    exact opening_willing hs Host.willing_willing r path config

/-- What an opening that fails leaves: no handle that was not there, so that nobody holds the advisory lock who did not
before; a file that was blank is blank still, and one that was signed is as it was. -/
structure Harmless (s t : Shared) : Prop where
  handles : t.handles = s.handles
  blank : s.Unsigned → t.Unsigned ∧ (s.file?.isSome = true → t.file?.isSome = true)
  kept : s.Signed → t.file? = s.file?

/-- Where a board has not been set up, a failed attempt changes nothing that another one would notice. -/
theorem Unsigned.step_failed [Processor] (hs : s.Unsigned) (hr : r.Opens path host config) {reply : Reply Answer}
    (hreply : (s.step r).1 = some reply) (hfailed : ∀ a, reply.outcome ≠ .ok a) :
    (s.step r).2.Unsigned ∧ Board.newSize config.policy (Image.lengthOf (s.step r).2.file?) =
      Board.newSize config.policy (Image.lengthOf s.file?) := by
  obtain ⟨hreply', hfile⟩ := Shared.step_of_opens hr s
  obtain rfl := Option.some.inj (hreply'.symm.trans hreply)
  rcases Board.opening_of_blank r.gentle_onceOpen path host config hs s.locked with
    ⟨t, m, -, -, -, -, hok, -⟩ | ⟨-, hblank, hsize, -⟩
  · obtain ⟨a, ha⟩ := (r.gentle_onceOpen m t).1
    exact absurd (hok.trans ha) (hfailed a)
  · rw [Unsigned, hfile]
    exact ⟨hblank, hsize⟩

theorem step_harmless [Processor] (hr : r.Opens path host config) {reply : Reply Answer}
    (hreply : (s.step r).1 = some reply) {x : Halt} (hx : reply.outcome = .error x) : Harmless s (s.step r).2 where
  handles := by
    obtain rfl := Option.some.inj ((step_of_opens hr s).1.symm.trans hreply)
    exact handles_of_opens hr hx
  blank hs := by
    refine ⟨(hs.step_failed hr hreply fun a ha => nomatch hx.symm.trans ha).1, fun hsome => ?_⟩
    rw [(step_of_opens hr s).2]
    refine Board.isSome_opening path host config ?_
    rwa [found?, Option.isSome_map]
  kept := fun ⟨_, hfile, hf⟩ => file?_step_of_signed hfile hf hr.call?_eq_none

/-! ### Opening again -/

/-- Any number of failed attempts changes nothing that another one would notice. -/
theorem Unsigned.run_failed [Processor] (hs : s.Unsigned) {rs : List Request}
    (hrs : ∀ r ∈ rs, ∃ path host, r.Opens path host config)
    (hfailed : ∀ reply, some reply ∈ (s.run rs).1 → ∀ a, reply.outcome ≠ .ok a) :
    (s.run rs).2.Unsigned ∧
      Board.newSize config.policy (Image.lengthOf (s.run rs).2.file?) =
        Board.newSize config.policy (Image.lengthOf s.file?) := by
  induction rs generalizing s with
  | nil => exact ⟨hs, rfl⟩
  | cons r rs ih =>
    obtain ⟨path, host, hr⟩ := hrs r List.mem_cons_self
    have hreply := (Shared.step_of_opens hr s).1
    have hfirst : ∀ a, _ ≠ _ := hfailed _ (by rw [← hreply]; exact List.mem_cons_self)
    obtain ⟨hs', hsize⟩ := hs.step_failed hr hreply hfirst
    obtain ⟨hrest, hsize'⟩ := ih hs' (fun r' hr' => hrs r' (List.mem_cons_of_mem _ hr'))
      fun reply h => hfailed reply (List.mem_cons_of_mem _ h)
    exact ⟨hrest, hsize'.trans hsize⟩

/-- The first attempt that succeeds leaves what a single one leaves on a host that refuses nothing. -/
theorem file?_reopen [Processor] (hs : s.Fresh ∨ s.Signed) {rs : List Request}
    (hrs : ∀ r ∈ rs, ∃ path host, r.Opens path host config)
    (hfailed : ∀ reply, some reply ∈ (s.run rs).1 → ∀ a, reply.outcome ≠ .ok a)
    (hr : r.Opens path host config) {reply : Reply Answer} {a : Answer} (hreply : ((s.run rs).2.step r).1 = some reply)
    (ha : reply.outcome = .ok a) {once : Request} {path' : String} {host' : Host} (honce : once.Opens path' host' config)
    (hw : host'.Willing) : ((s.run rs).2.step r).2.file? = (s.step once).2.file? := by
  rcases hs with hs | ⟨f, hfile, hf⟩
  · obtain ⟨hblank, hsize⟩ := hs.unsigned.run_failed hrs hfailed
    obtain ⟨a', ha'⟩ : ∃ a, (Board.opening path' host' config (.ok s.found?) once.onceOpen).1.outcome = .ok a := by
      rcases opening_willing (.inl hs) hw once path' config with ⟨-, hok⟩ | ⟨hlocked, -⟩
      · exact hok
      · exact absurd (hs.locked.symm.trans hlocked) Bool.false_ne_true
    obtain ⟨g, hg, hpristine, hgsize⟩ := hblank.step_of_opens hr hreply ha
    obtain ⟨g', hg', hpristine', hgsize'⟩ := hs.unsigned.step_of_opens honce (Shared.step_of_opens honce s).1 ha'
    have hsame : g = g' := hpristine.ext hpristine' (hgsize.trans (hsize.trans hgsize'.symm))
    rw [hg, hg', hsame]
  · have hcalls : ∀ r ∈ rs, r.call? = none := by
      intro r hr
      obtain ⟨_, _, hopens⟩ := hrs r hr
      exact hopens.call?_eq_none
    have hrun := file?_run_of_signed hfile hf hcalls
    rw [file?_step_of_signed (hrun.trans hfile) hf hr.call?_eq_none, hrun,
      file?_step_of_signed hfile hf honce.call?_eq_none]

/-- An opening fails with what is to be reported of its calls, and without harm. If there is nothing, it succeeds, unless
a handle holds the advisory lock; then it waits. As long as second descriptors are to be had, it fails exactly if a call
is refused that it makes, other than to give the advisory lock back, with the error of the first refusal. However often
that happened, the attempt that succeeds leaves the file as a single one would have left it on a host that refuses
nothing. -/
theorem reopen [Processor] (hs : s.Attained) :
    (∀ (r : Request) (path : String) (host : Host) (config : Config), r.Opens path host config →
      ∃ reply, (s.step r).1 = some reply ∧ (host.silent = false → reply.calls = s.asked r) ∧
        ((∃ e, host.Blames path (s.asked r) e ∧ reply.outcome = .error (.failed e) ∧ Harmless s (s.step r).2) ∨
          firstError? path (s.asked r) = none ∧ (s.locked = false ∧ (∃ a, reply.outcome = .ok a) ∨
            s.locked = true ∧ reply.outcome = .error (.waits .advisoryLock))) ∧
        ((∀ calls, host.noDuplicate? calls = none) → ∀ e, reply.outcome = .error (.failed e) ↔
          firstError? path (s.asked r) = some e) ∧
        ∀ e, firstError? path (s.asked r) = some e →
          ∃ x ∈ s.asked r, x.error? path = some e ∧ x.call.kind.code? = some e.code) ∧
      ∀ (config : Config) (attempts : List Request) (r once : Request) (path path' : String) (host host' : Host)
        (reply : Reply Answer) (a : Answer),
        (∀ r ∈ attempts, ∃ path host, r.Opens path host config) →
        (∀ reply, some reply ∈ (s.run attempts).1 → ∀ a, reply.outcome ≠ .ok a) →
        r.Opens path host config → ((s.run attempts).2.step r).1 = some reply → reply.outcome = .ok a →
        once.Opens path' host' config → host'.Willing →
          ((s.run attempts).2.step r).2.file? = (s.step once).2.file? := by
  have hfile := hs.fresh_or_signed
  refine ⟨?_, ?_⟩
  · intro r path host config hr
    obtain ⟨reply, hreply, hcalls, hcases⟩ := step_asks hfile hr
    refine ⟨reply, hreply, hcalls, hcases.imp_left ?_, fun hhost e => ?_, fun e => exists_of_firstError?⟩
    · rintro ⟨e, hblames, he⟩
      exact ⟨e, hblames, he, step_harmless hr hreply he⟩
    · rcases hcases with ⟨e', hblames, he'⟩ | ⟨hnone, ⟨-, a, ha⟩ | ⟨-, hw⟩⟩
      · rw [he', hblames.eq_some hhost]
        simp
      · simp [ha, hnone]
      · simp [hw, hnone]
  · intro config attempts r once path path' host host' reply a hattempts hfailed hr hreply ha honce hw
    exact file?_reopen hfile hattempts hfailed hr hreply ha honce hw

/-- The first attempt is refused the mapping of a file that it has made longer for the first slot, the second one the
advisory lock. The third makes no file longer, and leaves what a first one would have left. -/
theorem reopen_of_map_and_lock :
    let refusing (kind : CallKind) (skip : Nat) : Host := HostSettings.host { outages := [⟨kind, skip, 1⟩] }
    let first : Request := .openBoard "a" "board" (refusing .map 1) .default
    let second : Request := .create "board" (refusing .lock 0) .default
    let third : Request := .openBoard "a" "board" (refusing .unlock 0) .default
    ((run {} [first, second]).1.map fun reply? => reply?.map (·.outcome)) =
        [some (.error (.failed (.cannotMap "board" (.refused (.injected .map))))),
          some (.error (.failed (.cannotOpen "board" (.lockRefused (.injected .lock)))))] ∧
      firstError? "board" (asked {} first) = some (.cannotMap "board" (.refused (.injected .map))) ∧
      Harmless {} (step {} first).2 ∧ ((step {} first).2.file?.map (·.size)) = some 640 ∧
      ((run {} [first, second]).2.step third).2.file? = (step {} (.create "board" .willing .default)).2.file? := by
  intro refusing first second third
  have hattained : Attained {} := ⟨{}, [], fresh_empty, nofun, rfl⟩
  have houtcomes : ((run {} [first, second]).1.map fun reply? => reply?.map (·.outcome)) =
      [some (.error (.failed (.cannotMap "board" (.refused (.injected .map))))),
        some (.error (.failed (.cannotOpen "board" (.lockRefused (.injected .lock)))))] := by decide +kernel
  have hthird : ((run {} [first, second]).2.step third).1.map (·.outcome) = some (.ok (.size 640)) := by decide +kernel
  have hfirst : firstError? "board" (asked {} first) = some (.cannotMap "board" (.refused (.injected .map))) := by
    decide +kernel
  refine ⟨houtcomes, hfirst, ?_, by decide +kernel, ?_⟩
  · obtain ⟨reply, -, -, ⟨e, -, -, hharmless⟩ | ⟨hnone, -⟩, -⟩ :=
      (reopen hattained).1 first "board" (refusing .map 1) .default (.keep "a")
    · exact hharmless
    · rw [hfirst] at hnone
      cases hnone
  · obtain ⟨reply, hreply, ha⟩ := Option.map_eq_some_iff.mp hthird
    refine (reopen hattained).2 .default [first, second] third _ "board" "board" (refusing .unlock 0) .willing reply _ ?_
      ?_ (.keep "a") hreply ha .create Host.willing_willing
    · intro r hr
      rcases List.mem_pair.mp hr with rfl | rfl
      · exact ⟨_, _, .keep "a"⟩
      · exact ⟨_, _, .create⟩
    · intro reply hreply a ha
      have hmem := List.mem_map_of_mem (f := fun reply? : Option (Reply Answer) => reply?.map (·.outcome)) hreply
      rw [houtcomes, Option.map_some, ha] at hmem
      simp at hmem

end Shared

end VersionBoard
