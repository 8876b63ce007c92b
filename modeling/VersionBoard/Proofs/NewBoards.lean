import VersionBoard.Proofs.Runs

/-!
# New boards

What the first opening leaves, byte by byte. A blank file may hold anything
behind its signature: stale counters, a header lock that somebody held, half a
slot. All of it is wiped before the table is seeded, and the signature is written
last and on its own, so the board depends on nothing but the policy
(`Image.Pristine`) and on how long the file was. From then on a board can be
opened, closed and created again, with whatever policies, and stays as it is
(`Shared.opening_exact`).
-/

namespace VersionBoard

/-! ### What a new board says -/

/-- What a new board says in a word. A table that is not split has one slot in use, with one version that nobody
holds: that of transaction 0, whose key is 1. -/
def Policy.firstWord : Policy → Cell → UInt64
  | .unsplit, .liveSlots => 1
  | .unsplit, .usedSlots => 1
  | .unsplit, .stamp => 1
  | .unsplit, .state 0 => SlotState.live
  | .unsplit, .partition 0 => Partition.whole.word
  | .unsplit, .key 0 ⟨0, _⟩ => 1
  | _, _ => 0

namespace Image

/-- The file is signed and says what a new board says, and all bytes that belong to no word are zero. -/
structure Pristine (policy : Policy) (f : Image) : Prop where
  signed : f.read 0 signatureSize = Signature.current.toBytes
  cells : f.cells = policy.firstWord
  rest : ∀ b, signatureSize ≤ b → (∀ c : Cell, b < c.offset ∨ c.offset + 8 ≤ b) → f.byte b = 0

variable {f g : Image} {policy : Policy}

theorem byte_eq_of_read_eq {n b : Nat} (h : f.read 0 n = g.read 0 n) (hb : b < n) : f.byte b = g.byte b :=
  List.map_inj_left.mp h b (List.mem_range'_1.mpr ⟨Nat.zero_le b, by omega⟩)

/-- There is only one new board of any length. -/
theorem Pristine.ext (hf : f.Pristine policy) (hg : g.Pristine policy) (hsize : f.size = g.size) : f = g := by
  refine ext_cells hsize (hf.cells.trans hg.cells.symm) fun b hall => ?_
  by_cases hb : b < signatureSize
  · exact byte_eq_of_read_eq (hf.signed.trans hg.signed.symm) hb
  · rw [hf.rest b (by omega) hall, hg.rest b (by omega) hall]

theorem edits_seeds (policy : Policy) : Words.edits (fun _ => 0) (seeds policy) = policy.firstWord := by
  cases policy with
  | unsplit =>
    funext c
    show Words.setAll (fun _ => 0) (Edit.writes (fun _ => 0) (.track 0 ⟨0, by decide⟩ Partition.whole 1)) c = _
    simp only [Edit.writes, Words.setAll_cons, Words.setAll_nil, Words.set_apply]
    cases c with
    | state i => cases i <;> rfl
    | partition i => cases i <;> rfl
    | key i e =>
      cases i with
      | zero =>
        revert e
        decide
      | succ i => rfl
    | _ => rfl
  | _ => rfl

/-- What is set up is a new board. -/
theorem pristine_newBoard {n : Nat} (hn : sizeFor policy.initialPartitions ≤ n) (hmax : n ≤ Region.maxSize) :
    (newBoard policy n).Pristine policy where
  signed := (sound_newBoard policy hn hmax).signed
  cells := (cells_newBoard hn).trans (edits_seeds policy)
  rest b hb hc := by
    have hlength : Signature.current.toBytes.length = signatureSize := rfl
    rw [newBoard, byte_write, if_neg (by omega), byte_edits_of_no_cell _ _ hc, byte_zeros]

end Image

/-! ### Openings -/

/-- The request opens a board, to keep it open or only to set its file up. -/
inductive Request.Opens (path : String) (host : Host) (config : Config) : Request → Prop
  /-- The board is kept. -/
  | keep (name : String) : Opens path host config (.openBoard name path host config)
  /-- The board is closed at once. -/
  | create : Opens path host config (.create path host config)

/-- What an opening does with a board that is ready for calls: to keep it open it only takes its size. -/
def Request.onceOpen : Request → Nat → Act Scene Answer
  | openBoard .. => fun size => pure (.size size)
  | _ => fun _ => do
    Region.close
    return .done

theorem Request.gentle_onceOpen (r : Request) : Board.Gentle r.onceOpen := by
  cases r with
  | openBoard => exact Board.gentle_size
  | _ => exact Board.gentle_close

theorem Request.Opens.call?_eq_none {path : String} {host : Host} {config : Config} {r : Request}
    (hr : r.Opens path host config) : r.call? = none := by
  cases hr <;> rfl

namespace Shared

variable {s : Shared} {f : Image} {path : String} {host : Host} {config : Config} {r : Request} {name : String}

theorem step_of_opens [Processor] (hr : r.Opens path host config) (s : Shared) :
    (s.step r).1 = some (Board.opening path host config (.ok s.found?) r.onceOpen).1 ∧
      (s.step r).2.file? = (Board.opening path host config (.ok s.found?) r.onceOpen).2.1 := by
  cases hr with
  | create => exact ⟨rfl, rfl⟩
  | keep name =>
    rw [step, Board.openAt, keep, Request.onceOpen]
    rcases Board.opening path host config (.ok s.found?) fun size => pure (.size size) with ⟨⟨_ | a, calls⟩, file?, region⟩
    · exact ⟨rfl, rfl⟩
    · exact ⟨rfl, rfl⟩

/-- An opening that does not succeed leaves no handle behind. -/
theorem handles_of_opens [Processor] (hr : r.Opens path host config) {x : Halt}
    (hx : (Board.opening path host config (.ok s.found?) r.onceOpen).1.outcome = .error x) :
    (s.step r).2.handles = s.handles := by
  cases hr with
  | create => rfl
  | keep name =>
    have hkeep : s.keep name (.board · config) (Board.openAt path host config (.ok s.found?)) = _ := keep_of_error hx
    exact congrArg (fun p : Reply Answer × Shared => p.2.handles) hkeep

/-- The file is missing, or nobody has signed it. -/
def Unsigned (s : Shared) : Prop := ∀ f, s.file? = some f → f.Blank ∧ f.size ≤ Region.maxSize

/-- The first opening that succeeds makes the new board of its policy, as long as the file was, or twice as long as
the board needs if that was too short. -/
theorem Unsigned.step_of_opens [Processor] (hs : s.Unsigned) (hr : r.Opens path host config) {reply : Reply Answer}
    {a : Answer} (hreply : (s.step r).1 = some reply) (ha : reply.outcome = .ok a) :
    ∃ g, (s.step r).2.file? = some g ∧ g.Pristine config.policy ∧
      g.size = Board.newSize config.policy (Image.lengthOf s.file?) := by
  obtain ⟨hreply', hfile⟩ := Shared.step_of_opens hr s
  obtain rfl := Option.some.inj (hreply'.symm.trans hreply)
  rcases Board.opening_of_blank r.gentle_onceOpen path host config hs s.locked with
    ⟨t, m, ⟨k, n, hk, himage, hroom, hmax, hm⟩, -, -, hfile', -⟩ | ⟨hhindered, -⟩
  · have hroom' : sizeFor config.policy.initialPartitions ≤ k := by
      have hinside := hm.inside
      rw [himage, Image.size_newBoard] at hinside
      exact Nat.le_trans hroom hinside
    rw [himage] at hfile'
    refine ⟨Image.newBoard config.policy k, hfile.trans hfile', Image.pristine_newBoard hroom' hmax, ?_⟩
    rw [Image.size_newBoard, hk]
  · obtain ⟨x, hx⟩ := hhindered.exists_error
    exact nomatch hx.symm.trans ha

/-- What leaves the file alone through every handle leaves it alone. -/
theorem file?_through {g : Handle → Option (Act Scene Answer)} (hg : ∀ h x, g h = some x → ∀ t, (x t).2.file = t.file) :
    (s.through name g).2.file? = s.file? := by
  cases hget : s.handles.get? name with
  | none => rw [through, act_of_none g hget]
  | some h =>
    cases hfile : s.file? with
    | none => rw [through, act_of_missing g hfile, hfile]
    | some f =>
      cases hx : g h with
      | none => rw [through, act_of_barred hget hx, hfile]
      | some x =>
        rw [through, act_of_get? hget hfile hx]
        exact congrArg (fun file : File => some file.image) (hg h x hx _)

theorem file?_close (s : Shared) (name : String) : (s.close name).2.file? = s.file? :=
  file?_through fun _ _ hx _ => by
    cases hx
    rfl

/-- A signed file that holds its used slots is not changed by openings and closings. -/
theorem file?_step_of_signed [Processor] (hfile : s.file? = some f) (hf : f.Signed) (hr : r.call? = none) :
    (s.step r).2.file? = s.file? := by
  have hopens : ∀ {path host config}, r.Opens path host config → (s.step r).2.file? = s.file? := by
    intro path host config hr
    rw [(Shared.step_of_opens hr s).2, found?, hfile]
    exact (Board.opening_of_signed r.gentle_onceOpen path host config hf s.locked).1
  cases r with
  | call name c => cases hr
  | openBoard name path host config => exact hopens (.keep name)
  | create path host config => exact hopens .create
  | close name => exact file?_close s name
  | drop name => exact file?_close s name
  | setHost name host =>
    refine file?_through fun h x hx t => ?_
    cases hx
    exact (changeHost_keeps host t).1

theorem file?_run_of_signed [Processor] (hfile : s.file? = some f) (hf : f.Signed) {rs : List Request}
    (hrs : ∀ r ∈ rs, r.call? = none) : (s.run rs).2.file? = s.file? := by
  induction rs generalizing s with
  | nil => rfl
  | cons r rs ih =>
    have hstep := file?_step_of_signed hfile hf (hrs r List.mem_cons_self)
    exact (ih (hstep.trans hfile) fun r' hr' => hrs r' (List.mem_cons_of_mem _ hr')).trans hstep

/-- A missing or blank file becomes a new board by the first opening that succeeds, whatever it held behind the
signature; and a file that is signed and holds its used slots is changed by no sequence of openings and closings. -/
theorem opening_exact [Processor] :
    (∀ (s : Shared) (r : Request) (path : String) (host : Host) (config : Config) (reply : Reply Answer) (a : Answer),
      s.Unsigned → r.Opens path host config → (s.step r).1 = some reply → reply.outcome = .ok a →
        ∃ g, (s.step r).2.file? = some g ∧ g.Pristine config.policy ∧
          g.size = if sizeFor config.policy.initialPartitions ≤ max (Image.lengthOf s.file?) 64
            then max (Image.lengthOf s.file?) 64 else 2 * sizeFor config.policy.initialPartitions) ∧
      ∀ (s : Shared) (f : Image) (rs : List Request), s.file? = some f → f.Signed →
        (∀ r ∈ rs, r.call? = none) → (s.run rs).2.file? = s.file? := by
  refine ⟨?_, fun s f rs hfile hf hrs => file?_run_of_signed hfile hf hrs⟩
  intro s r path host config reply a hs hr hreply ha
  obtain ⟨g, hfile, hg, hsize⟩ := hs.step_of_opens hr hreply ha
  have hgrown : Region.grownSize (sizeFor config.policy.initialPartitions) =
      2 * sizeFor config.policy.initialPartitions := by
    cases config.policy <;> decide
  refine ⟨g, hfile, hg, ?_⟩
  rw [hsize, Board.newSize, Region.roomFor, hgrown]
  rfl

/-- A hundred bytes, of which only the first sixteen are zero: the counters, the header lock and the start of a slot
say what nobody ever wrote there. -/
theorem opening_exact_of_leftovers :
    let s : Shared := { file? := some (.ofList (List.replicate 16 0 ++ List.replicate 84 0xFF)) }
    let rs : List Request := [.openBoard "a" "board" .willing .default, .close "a",
      .create "board" .willing (Config.default.withPolicy .month),
      .openBoard "b" "board" (HostSettings.host { outages := [⟨.lock, 0, 1⟩] }) (Config.default.withPolicy .day)]
    ∃ g, (s.step (.create "board" .willing .default)).2.file? = some g ∧ g.Pristine .unsplit ∧ g.size = 640 ∧
      ((s.step (.create "board" .willing .default)).2.run rs).2.file? = some g := by
  intro s rs
  have hs : s.Unsigned := by
    intro f hfile
    obtain rfl := Option.some.inj hfile
    exact ⟨by unfold Image.Blank; decide +kernel, by decide +kernel⟩
  have hok : ((s.step (.create "board" .willing .default)).1.map (·.outcome)) = some (.ok .done) := by decide +kernel
  have hlength : Image.lengthOf s.file? = 100 := by decide +kernel
  obtain ⟨reply, hreply, ha⟩ := Option.map_eq_some_iff.mp hok
  obtain ⟨g, hfile, hg, hsize⟩ := opening_exact.1 s _ "board" .willing .default reply .done hs .create hreply ha
  rw [hlength] at hsize
  refine ⟨g, hfile, hg, hsize.trans (by decide), ?_⟩
  have hfits : sizeFor g.cells.used ≤ g.size := by
    rw [hg.cells, hsize]
    decide
  rw [opening_exact.2 _ g rs hfile ⟨hg.signed, hfits⟩ (by decide)]
  exact hfile

end Shared

end VersionBoard
