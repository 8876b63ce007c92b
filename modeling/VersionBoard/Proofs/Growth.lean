import VersionBoard.Proofs.Reach
import Mathlib.Tactic.Common

/-!
# Growth

A region that has less of its file mapped than is called for maps all of it, and
makes it longer first if it is too short. Whatever the host refuses meanwhile,
nothing is lost that was in the file or mapped (`Region.reach_exact`), and a
later attempt that meets no refusal gets as far as the first one would have. A
file that was made longer before the refusal is not made longer again.
-/

namespace VersionBoard

namespace Mapping

variable {f g : Image} {n a : Nat} {v : UInt64}

theorem load_upTo_apply (n a : Nat) (f : Image) : (upTo n).load a f =
    (if a % 8 ≠ 0 then .error (.violated (.misaligned a))
      else if n < a + 8 then .error (.violated (.beyondMapping a n)) else .ok (f.word (a / 8)), f) := by
  by_cases ha : a % 8 = 0
  · by_cases hn : n < a + 8
    · rw [if_neg (not_not.mpr ha), if_pos hn]
      simp [load, check, upTo, ha, hn, Act.bind_apply, Act.violate, Act.halt]
    · rw [if_neg (not_not.mpr ha), if_neg hn]
      exact load_upTo ha (Nat.le_of_not_lt hn) f
  · rw [if_pos ha]
    simp [load, check, upTo, ha, Act.bind_apply, Act.violate, Act.halt]

/-- A word that is the same in two files is read the same, through any mapping. -/
theorem load_congr (h : g.word (a / 8) = f.word (a / 8)) (m : Mapping) : (m.load a g).1 = (m.load a f).1 := by
  rcases m with ⟨_ | n⟩
  · rfl
  · show ((upTo n).load a g).1 = ((upTo n).load a f).1
    rw [load_upTo_apply, load_upTo_apply, h]

/-- What is read through a mapping is read through a larger one. -/
theorem load_upTo_mono {m : Nat} (hnm : n ≤ m) (h : ((upTo n).load a f).1 = .ok v) : ((upTo m).load a f).1 = .ok v := by
  rw [load_upTo_apply] at h
  dsimp only at h
  split_ifs at h with ha hn
  rw [load_upTo (not_not.mp ha) (by omega)]
  exact h

end Mapping

namespace Region

variable {s : Scene} {n required m : Nat} {path : String} {f g : Image} {o : Except Halt Unit} {calls : List CallRecord}

/-- What calling for `required` bytes leaves of a file with the contents `f`, of which the first `n` bytes were mapped:
the contents are `g` then, and the first `m` bytes are mapped. -/
structure Grows (n required : Nat) (f : Image) (o : Except Halt Unit) (calls : List CallRecord) (g : Image) (m : Nat) :
    Prop where
  /-- With success so much is mapped, and no more than there is. -/
  reached : o = .ok () → max n required ≤ m ∧ m ≤ g.size
  /-- Else as much is mapped as before. -/
  failed : o ≠ .ok () → m = n
  /-- What was in the file stays. -/
  kept : ∀ b, b < f.size → g.byte b = f.byte b
  /-- What is added to it is zero. -/
  zero : ∀ b, f.size ≤ b → b < g.size → g.byte b = 0
  /-- So whoever has it mapped reads what he read before, -/
  same : ∀ (other : Mapping) (a : Nat), (other.load a g).1 = (other.load a f).1
  /-- and whatever could be read through this mapping is the same now that it may be longer. -/
  readable : ∀ a v, ((Mapping.upTo n).load a f).1 = .ok v → ((Mapping.upTo m).load a g).1 = .ok v
  /-- The file is as long as it was, -/
  short : (∀ k, ⟨.allocate k, none⟩ ∉ calls) → g = f
  /-- unless it was made longer, because it was too short. -/
  long : ∀ k, ⟨.allocate k, none⟩ ∈ calls → f.size < required ∧ k = grownSize required ∧ g.size = k
  /-- Where it failed, it succeeds later on a host that refuses nothing, and if the file is long enough by now, it is
  only mapped. -/
  again : o ≠ .ok () → ∀ u : Scene, u.region.mapping = .upTo m → g.size ≤ u.file.image.size → u.region.host.Willing →
    ∃ calls' g' m', reach required u = (.ok (), u.after calls' g' m') ∧ required ≤ m' ∧
      (required ≤ g.size → calls' = [⟨.length, none⟩, ⟨.map u.file.image.size, none⟩] ∧ g' = u.file.image)

namespace Reaches

/-- The words stay as they are. -/
theorem word_eq (h : Reaches n required path f o calls g m) (k : Nat) : g.word k = f.word k := by
  rcases h.contents with rfl | ⟨-, rfl⟩
  · rfl
  · exact Image.word_grow ..

theorem byte_eq (h : Reaches n required path f o calls g m) (b : Nat) : g.byte b = f.byte b := by
  rw [Image.byte_eq, Image.byte_eq, h.word_eq]

/-- A failure leaves as much mapped as there was, which is too little. -/
theorem of_failed (h : Reaches n required path f o calls g m) (hne : o ≠ .ok ()) : m = n ∧ n < required := by
  cases h with
  | here => exact absurd rfl hne
  | mapped => exact absurd rfl hne
  | grown => exact absurd rfl hne
  | unmeasured h => exact ⟨rfl, h⟩
  | unmapped h => exact ⟨rfl, h⟩
  | ungrown h => exact ⟨rfl, h⟩
  | grownUnmapped h => exact ⟨rfl, h⟩

/-- A file that is long enough is only mapped. -/
theorem of_le (h : Reaches n required path f (.ok ()) calls g m) (hn : n < required) (hle : required ≤ f.size) :
    calls = [⟨.length, none⟩, ⟨.map f.size, none⟩] ∧ g = f := by
  cases h with
  | here h => omega
  | mapped => exact ⟨rfl, rfl⟩
  | grown _ hlt => omega

end Reaches

/-- On a host that refuses nothing so much is mapped afterwards. -/
theorem reach_of_willing (hm : s.region.mapping = .upTo n) (hw : s.region.host.Willing) (hr : required ≤ maxSize) :
    ∃ calls g m, reach required s = (.ok (), s.after calls g m) ∧ required ≤ m ∧
      Reaches n required s.region.path s.file.image (.ok ()) calls g m := by
  obtain ⟨o, calls, g, m, hrun, hsaid, hends⟩ := reach_ends hm required
  have hnone := hw.firstError?_eq_none hsaid s.region.path
  rcases hends.outcome with ⟨rfl, -, hreached⟩ | ⟨e, rfl, hfirst, -⟩
  · exact ⟨calls, g, m, hrun, by omega, hends⟩
  · rw [hfirst] at hnone
    cases hnone

/-- A file that is too short gets as long as it is made. -/
theorem size_grow_grownSize (hlt : f.size < required) (hr : required ≤ maxSize) :
    (f.grow (grownSize required)).size = grownSize required := by
  rw [Image.size_grow]
  unfold grownSize
  omega

theorem Reaches.grows (h : Reaches n required path f o calls g m) (hn : n ≤ f.size) (hr : required ≤ maxSize) :
    Grows n required f o calls g m where
  reached ho := by
    cases h with
    | here => omega
    | mapped => omega
    | grown =>
      rw [Image.size_grow]
      unfold grownSize
      omega
    | _ => cases ho
  failed hne := (h.of_failed hne).1
  kept b _ := h.byte_eq b
  zero b hb _ := (h.byte_eq b).trans (f.byte_of_size_le hb)
  same other _ := Mapping.load_congr (h.word_eq _) other
  readable a v hv := by
    have hnm : n ≤ m := by
      cases h with
      | grown => unfold grownSize; omega
      | _ => omega
    exact Mapping.load_upTo_mono hnm ((Mapping.load_congr (h.word_eq _) _).trans hv)
  short hnone := by
    cases h with
    | grown => exact absurd (.tail _ (.head _)) (hnone _)
    | grownUnmapped => exact absurd (.tail _ (.head _)) (hnone _)
    | _ => rfl
  long k hk := by
    cases h with
    | grown _ hlt =>
      obtain rfl : k = grownSize required := by simpa using hk
      exact ⟨hlt, rfl, size_grow_grownSize hlt hr⟩
    | grownUnmapped _ hlt =>
      obtain rfl : k = grownSize required := by simpa using hk
      exact ⟨hlt, rfl, size_grow_grownSize hlt hr⟩
    | _ => simp at hk
  again hne u hu hsize hw := by
    obtain ⟨rfl, hlt⟩ := h.of_failed hne
    obtain ⟨calls', g', m', hrun, hreached, hends⟩ := reach_of_willing hu hw hr
    exact ⟨calls', g', m', hrun, hreached, fun hle => hends.of_le hlt (Nat.le_trans hle hsize)⟩

/-- Whatever the host says, calling for so many bytes that are not mapped comes to one of the seven cases, with success
or without harm: nothing that was in the file or could be read is lost, and a later attempt can succeed. -/
theorem reach_exact (hm : s.region.mapping = .upTo n) (hn : n ≤ s.file.image.size) (hr : required ≤ maxSize) :
    ∃ o calls g m, reach required s = (o, s.after calls g m) ∧ s.region.host.Says calls ∧
      Reaches n required s.region.path s.file.image o calls g m ∧ Grows n required s.file.image o calls g m := by
  obtain ⟨o, calls, g, m, hrun, hsaid, hends⟩ := reach_ends hm required
  exact ⟨o, calls, g, m, hrun, hsaid, hends, hends.grows hn hr⟩

/-- The file is made longer, but mapping it is refused. It is as long then as it was made, and later it is only
mapped. -/
theorem reach_exact_of_refused_map :
    let refusing : Host := HostSettings.host { outages := [⟨.map, 0, 1⟩] }
    let s : Scene := ⟨⟨Image.empty.grow 64, false⟩, { path := "board", mapping := .upTo 64, host := refusing }⟩
    ∃ calls g m, reach 320 s =
        (.error (.failed (.cannotMap "board" (.refused (.injected .map)))), s.after calls g m) ∧
      m = 64 ∧ g.size = 640 ∧ ∃ g' m', reach 320 ((s.after calls g m).withHost .willing) =
        (.ok (), ((s.after calls g m).withHost .willing).after [⟨.length, none⟩, ⟨.map 640, none⟩] g' m') := by
  intro refusing s
  obtain ⟨o, calls, g, m, hrun, -, -, hgrows⟩ := reach_exact (s := s) (n := 64) rfl (by decide)
    (show 320 ≤ maxSize by decide)
  have houtcome : (reach 320 s).1 = .error (.failed (.cannotMap "board" (.refused (.injected .map)))) := by
    decide +kernel
  have hsize : (reach 320 s).2.file.image.size = 640 := by decide +kernel
  rw [hrun] at houtcome hsize
  have hsize : g.size = 640 := hsize
  have hne : o ≠ .ok () := fun ho => nomatch ho.symm.trans houtcome
  obtain ⟨calls', g', m', hretry, -, hcalls⟩ :=
    hgrows.again hne ((s.after calls g m).withHost .willing) rfl (Nat.le_refl _) Host.willing_willing
  obtain ⟨rfl, -⟩ := hcalls (by omega)
  have himage : ((s.after calls g m).withHost .willing).file.image.size = 640 := hsize
  rw [himage] at hretry
  exact ⟨calls, g, m, hrun.trans (congrArg (·, _) houtcome), hgrows.failed hne, hsize, g', m', hretry⟩

end Region

end VersionBoard
