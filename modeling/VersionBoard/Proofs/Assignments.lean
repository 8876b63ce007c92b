import VersionBoard.Proofs.Documents
import VersionBoard.Proofs.Settings
import Mathlib.Data.List.Nodup
import Mathlib.Tactic.Common

/-!
# Settings from builders, objects and arrays

Some of the settings, each with a value, may be given by builders one after
another, as the members of an object among others, or, if they are the first few,
as the elements of an array. A text is read as a configuration exactly if it is
such an object or array and no setting comes twice, and the configuration is the
one that the builders make (`ofText?_eq_some_iff`). In which order the settings
come does not count.
-/

namespace VersionBoard

open Json (Value Document)

/-- What is found by name has that name, and if it is found by its own name, it is found by no other. -/
theorem find?_name_eq_some_iff {α : Type} {name : α → String} {all : List α} {a : α} {s : String}
    (ha : all.find? (name · = name a) = some a) : all.find? (name · = s) = some a ↔ s = name a := by
  constructor
  · intro h
    simpa [eq_comm] using List.find?_some h
  · rintro rfl
    exact ha

theorem Policy.ofName?_eq_some_iff {s : String} {p : Policy} : Policy.ofName? s = some p ↔ s = p.name :=
  find?_name_eq_some_iff (Policy.ofName?_name p)

theorem Policy.ofValue?_eq_some_iff {v : Value} {p : Policy} :
    Policy.ofValue? v = some p ↔ v = .string (some p.name) ∨ v = .object [(some p.name, .null)] := by
  constructor
  · intro h
    unfold Policy.ofValue? at h
    split at h
    · exact .inl (by rw [Policy.ofName?_eq_some_iff.mp h])
    · exact .inr (by rw [Policy.ofName?_eq_some_iff.mp h])
    · cases h
  · rintro (rfl | rfl) <;> exact Policy.ofName?_name p

/-- A natural number is written as its digits alone. -/
theorem intOf?_eq_some_natCast_iff {v : Value} {n : Nat} :
    intOf? v = some (n : Int) ↔ v = .number (.integer false n) := by
  constructor
  · intro h
    unfold intOf? at h
    split at h
    · next m =>
      unfold Json.Number.int? at h
      split at h
      · next k =>
        have hk : (k : Int) = n := Option.some.inj h
        rw [Int.ofNat_inj.mp hk]
      · next k =>
        split at h
        · cases h
        · next hk =>
          have hneg : -(k : Int) = n := Option.some.inj h
          omega
      · cases h
    · cases h
  · rintro rfl
    rfl

namespace Config

theorem Field.name_injective : Function.Injective Field.name :=
  fun f g h => Option.some.inj (by rw [← ofName?_name f, h, ofName?_name])

theorem Field.ofName?_eq_some_iff {s : String} {f : Field} : Field.ofName? s = some f ↔ s = f.name :=
  find?_name_eq_some_iff (ofName?_name f)

theorem Field.ofName?_eq_none_iff {s : String} : Field.ofName? s = none ↔ ∀ f : Field, f.name ≠ s := by
  simp only [Option.eq_none_iff_forall_ne_some, ne_eq, ofName?_eq_some_iff, eq_comm (a := s)]

/-! ### One setting -/

/-- A setting with a value for it. -/
inductive Setting where
  /-- The file name. -/
  | fileName (name : String)
  /-- The policy. -/
  | policy (p : Policy)
  /-- Busy turns on a lock word. -/
  | spins (n : UInt32)
  /-- Whether closing flushes. -/
  | flushOnClose (b : Bool)
  deriving DecidableEq

namespace Setting

/-- Which of the settings it is. -/
def field : Setting → Field
  | fileName _ => .fileName
  | policy _ => .policy
  | spins _ => .spins
  | flushOnClose _ => .flushOnClose

/-- The builder of the setting. -/
def set : Setting → Config → Config
  | fileName name, c => c.withFileName name
  | policy p, c => c.withPolicy p
  | spins n, c => c.withSpins n
  | flushOnClose b, c => c.withFlushOnClose b

/-- What a setting may be written as. -/
inductive Written : Setting → Value → Prop where
  /-- A file name is a string. -/
  | fileName (s : String) : Written (.fileName s) (.string (some s))
  /-- A policy is its name. -/
  | policy (p : Policy) : Written (.policy p) (.string (some p.name))
  /-- A policy is an object with nothing under its name. -/
  | policyObject (p : Policy) : Written (.policy p) (.object [(some p.name, .null)])
  /-- A number of turns is an integer without a sign. -/
  | spins (n : UInt32) : Written (.spins n) (.number (.integer false n.toNat))
  /-- Whether closing flushes is a truth value. -/
  | flushOnClose (b : Bool) : Written (.flushOnClose b) (.bool b)

/-- What a setting may be written as, with the field it is written for. -/
def WrittenFor (s : Setting) (fv : Field × Value) : Prop := s.field = fv.1 ∧ s.Written fv.2

/-- Builders of two settings do not get in each other's way. -/
theorem set_comm {s t : Setting} (h : s.field ≠ t.field) (c : Config) : s.set (t.set c) = t.set (s.set c) := by
  cases s <;> cases t <;> first | rfl | exact absurd rfl h

end Setting

/-- Reading what a setting may be written as comes to what its builder does. -/
theorem set?_of_writtenFor {s : Setting} {f : Field} {v : Value} (h : s.WrittenFor (f, v)) (c : Config) :
    c.set? f v = some (s.set c) := by
  obtain ⟨hf, hw⟩ := h
  subst hf
  cases hw with
  | fileName => rfl
  | policy p => rw [Setting.field, set?, Policy.ofValue?_eq_some_iff.mpr (.inl rfl)]; rfl
  | policyObject p => rw [Setting.field, set?, Policy.ofValue?_eq_some_iff.mpr (.inr rfl)]; rfl
  | spins n =>
    have hrange : (0 : Int) ≤ n.toNat ∧ (n.toNat : Int) < UInt32.size :=
      ⟨Int.natCast_nonneg _, Int.ofNat_lt.mpr n.toNat_lt_size⟩
    rw [Setting.field, set?, intOf?_eq_some_natCast_iff.mpr rfl, Option.bind_eq_bind, Option.bind_some, if_pos hrange,
      Int.toNat_natCast, UInt32.ofNat_toNat]
    rfl
  | flushOnClose => rfl

/-- What is read for a field is what some setting of that field may be written as. -/
theorem exists_writtenFor_of_set? {c d : Config} {f : Field} {v : Value} (h : c.set? f v = some d) :
    ∃ s : Setting, s.WrittenFor (f, v) := by
  unfold set? at h
  split at h
  · next name => exact ⟨_, rfl, .fileName name⟩
  · obtain ⟨p, hp, -⟩ := Option.map_eq_some_iff.mp h
    rcases Policy.ofValue?_eq_some_iff.mp hp with rfl | rfl
    · exact ⟨_, rfl, .policy p⟩
    · exact ⟨_, rfl, .policyObject p⟩
  · obtain ⟨n, hn, h⟩ := Option.bind_eq_some_iff.mp h
    split at h
    · next hrange =>
      lift n to Nat using hrange.1
      have hsize : n < UInt32.size := Int.ofNat_lt.mp hrange.2
      have hnat : (UInt32.ofNat n).toNat = n := UInt32.toNat_ofNat_of_lt' hsize
      have hw := Setting.Written.spins (UInt32.ofNat n)
      rw [hnat, ← intOf?_eq_some_natCast_iff.mp hn] at hw
      exact ⟨_, rfl, hw⟩
    · cases h
  · next b => exact ⟨_, rfl, .flushOnClose b⟩
  · cases h

/-- A value is read for a field just if it is what some setting of that field may be written as, and then as the builder
of that setting does. -/
theorem set?_eq_some_iff {c d : Config} {f : Field} {v : Value} :
    c.set? f v = some d ↔ ∃ s : Setting, s.WrittenFor (f, v) ∧ s.set c = d := by
  constructor
  · intro h
    obtain ⟨s, hs⟩ := exists_writtenFor_of_set? h
    exact ⟨s, hs, Option.some.inj ((set?_of_writtenFor hs c).symm.trans h)⟩
  · rintro ⟨s, hs, rfl⟩
    exact set?_of_writtenFor hs c

/-! ### Settings one after another -/

/-- The configuration that the builders of some settings make, one after another, from nothing set. -/
def build (ss : List Setting) : Config := ss.foldl (fun c s => s.set c) default

/-- The order of the builders does not count, if no setting comes twice. -/
theorem build_eq_of_perm {ss ts : List Setting} (h : ss.Perm ts) (hd : (ss.map Setting.field).Nodup) :
    build ss = build ts := by
  refine h.foldl_eq' (fun s hs t ht c => ?_) _
  by_cases hst : s = t
  · rw [hst]
  · exact Setting.set_comm (fun hf => hst (List.inj_on_of_nodup_map hd ht hs hf).symm) c

theorem foldlM_set?_eq_some_iff {fvs : List (Field × Value)} {c d : Config} :
    fvs.foldlM (fun c (f, v) => c.set? f v) c = some d ↔
      ∃ ss, List.Forall₂ Setting.WrittenFor ss fvs ∧ ss.foldl (fun c s => s.set c) c = d := by
  induction fvs generalizing c with
  | nil => simp
  | cons fv fvs ih =>
    simp only [List.foldlM_cons, Option.bind_eq_bind, Option.bind_eq_some_iff, set?_eq_some_iff, ih,
      List.forall₂_cons_right_iff]
    constructor
    · rintro ⟨_, ⟨s, hs, rfl⟩, ss, hss, rfl⟩
      exact ⟨_, ⟨s, ss, hs, hss, rfl⟩, rfl⟩
    · rintro ⟨_, ⟨s, ss, hs, hss, rfl⟩, rfl⟩
      exact ⟨_, ⟨s, hs, rfl⟩, ss, hss, rfl⟩

theorem ofFields?_eq_some_iff {fvs : List (Field × Value)} {c : Config} :
    ofFields? fvs = some c ↔
      ∃ ss, (ss.map Setting.field).Nodup ∧ List.Forall₂ Setting.WrittenFor ss fvs ∧ build ss = c := by
  have hfields : ∀ {ss}, List.Forall₂ Setting.WrittenFor ss fvs → ss.map Setting.field = fvs.map (·.1) := by
    intro ss h
    induction h with
    | nil => rfl
    | cons hs _ ih => rw [List.map_cons, List.map_cons, hs.1, ih]
  unfold ofFields?
  split
  · next hd =>
    rw [foldlM_set?_eq_some_iff]
    exact exists_congr fun ss => ⟨fun h => ⟨hfields h.1 ▸ hd, h⟩, fun h => h.2⟩
  · next hd =>
    refine ⟨nofun, ?_⟩
    rintro ⟨ss, hnodup, h, -⟩
    exact absurd (hfields h ▸ hnodup) hd

/-! ### Objects -/

/-- Members that are settings in order, with any other members between them. -/
inductive Holds : List Setting → List (Option String × Value) → Prop where
  /-- No members. -/
  | nil : Holds [] []
  /-- A setting stands under its name. -/
  | setting {s : Setting} {v : Value} {ss : List Setting} {ms : List (Option String × Value)} (hv : s.Written v)
      (h : Holds ss ms) : Holds (s :: ss) ((some s.field.name, v) :: ms)
  /-- A member with any other name may have any value. -/
  | other {k : String} {v : Value} {ss : List Setting} {ms : List (Option String × Value)}
      (hk : ∀ f : Field, f.name ≠ k) (h : Holds ss ms) : Holds ss ((some k, v) :: ms)

theorem knownFields?_cons (k : Option String) (v : Value) (ms : List (Option String × Value)) :
    knownFields? ((k, v) :: ms) = k.bind fun k => (knownFields? ms).map (((Field.ofName? k).map (·, v)).toList ++ ·) := by
  cases k with
  | none => rfl
  | some k =>
    simp only [knownFields?, List.mapM_cons, Option.map_some, Option.bind_eq_bind, Option.bind_some, Option.pure_def]
    generalize (ms.mapM _ : Option (List (String × Value))) = named
    cases named with
    | none => rfl
    | some named => cases hk : Field.ofName? k <;> simp [hk]

theorem holds_iff {ss : List Setting} {ms : List (Option String × Value)} :
    Holds ss ms ↔ ∃ fvs, knownFields? ms = some fvs ∧ List.Forall₂ Setting.WrittenFor ss fvs := by
  constructor
  · intro h
    induction h with
    | nil => exact ⟨[], rfl, .nil⟩
    | @setting s v ss ms hv _ ih =>
      obtain ⟨fvs, hms, hss⟩ := ih
      exact ⟨(s.field, v) :: fvs, by simp [knownFields?_cons, hms, Field.ofName?_name], .cons ⟨rfl, hv⟩ hss⟩
    | other hk _ ih =>
      obtain ⟨fvs, hms, hss⟩ := ih
      exact ⟨fvs, by simp [knownFields?_cons, hms, Field.ofName?_eq_none_iff.mpr hk], hss⟩
  · rintro ⟨fvs, hms, hss⟩
    induction ms generalizing ss fvs with
    | nil =>
      cases hms
      cases hss
      exact .nil
    | cons m ms ih =>
      obtain ⟨k, v⟩ := m
      rw [knownFields?_cons] at hms
      obtain ⟨k, rfl, hknown⟩ := Option.bind_eq_some_iff.mp hms
      obtain ⟨fvs, hrest, rfl⟩ := Option.map_eq_some_iff.mp hknown
      cases hk : Field.ofName? k with
      | none =>
        rw [hk] at hss
        exact .other (Field.ofName?_eq_none_iff.mp hk) (ih fvs hrest hss)
      | some f =>
        rw [hk] at hss
        obtain ⟨s, ss', ⟨rfl, hv⟩, htail, rfl⟩ := List.forall₂_cons_right_iff.mp hss
        rw [Field.ofName?_eq_some_iff.mp hk]
        exact .setting hv (ih fvs hrest htail)

/-- A name of a setting stands before as many members as there are settings of that field. -/
theorem Holds.count {ss : List Setting} {ms : List (Option String × Value)} (h : Holds ss ms) (f : Field) :
    (ms.map Prod.fst).count (some f.name) = (ss.map Setting.field).count f := by
  induction h with
  | nil => rfl
  | @setting s v ss ms _ _ ih =>
    have hname : s.field.name = f.name ↔ s.field = f := Field.name_injective.eq_iff
    simp [List.count_cons, ih, hname]
  | other hk _ ih => simp [ih, (hk f).symm]

theorem ofValue?_object_eq_some_iff {ms : List (Option String × Value)} {c : Config} :
    ofValue? (.object ms) = some c ↔ ∃ ss, (ss.map Setting.field).Nodup ∧ Holds ss ms ∧ build ss = c := by
  simp only [ofValue?, Option.bind_eq_bind, Option.bind_eq_some_iff, ofFields?_eq_some_iff, holds_iff]
  constructor
  · rintro ⟨fvs, hms, ss, hd, hss, hc⟩
    exact ⟨ss, hd, ⟨fvs, hms, hss⟩, hc⟩
  · rintro ⟨ss, hd, ⟨fvs, hms, hss⟩, hc⟩
    exact ⟨fvs, hms, ss, hd, hss, hc⟩

/-! ### Arrays -/

theorem forall₂_writtenFor_zip_iff {ss : List Setting} {fs : List Field} {vs : List Value}
    (hlen : vs.length ≤ fs.length) :
    List.Forall₂ Setting.WrittenFor ss (fs.zip vs) ↔
      ss.map Setting.field <+: fs ∧ List.Forall₂ Setting.Written ss vs := by
  induction vs generalizing ss fs with
  | nil =>
    simp only [List.zip_nil_right, List.forall₂_nil_right_iff]
    constructor
    · rintro rfl
      exact ⟨List.nil_prefix, rfl⟩
    · exact And.right
  | cons v vs ih =>
    cases fs with
    | nil => cases hlen
    | cons f fs =>
      cases ss with
      | nil => simp
      | cons s ss =>
        rw [List.zip_cons_cons, List.forall₂_cons, List.forall₂_cons, ih (Nat.le_of_succ_le_succ hlen), List.map_cons,
          List.cons_prefix_cons]
        exact and_and_and_comm

theorem ofValue?_array_eq_some_iff {vs : List Value} {c : Config} :
    ofValue? (.array vs) = some c ↔
      ∃ ss, ss.map Setting.field <+: Field.all ∧ List.Forall₂ Setting.Written ss vs ∧ build ss = c := by
  rw [ofValue?]
  split
  · next hlen =>
    rw [ofFields?_eq_some_iff]
    refine exists_congr fun ss => ?_
    rw [forall₂_writtenFor_zip_iff hlen, and_assoc, and_iff_right_of_imp]
    exact fun h => (by decide : Field.all.Nodup).sublist h.1.sublist
  · next hlen =>
    constructor
    · intro h
      cases h
    · rintro ⟨ss, hprefix, hss, -⟩
      have hle := hprefix.length_le
      rw [List.length_map, hss.length_eq] at hle
      exact absurd hle hlen

/-! ### Texts -/

theorem ofText?_of_document {text : String} {v : Value} (h : Document text v) : ofText? text = ofValue? v := by
  rw [ofText?, h.ofText?]
  rfl

/-- A text is read as a configuration just if it is an object that holds some settings, each once, or an array of the
first few, and the configuration is what their builders make. -/
theorem ofText?_eq_some_iff {text : String} {c : Config} :
    ofText? text = some c ↔
      (∃ ms ss, Document text (.object ms) ∧ (ss.map Setting.field).Nodup ∧ Holds ss ms ∧ build ss = c) ∨
        ∃ vs ss, Document text (.array vs) ∧ ss.map Setting.field <+: Field.all ∧ List.Forall₂ Setting.Written ss vs ∧
          build ss = c := by
  constructor
  · intro h
    obtain ⟨v, hv, hc⟩ := Option.bind_eq_some_iff.mp h
    rw [Value.ofText?_eq_some_iff] at hv
    cases v with
    | object ms =>
      obtain ⟨ss, hss⟩ := ofValue?_object_eq_some_iff.mp hc
      exact .inl ⟨ms, ss, hv, hss⟩
    | array vs =>
      obtain ⟨ss, hss⟩ := ofValue?_array_eq_some_iff.mp hc
      exact .inr ⟨vs, ss, hv, hss⟩
    | _ => cases hc
  · rintro (⟨ms, ss, hv, hss⟩ | ⟨vs, ss, hv, hss⟩)
    · rw [ofText?_of_document hv]
      exact ofValue?_object_eq_some_iff.mpr ⟨ss, hss⟩
    · rw [ofText?_of_document hv]
      exact ofValue?_array_eq_some_iff.mpr ⟨ss, hss⟩

/-- A setting that comes twice in an object, with whatever value, makes it no configuration. -/
theorem ofText?_eq_none_of_count {text : String} {ms : List (Option String × Value)} (h : Document text (.object ms))
    (f : Field) (hf : 1 < (ms.map Prod.fst).count (some f.name)) : ofText? text = none := by
  rw [ofText?_of_document h, Option.eq_none_iff_forall_ne_some]
  intro c hc
  obtain ⟨ss, hd, hss, -⟩ := ofValue?_object_eq_some_iff.mp hc
  have hone := List.nodup_iff_count_le_one.mp hd f
  rw [hss.count] at hf
  omega

/-- An array with an element too many is no configuration. -/
theorem ofText?_eq_none_of_length {text : String} {vs : List Value} (h : Document text (.array vs))
    (hlen : Field.all.length < vs.length) : ofText? text = none := by
  rw [ofText?_of_document h, ofValue?, if_neg (by omega)]

/-- Builders in any order, an object with the settings in any order and anything else between them, and an array, if the
settings are the first few, come to one configuration. With a setting twice, or an element too many, there is none. -/
theorem settings_agree {ss : List Setting} (hd : (ss.map Setting.field).Nodup) :
    (∀ ts, ts.Perm ss → build ts = build ss) ∧
      (∀ text ms ts, Document text (.object ms) → Holds ts ms → ts.Perm ss → ofText? text = some (build ss)) ∧
        (∀ text vs, Document text (.array vs) → List.Forall₂ Setting.Written ss vs → ss.map Setting.field <+: Field.all →
          ofText? text = some (build ss)) ∧
          (∀ text ms (f : Field), Document text (.object ms) → 1 < (ms.map Prod.fst).count (some f.name) →
            ofText? text = none) ∧
            ∀ text vs, Document text (.array vs) → Field.all.length < vs.length → ofText? text = none := by
  have horder : ∀ ts, ts.Perm ss → build ts = build ss := fun ts h => (build_eq_of_perm h.symm hd).symm
  refine ⟨horder, ?_, ?_, fun _ _ f h => ofText?_eq_none_of_count h f, fun _ _ => ofText?_eq_none_of_length⟩
  · intro text ms ts htext hts hperm
    have hdts : (ts.map Setting.field).Nodup := (hperm.map _).nodup_iff.mpr hd
    exact ofText?_eq_some_iff.mpr (.inl ⟨ms, ts, htext, hdts, hts, horder ts hperm⟩)
  · intro text vs htext hvs hprefix
    exact ofText?_eq_some_iff.mpr (.inr ⟨vs, ss, htext, hprefix, hvs, rfl⟩)

set_option maxRecDepth 1024 in
/-- All four, the policy as an object, with a member among them that does not count, an escape in a name and blanks; the
four as an array, and the first two; the file name a second time; and an array of five. -/
theorem settings_agree_of_all_fields :
    let ss : List Setting := [.fileName "a", .policy .day, .spins 7, .flushOnClose true]
    let c : Config := { fileName := "a", policy := .day, spins := 7, flushOnClose := true }
    (ss.map Setting.field).Nodup ∧ ss.reverse.Perm ss ∧ build ss.reverse = c ∧
      ofText? (" \x7b\"sync_on_close\" : true,\"partition\\u005fby\":\x7b\"day\":null\x7d," ++
        "\"x\" : [1e5, \x7b\"file_name\":\"\\ud800\"\x7d],\"header_lock_spins\":7,\"file_name\":\"a\"\x7d") = some c ∧
      ofText? "[\"a\" ,\"day\", 7,true]" = some c ∧
      ofText? "[\"a\" ,\"day\"]" = some { fileName := "a", policy := .day } ∧
      ofText? "\x7b\"file_name\":\"a\",\"x\":0,\"file_name\":\"a\"\x7d" = none ∧
      ofText? "[\"a\",\"day\",7,true,null]" = none := by
  intro ss c
  have hd : (ss.map Setting.field).Nodup := by decide
  obtain ⟨horder, hobject, harray, htwice, hlong⟩ := settings_agree hd
  have hbuild : build ss = c := rfl
  have hreverse : ss.reverse.Perm ss := List.reverse_perm ss
  rw [← hbuild]
  refine ⟨hd, hreverse, horder _ hreverse, ?_, ?_, ?_, ?_, ?_⟩
  · refine hobject _ [(some "sync_on_close", .bool true), (some "partition_by", .object [(some "day", .null)]),
      (some "x", .array [.number .other, .object [(some "file_name", .string none)]]),
      (some "header_lock_spins", .number (.integer false 7)), (some "file_name", .string (some "a"))]
      [.flushOnClose true, .policy .day, .spins 7, .fileName "a"]
      (Value.ofText?_eq_some_iff.mp (by with_unfolding_all rfl)) ?_ (by decide)
    exact .setting (.flushOnClose true) (.setting (.policyObject .day) (.other (fun f => by cases f <;> decide)
      (.setting (.spins 7) (.setting (.fileName "a") .nil))))
  · exact harray _ [.string (some "a"), .string (some "day"), .number (.integer false 7), .bool true]
      (Value.ofText?_eq_some_iff.mp (by with_unfolding_all rfl))
      (.cons (.fileName "a") (.cons (.policy .day) (.cons (.spins 7) (.cons (.flushOnClose true) .nil)))) (by decide)
  · have hfirst : ([Setting.fileName "a", .policy .day].map Setting.field).Nodup := by decide
    exact (settings_agree hfirst).2.2.1 _ [.string (some "a"), .string (some "day")]
      (Value.ofText?_eq_some_iff.mp (by with_unfolding_all rfl))
      (.cons (.fileName "a") (.cons (.policy .day) .nil)) (by decide)
  · exact htwice _ [(some "file_name", .string (some "a")), (some "x", .number (.integer false 0)),
      (some "file_name", .string (some "a"))] .fileName
      (Value.ofText?_eq_some_iff.mp (by with_unfolding_all rfl)) (by decide)
  · exact hlong _ [.string (some "a"), .string (some "day"), .number (.integer false 7), .bool true, .null]
      (Value.ofText?_eq_some_iff.mp (by with_unfolding_all rfl)) (by decide)

end Config

end VersionBoard
