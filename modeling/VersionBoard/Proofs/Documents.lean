import VersionBoard.Proofs.Grammar

/-!
# Only JSON texts are read

The way back from the reader to the grammar. A token is a text of its own
(`TokenText`). What has been read so far always is a beginning of a text of the
grammar, with what is open as the stack has it (`ReadSoFar`); every blank and
every token goes on from one such beginning to another. So the reader accepts the
documents, with their values, and nothing else (`ofText?_eq_some_iff`).
-/

namespace VersionBoard.Json

/-! ### Numbers -/

theorem digits_of_scanDigits {cs ds rest : List Char} (h : scanDigits cs = some (ds, rest)) :
    cs = ds ++ rest ∧ Digits ds := by
  simp only [scanDigits, List.isEmpty_iff] at h
  split at h
  · cases h
  · next hne =>
    cases h
    exact ⟨List.takeWhile_append_dropWhile.symm, hne, fun c hc => List.all_eq_true.mp List.all_takeWhile c hc⟩

theorem wholeDigits_of_scanWhole {cs ds rest : List Char} (h : scanWhole cs = some (ds, rest)) :
    cs = ds ++ rest ∧ WholeDigits ds := by
  unfold scanWhole at h
  split at h
  · cases h
    exact ⟨rfl, ⟨by simp, by simp⟩, fun _ => rfl⟩
  · next hzero =>
    obtain ⟨rfl, hds⟩ := digits_of_scanDigits h
    refine ⟨rfl, hds, fun hhead => ?_⟩
    obtain ⟨ds', rfl⟩ := List.head?_eq_some_iff.mp hhead
    exact absurd rfl (hzero _)

theorem fractionText_of_scanFraction? {cs : List Char} {x : Option (List Char)} (h : scanFraction? cs = some x) :
    ∃ fr, FractionText fr ∧ cs = fr ++ x.getD cs ∧ (x = none ↔ fr = []) := by
  unfold scanFraction? at h
  split at h
  · obtain ⟨⟨ds, rest⟩, hd, rfl⟩ := Option.map_eq_some_iff.mp h
    obtain ⟨rfl, hds⟩ := digits_of_scanDigits hd
    exact ⟨_, .some hds, rfl, by simp⟩
  · cases h
    exact ⟨[], .none, rfl, by simp⟩

theorem dropSign_spec (cs : List Char) :
    ∃ sign, (sign = [] ∨ sign = ['+'] ∨ sign = ['-']) ∧ cs = sign ++ dropSign cs := by
  unfold dropSign
  split
  · exact ⟨['+'], .inr (.inl rfl), rfl⟩
  · exact ⟨['-'], .inr (.inr rfl), rfl⟩
  · exact ⟨[], .inl rfl, rfl⟩

theorem exponentText_of_scanExponent? {cs : List Char} {x : Option (List Char)} (h : scanExponent? cs = some x) :
    ∃ ex, ExponentText ex ∧ cs = ex ++ x.getD cs ∧ (x = none ↔ ex = []) := by
  have key : ∀ {e : Char} {cs : List Char}, (e = 'e' ∨ e = 'E') → (scanDigits (dropSign cs)).map (some ·.2) = some x →
      ∃ ex, ExponentText ex ∧ e :: cs = ex ++ x.getD (e :: cs) ∧ (x = none ↔ ex = []) := by
    intro e cs he h
    obtain ⟨⟨ds, rest⟩, hd, rfl⟩ := Option.map_eq_some_iff.mp h
    obtain ⟨sign, hsign, hcs⟩ := dropSign_spec cs
    obtain ⟨hdrop, hds⟩ := digits_of_scanDigits hd
    refine ⟨_, .some he hsign hds, ?_, by simp⟩
    rw [hcs, hdrop, Option.getD_some, List.cons_append, List.append_assoc]
  unfold scanExponent? at h
  split at h
  · exact key (.inl rfl) h
  · exact key (.inr rfl) h
  · cases h
    exact ⟨[], .none, rfl, by simp⟩

theorem numberText_of_scanUnsigned {negative : Bool} {cs rest : List Char} {n : Number}
    (h : scanUnsigned negative cs = some (n, rest)) :
    ∃ text, cs = text ++ rest ∧ NumberText (minusText negative ++ text) n := by
  simp only [scanUnsigned, Option.bind_eq_bind, Option.bind_eq_some_iff, Option.pure_def, Option.some.injEq,
    Prod.mk.injEq, Prod.exists, Option.isNone_iff_eq_none] at h
  obtain ⟨ds, r, hw, x, hx, y, hy, hn, rfl⟩ := h
  obtain ⟨rfl, hds⟩ := wholeDigits_of_scanWhole hw
  obtain ⟨fr, hfr, hcut, hfrn⟩ := fractionText_of_scanFraction? hx
  obtain ⟨ex, hex, hcut', hexn⟩ := exponentText_of_scanExponent? hy
  refine ⟨ds ++ fr ++ ex, ?_, ?_⟩
  · rw [List.append_assoc, List.append_assoc, ← hcut', ← hcut]
  · simp only [hfrn, hexn] at hn
    split at hn
    · next hnone =>
      rw [hnone.1, hnone.2, List.append_nil, List.append_nil, ← hn]
      exact .integer negative hds
    · next hsome =>
      rw [← hn, ← List.append_assoc, ← List.append_assoc]
      exact .other negative hds hfr hex (by simpa using hsome)

theorem numberText_of_scanNumber {cs rest : List Char} {n : Number} (h : scanNumber cs = some (n, rest)) :
    ∃ text, cs = text ++ rest ∧ NumberText text n := by
  unfold scanNumber at h
  split at h
  · obtain ⟨text, rfl, ht⟩ := numberText_of_scanUnsigned h
    exact ⟨_, rfl, ht⟩
  · exact numberText_of_scanUnsigned h

/-! ### Strings -/

theorem piecesText_of_scanPieces {cs rest : List Char} {ps : List Piece} (h : scanPieces cs = some (ps, rest)) :
    ∃ text, cs = text ++ '"' :: rest ∧ PiecesText text ps := by
  fun_induction scanPieces cs generalizing ps rest with
  | case1 => cases h
  | case2 r =>
    cases h
    exact ⟨[], rfl, .nil⟩
  | case3 a b c d r ih =>
    simp only [Option.bind_eq_bind, Option.bind_eq_some_iff, Option.pure_def, Option.some.injEq, Prod.mk.injEq,
      Prod.exists] at h
    obtain ⟨u, hu, ps, r', hr, rfl, rfl⟩ := h
    obtain ⟨text, rfl, ht⟩ := ih hr
    exact ⟨_, rfl, .unit hu ht⟩
  | case4 r c hc ih =>
    simp only [Option.bind_eq_bind, Option.bind_eq_some_iff, Option.pure_def, Option.some.injEq, Prod.mk.injEq,
      Prod.exists] at h
    obtain ⟨d, hd, ps, r', hr, rfl, rfl⟩ := h
    obtain ⟨text, rfl, ht⟩ := ih hr
    exact ⟨_, rfl, .short hd ht⟩
  | case5 => cases h
  | case6 r c hq _ _ hc ih =>
    simp only [Option.bind_eq_bind, Option.bind_eq_some_iff, Option.pure_def, Option.some.injEq, Prod.mk.injEq,
      Prod.exists] at h
    obtain ⟨ps, r', hr, rfl, rfl⟩ := h
    obtain ⟨text, rfl, ht⟩ := ih hr
    exact ⟨_, rfl, .plain (fun h => hc (.inl h)) hq (fun h => hc (.inr h)) ht⟩

/-! ### Tokens -/

/-- A text that is a token. -/
inductive TokenText : List Char → Token → Prop where
  | openBrace : TokenText ['{'] .openBrace
  | closeBrace : TokenText ['}'] .closeBrace
  | openBracket : TokenText ['['] .openBracket
  | closeBracket : TokenText [']'] .closeBracket
  | colon : TokenText [':'] .colon
  | comma : TokenText [','] .comma
  | null : TokenText ['n', 'u', 'l', 'l'] .null
  | bool (b : Bool) : TokenText (toString b).toList (.bool b)
  | number {cs : List Char} {n : Number} (h : NumberText cs n) : TokenText cs (.number n)
  | string {cs : List Char} {s : Option String} (h : Literal cs s) : TokenText cs (.string s)

/-- The reader takes tokens off a text and nothing else. -/
theorem tokenText_of_scan {cs rest : List Char} {t : Token} (h : scan cs = some (t, rest)) :
    ∃ text, cs = text ++ rest ∧ TokenText text t := by
  unfold scan at h
  split at h
  case h_7 => cases h; exact ⟨_, rfl, .null⟩
  case h_8 => cases h; exact ⟨_, rfl, .bool true⟩
  case h_9 => cases h; exact ⟨_, rfl, .bool false⟩
  case h_10 r =>
    obtain ⟨⟨ps, rest⟩, hp, heq⟩ := Option.map_eq_some_iff.mp h
    cases heq
    obtain ⟨text, rfl, ht⟩ := piecesText_of_scanPieces hp
    exact ⟨'"' :: (text ++ ['"']), by simp, .string (.mk ht)⟩
  case h_11 =>
    obtain ⟨⟨n, rest⟩, hn, heq⟩ := Option.map_eq_some_iff.mp h
    cases heq
    obtain ⟨text, rfl, ht⟩ := numberText_of_scanNumber hn
    exact ⟨text, rfl, .number ht⟩
  all_goals
    cases h
    exact ⟨[_], rfl, by constructor⟩

/-! ### Items behind one another -/

/-- An element stands as it should. -/
def Element.Fits (x : Element) : Prop := x.Spaced ∧ Text x.text x.value

/-- A member stands as it should. -/
def Member.Fits (x : Member) : Prop := x.Spaced ∧ Literal x.label x.name ∧ Text x.element.text x.element.value

namespace Value

section Items

variable {ι α : Type} (bracket : Char) (text : ι → List Char) (value : ι → α) (fits : ι → Prop)

/-- Items with a comma behind each. -/
def followed (is : List ι) : List Char := is.flatMap (text · ++ [','])

/-- A beginning of an array or object up to where an item may stand, with the items that it has, last one first. -/
inductive Start : List α → List Char → Prop where
  | mk {bs : List Char} {is : List ι} (hb : Blanks bs) (hi : ∀ i ∈ is, fits i) :
      Start (is.map value).reverse (bs ++ bracket :: followed text is)

variable {bracket text value fits}

theorem intercalate_snoc (is : List ι) (i : ι) :
    [','].intercalate ((is ++ [i]).map text) = followed text is ++ text i := by
  induction is with
  | nil => simp [followed]
  | cons j is ih =>
    obtain ⟨k, ks, hk⟩ := List.exists_cons_of_ne_nil (show (is ++ [i]).map text ≠ [] by simp)
    rw [List.cons_append, List.map_cons, hk, List.intercalate_cons_cons, ← hk, ih]
    simp [followed]

theorem Start.nil {bs : List Char} (hb : Blanks bs) : Start bracket text value fits [] (bs ++ [bracket]) :=
  .mk hb (List.forall_mem_nil fits)

theorem Start.of_nil {start : List Char} (h : Start bracket text value fits [] start) :
    ∃ bs, Blanks bs ∧ start = bs ++ [bracket] := by
  generalize hvs : ([] : List α) = vs at h
  cases h with
  | @mk bs is hb _ =>
    have his : is = [] := by simpa using hvs.symm
    exact ⟨bs, hb, by rw [his]; rfl⟩

theorem Start.snoc {vs : List α} {start : List Char} (h : Start bracket text value fits vs start) {i : ι} (hi : fits i) :
    Start bracket text value fits (value i :: vs) (start ++ text i ++ [',']) := by
  cases h with
  | mk hb h =>
    have hnew : Start bracket text value fits _ _ :=
      .mk hb (List.forall_mem_append.mpr ⟨h, List.forall_mem_singleton.mpr hi⟩)
    simpa [followed] using hnew

end Items

/-- A beginning of an array. -/
abbrev ArrayStart : List Value → List Char → Prop := Start '[' Element.chars Element.value Element.Fits

/-- A beginning of an object. -/
abbrev ObjectStart : List (Option String × Value) → List Char → Prop := Start '{' Member.chars Member.named Member.Fits

/-- An array ends behind an element. -/
theorem Start.closeBracket {vs : List Value} {start : List Char} (h : ArrayStart vs start) {x : Element} (hx : x.Fits) :
    ∃ bs text, Blanks bs ∧ start ++ x.chars ++ [']'] = bs ++ text ∧ Text text (.array (x.value :: vs).reverse) := by
  cases h with
  | @mk bs xs hb h =>
    have hall : ∀ y ∈ xs ++ [x], y.Fits := List.forall_mem_append.mpr ⟨h, List.forall_mem_singleton.mpr hx⟩
    have htext := Text.array (by simp) (fun y hy => (hall y hy).1) fun y hy => (hall y hy).2
    rw [intercalate_snoc] at htext
    refine ⟨bs, _, hb, ?_, by simpa using htext⟩
    simp

/-- An object ends behind a member. -/
theorem Start.closeBrace {ms : List (Option String × Value)} {start : List Char} (h : ObjectStart ms start) {x : Member}
    (hx : x.Fits) :
    ∃ bs text, Blanks bs ∧ start ++ x.chars ++ ['}'] = bs ++ text ∧ Text text (.object (x.named :: ms).reverse) := by
  cases h with
  | @mk bs xs hb h =>
    have hall : ∀ y ∈ xs ++ [x], y.Fits := List.forall_mem_append.mpr ⟨h, List.forall_mem_singleton.mpr hx⟩
    have htext := Text.object (by simp) (fun y hy => (hall y hy).1) (fun y hy => (hall y hy).2.1)
      fun y hy => (hall y hy).2.2
    rw [intercalate_snoc] at htext
    refine ⟨bs, _, hb, ?_, by simpa using htext⟩
    simp

/-! ### What has been read -/

/-- A name with blanks around it. -/
inductive LabelText : Option String → List Char → Prop where
  | mk {before label after : List Char} {name : Option String} (hb : Blanks before) (hn : Literal label name)
      (ha : Blanks after) : LabelText name (before ++ label ++ after)

/-- A name and a value are a member. -/
theorem LabelText.member {k : Option String} {label : List Char} (h : LabelText k label) {x : Element} (hx : x.Fits) :
    ∃ m : Member, m.Fits ∧ m.chars = label ++ ':' :: x.chars ∧ m.named = (k, x.value) := by
  cases h with
  | @mk before label after _ hb hn ha =>
    exact ⟨⟨before, label, after, k, x⟩, ⟨⟨⟨hb, ha⟩, hx.1⟩, hn, hx.2⟩, rfl, rfl⟩

/-- A beginning of a text up to where a value may stand, with what is open there. -/
inductive Opened : List Frame → List Char → Prop where
  /-- Nothing is open at the start. -/
  | nil : Opened [] []
  /-- A value may stand in an array that is open. -/
  | array {vs : List Value} {st : List Frame} {cs start : List Char} (h : Opened st cs) (hs : ArrayStart vs start) :
      Opened (.array vs :: st) (cs ++ start)
  /-- A value may stand behind a name and its colon in an object that is open. -/
  | member {ms : List (Option String × Value)} {k : Option String} {st : List Frame} {cs start label : List Char}
      (h : Opened st cs) (hs : ObjectStart ms start) (hl : LabelText k label) :
      Opened (.member ms k :: st) (cs ++ start ++ label ++ [':'])

/-- A beginning of a text, with how far it brings the reader. -/
inductive ReadSoFar : Progress → List Char → Prop where
  /-- Up to where a value may stand. -/
  | value {st : List Frame} {cs bs : List Char} (h : Opened st cs) (hb : Blanks bs) :
      ReadSoFar (.value, st) (cs ++ bs)
  /-- Into an array without elements. -/
  | valueOrEnd {st : List Frame} {cs start bs : List Char} (h : Opened st cs) (hs : ArrayStart [] start)
      (hb : Blanks bs) : ReadSoFar (.valueOrEnd, .array [] :: st) (cs ++ start ++ bs)
  /-- Behind a comma in an object. -/
  | name {ms : List (Option String × Value)} {st : List Frame} {cs start bs : List Char} (h : Opened st cs)
      (hs : ObjectStart ms start) (hb : Blanks bs) : ReadSoFar (.name, .object ms :: st) (cs ++ start ++ bs)
  /-- Into an object without members. -/
  | nameOrEnd {st : List Frame} {cs start bs : List Char} (h : Opened st cs) (hs : ObjectStart [] start)
      (hb : Blanks bs) : ReadSoFar (.nameOrEnd, .object [] :: st) (cs ++ start ++ bs)
  /-- Behind a name. -/
  | colon {ms : List (Option String × Value)} {k : Option String} {st : List Frame} {cs start label : List Char}
      (h : Opened st cs) (hs : ObjectStart ms start) (hl : LabelText k label) :
      ReadSoFar (.colon, .member ms k :: st) (cs ++ start ++ label)
  /-- Behind a value. -/
  | after {st : List Frame} {cs : List Char} {x : Element} (h : Opened st cs) (hx : x.Fits) :
      ReadSoFar (.after x.value, st) (cs ++ x.chars)

theorem blanks_nil : Blanks [] := nofun

theorem blanks_snoc {bs : List Char} {b : Char} (h : Blanks bs) (hb : isBlank b) : Blanks (bs ++ [b]) :=
  List.forall_mem_append.mpr ⟨h, List.forall_mem_singleton.mpr hb⟩

/-- A blank changes nothing. -/
theorem ReadSoFar.blank {p : Progress} {cs : List Char} {b : Char} (h : ReadSoFar p cs) (hb : isBlank b) :
    ReadSoFar p (cs ++ [b]) := by
  cases h with
  | value h hbs => simpa only [List.append_assoc] using ReadSoFar.value h (blanks_snoc hbs hb)
  | valueOrEnd h hs hbs => simpa only [List.append_assoc] using ReadSoFar.valueOrEnd h hs (blanks_snoc hbs hb)
  | name h hs hbs => simpa only [List.append_assoc] using ReadSoFar.name h hs (blanks_snoc hbs hb)
  | nameOrEnd h hs hbs => simpa only [List.append_assoc] using ReadSoFar.nameOrEnd h hs (blanks_snoc hbs hb)
  | colon h hs hl =>
    cases hl with
    | mk hbs hn has => simpa only [List.append_assoc] using ReadSoFar.colon h hs (.mk hbs hn (blanks_snoc has hb))
  | @after _ _ x h hx =>
    have hnew : ({ x with after := x.after ++ [b] } : Element).Fits := ⟨⟨hx.1.1, blanks_snoc hx.1.2 hb⟩, hx.2⟩
    simpa only [Element.chars, List.append_assoc] using ReadSoFar.after h hnew

/-- A value ends without blanks behind it. -/
theorem ReadSoFar.ofText {st : List Frame} {cs bs text : List Char} {v : Value} (h : Opened st cs) (hb : Blanks bs)
    (ht : Text text v) : ReadSoFar (.after v, st) (cs ++ bs ++ text) := by
  have hread := ReadSoFar.after (x := ⟨bs, text, [], v⟩) h ⟨⟨hb, blanks_nil⟩, ht⟩
  simpa [Element.chars] using hread

/-- Where a value may stand, any token that starts one goes on. -/
theorem ReadSoFar.begin {st : List Frame} {cs bs text : List Char} {t : Token} {q : Progress} (h : Opened st cs)
    (hb : Blanks bs) (ht : TokenText text t) (ha : begin st t = some q) : ReadSoFar q (cs ++ bs ++ text) := by
  cases ht with
  | null => cases ha; exact .ofText h hb .null
  | bool b => cases ha; exact .ofText h hb (.bool b)
  | number hn => cases ha; exact .ofText h hb (.number hn)
  | string hs => cases ha; exact .ofText h hb (.string hs)
  | openBracket =>
    cases ha
    simpa using ReadSoFar.valueOrEnd h (.nil hb) blanks_nil
  | openBrace =>
    cases ha
    simpa using ReadSoFar.nameOrEnd h (.nil hb) blanks_nil
  | _ => cases ha

/-- Where a name may stand, only a literal goes on. -/
theorem ReadSoFar.named {ms : List (Option String × Value)} {st : List Frame} {cs start bs text : List Char} {t : Token}
    {q : Progress} (h : Opened st cs) (hs : ObjectStart ms start) (hb : Blanks bs) (ht : TokenText text t)
    (ha : named ms st t = some q) : ReadSoFar q (cs ++ start ++ bs ++ text) := by
  cases ht with
  | string hn =>
    cases ha
    simpa using ReadSoFar.colon h hs (.mk hb hn blanks_nil)
  | _ => cases ha

/-- Behind a value, only what goes on with the innermost of what is open does, or ends it. -/
theorem ReadSoFar.follow {st : List Frame} {cs text : List Char} {x : Element} {t : Token} {q : Progress}
    (h : Opened st cs) (hx : x.Fits) (ht : TokenText text t) (ha : follow x.value st t = some q) :
    ReadSoFar q (cs ++ x.chars ++ text) := by
  cases h with
  | nil => cases ha
  | array h hs =>
    cases ht with
    | comma =>
      cases ha
      simpa using ReadSoFar.value (.array h (hs.snoc hx)) blanks_nil
    | closeBracket =>
      cases ha
      obtain ⟨bs, text, hb, heq, ht⟩ := hs.closeBracket hx
      have hread := ReadSoFar.ofText h hb ht
      rwa [List.append_assoc, ← heq, ← List.append_assoc, ← List.append_assoc] at hread
    | _ => cases ha
  | member h hs hl =>
    obtain ⟨m, hm, hchars, hnamed⟩ := hl.member hx
    cases ht with
    | comma =>
      cases ha
      have hread := ReadSoFar.name h (hs.snoc hm) blanks_nil
      simpa [hchars, hnamed] using hread
    | closeBrace =>
      cases ha
      obtain ⟨bs, text, hb, heq, ht⟩ := hs.closeBrace hm
      have hread := ReadSoFar.ofText h hb ht
      rw [List.append_assoc, ← heq, hchars, hnamed] at hread
      simpa using hread
    | _ => cases ha

theorem advance_nameOrEnd {t : Token} (ht : t ≠ .closeBrace) (st : List Frame) :
    advance (.nameOrEnd, .object [] :: st) t = named [] st t := by
  cases t with
  | closeBrace => exact absurd rfl ht
  | _ => rfl

/-- A token goes on from one beginning to another. -/
theorem ReadSoFar.advance {p q : Progress} {cs text : List Char} {t : Token} (h : ReadSoFar p cs) (ht : TokenText text t)
    (ha : advance p t = some q) : ReadSoFar q (cs ++ text) := by
  cases h with
  | value h hb => exact .begin h hb ht ha
  | @valueOrEnd st cs start bs h hs hb =>
    by_cases hend : t = .closeBracket
    · subst hend
      cases ht
      cases ha
      obtain ⟨bs', hb', rfl⟩ := hs.of_nil
      simpa using ReadSoFar.ofText h hb' (.emptyArray hb)
    · rw [advance_valueOrEnd hend] at ha
      exact .begin (.array h hs) hb ht ha
  | name h hs hb => exact .named h hs hb ht ha
  | nameOrEnd h hs hb =>
    by_cases hend : t = .closeBrace
    · subst hend
      cases ht
      cases ha
      obtain ⟨bs', hb', rfl⟩ := hs.of_nil
      simpa using ReadSoFar.ofText h hb' (.emptyObject hb)
    · rw [advance_nameOrEnd hend] at ha
      exact .named h hs hb ht ha
  | colon h hs hl =>
    cases ht with
    | colon =>
      cases ha
      simpa using ReadSoFar.value (.member h hs hl) blanks_nil
    | _ => cases ha
  | after h hx => exact .follow h hx ht ha

/-- Reading goes on from one beginning to another. -/
theorem ReadSoFar.resume {p q : Progress} {cs : List Char} (h : ReadSoFar p cs) {r : List Char}
    (hr : resume p r = some q) : ReadSoFar q (cs ++ r) := by
  -- A token may take up any number of characters, so the induction is on how many are left.
  induction hn : r.length using Nat.strongRecOn generalizing p cs r with
  | ind n ih =>
    cases r with
    | nil =>
      rw [resume_nil] at hr
      cases hr
      rwa [List.append_nil]
    | cons c r =>
      rw [resume_cons] at hr
      split at hr
      · next hb =>
        have hread := ih _ (by simp [← hn]) (h.blank hb) hr rfl
        rwa [List.append_assoc, List.singleton_append] at hread
      · simp only [Option.bind_eq_some_iff] at hr
        obtain ⟨⟨t, rest⟩, hs, p', ha, hr⟩ := hr
        obtain ⟨text, heq, ht⟩ := tokenText_of_scan hs
        have hread := ih _ (hn ▸ length_lt_of_scan hs) (h.advance ht ha) hr rfl
        rwa [List.append_assoc, ← heq] at hread

/-- The reader accepts the documents with their values, and nothing else. -/
theorem ofText?_eq_some_iff {s : String} {v : Value} : ofText? s = some v ↔ Document s v := by
  refine ⟨fun h => ?_, Document.ofText?⟩
  rw [ofText?_eq_resume] at h
  obtain ⟨p, hp, hf⟩ := Option.bind_eq_some_iff.mp h
  have hread := ReadSoFar.resume (.value .nil blanks_nil) hp
  rw [List.append_nil, List.nil_append] at hread
  generalize hcs : s.toList = cs at hread
  cases hread with
  | after h hx =>
    cases h with
    | nil =>
      cases hf
      exact .mk hcs hx.1 hx.2
    | _ => cases hf
  | _ => cases hf

end Value

end VersionBoard.Json
