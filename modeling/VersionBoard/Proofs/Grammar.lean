import VersionBoard.Proofs.Spelling

/-!
# What JSON texts are

Which texts there are and which values they are, said without a reader
(`Json.Text`): a number has its parts one after another, a string has any escapes,
values stand between brackets and braces with commas and colons, and there may be
blanks wherever one of these ends. A text may be spelled in many ways; whichever
it is, the reader comes to the value that the grammar gives it (`Text.spells`).
-/

namespace VersionBoard.Json

/-- Blanks only, if any. -/
def Blanks (cs : List Char) : Prop := ∀ c ∈ cs, isBlank c

/-! ### Numbers -/

/-- Digits, of which there are some. -/
structure Digits (ds : List Char) : Prop where
  ne_nil : ds ≠ []
  isDigit : ∀ c ∈ ds, c.isDigit

/-- Digits as they stand before a point: only a single one may be a zero at the start. -/
structure WholeDigits (ds : List Char) : Prop extends Digits ds where
  single : '0' ∈ ds.head? → ds = ['0']

/-- A point with digits behind it, or nothing. -/
inductive FractionText : List Char → Prop where
  /-- No fraction. -/
  | none : FractionText []
  /-- A fraction. -/
  | some {ds : List Char} (h : Digits ds) : FractionText ('.' :: ds)

/-- An exponent with or without a sign, or nothing. -/
inductive ExponentText : List Char → Prop where
  /-- No exponent. -/
  | none : ExponentText []
  /-- An exponent. -/
  | some {e : Char} {sign ds : List Char} (he : e = 'e' ∨ e = 'E') (hs : sign = [] ∨ sign = ['+'] ∨ sign = ['-'])
      (h : Digits ds) : ExponentText (e :: (sign ++ ds))

/-- The text of a sign. -/
def minusText (negative : Bool) : List Char := if negative then ['-'] else []

/-- A text that is a number. -/
inductive NumberText : List Char → Number → Prop where
  /-- Digits alone are an integer. -/
  | integer (negative : Bool) {ds : List Char} (h : WholeDigits ds) :
      NumberText (minusText negative ++ ds) (.integer negative (Nat.ofDigitChars 10 ds 0))
  /-- With a fraction or an exponent the number is another one. -/
  | other (negative : Bool) {ds fr ex : List Char} (h : WholeDigits ds) (hf : FractionText fr) (he : ExponentText ex)
      (hne : fr ++ ex ≠ []) : NumberText (minusText negative ++ ds ++ fr ++ ex) .other

/-! ### Strings -/

/-- A text that spells pieces of a string. -/
inductive PiecesText : List Char → List Piece → Prop where
  /-- Nothing. -/
  | nil : PiecesText [] []
  /-- A character stands for itself, unless it is a quote, a backslash or a control character. -/
  | plain {c : Char} {cs : List Char} {ps : List Piece} (hc : ¬ c < ' ') (hq : c ≠ '"') (hb : c ≠ '\\')
      (h : PiecesText cs ps) : PiecesText (c :: cs) (.char c :: ps)
  /-- A short escape stands for a character. -/
  | short {c d : Char} {cs : List Char} {ps : List Piece} (hc : unescape? c = some d) (h : PiecesText cs ps) :
      PiecesText ('\\' :: c :: cs) (.char d :: ps)
  /-- Four digits stand for a UTF-16 unit. -/
  | unit {a b c d : Char} {u : Nat} {cs : List Char} {ps : List Piece} (hu : hexUnit? a b c d = some u)
      (h : PiecesText cs ps) : PiecesText ('\\' :: 'u' :: a :: b :: c :: d :: cs) (.unit u :: ps)

/-- A text that is a string literal, with the text that it names, if any. -/
inductive Literal : List Char → Option String → Prop where
  | mk {cs : List Char} {ps : List Piece} (h : PiecesText cs ps) :
      Literal ('"' :: (cs ++ ['"'])) ((joinPieces ps).map String.ofList)

/-! ### Values -/

/-- A value as it stands in a text. -/
structure Element where
  /-- Blanks. -/
  before : List Char
  /-- The text of the value. -/
  text : List Char
  /-- Blanks. -/
  after : List Char
  /-- The value. -/
  value : Value

namespace Element

/-- All of the text. -/
def chars (x : Element) : List Char := x.before ++ x.text ++ x.after

/-- What is said to be blank is. -/
def Spaced (x : Element) : Prop := Blanks x.before ∧ Blanks x.after

end Element

/-- A member of an object as it stands in a text. -/
structure Member where
  /-- Blanks. -/
  before : List Char
  /-- The literal before the colon. -/
  label : List Char
  /-- Blanks. -/
  after : List Char
  /-- The text that the literal names, if any. -/
  name : Option String
  /-- What stands behind the colon. -/
  element : Element

namespace Member

/-- All of the text. -/
def chars (x : Member) : List Char := x.before ++ x.label ++ x.after ++ ':' :: x.element.chars

/-- What is said to be blank is. -/
def Spaced (x : Member) : Prop := (Blanks x.before ∧ Blanks x.after) ∧ x.element.Spaced

/-- The member itself. -/
def named (x : Member) : Option String × Value := (x.name, x.element.value)

end Member

/-- A text that is a value, without blanks around it. -/
inductive Text : List Char → Value → Prop where
  /-- The word `null`. -/
  | null : Text ['n', 'u', 'l', 'l'] .null
  /-- The word `true` or `false`. -/
  | bool (b : Bool) : Text (toString b).toList (.bool b)
  /-- A number. -/
  | number {cs : List Char} {n : Number} (h : NumberText cs n) : Text cs (.number n)
  /-- A string literal. -/
  | string {cs : List Char} {s : Option String} (h : Literal cs s) : Text cs (.string s)
  /-- Brackets with nothing between them. -/
  | emptyArray {cs : List Char} (h : Blanks cs) : Text ('[' :: (cs ++ [']'])) (.array [])
  /-- Elements with commas between them, in brackets. -/
  | array {xs : List Element} (hne : xs ≠ []) (hb : ∀ x ∈ xs, x.Spaced) (h : ∀ x ∈ xs, Text x.text x.value) :
      Text ('[' :: ([','].intercalate (xs.map Element.chars) ++ [']'])) (.array (xs.map Element.value))
  /-- Braces with nothing between them. -/
  | emptyObject {cs : List Char} (h : Blanks cs) : Text ('{' :: (cs ++ ['}'])) (.object [])
  /-- Members with commas between them, in braces. -/
  | object {xs : List Member} (hne : xs ≠ []) (hb : ∀ x ∈ xs, x.Spaced) (hn : ∀ x ∈ xs, Literal x.label x.name)
      (h : ∀ x ∈ xs, Text x.element.text x.element.value) :
      Text ('{' :: ([','].intercalate (xs.map Member.chars) ++ ['}'])) (.object (xs.map Member.named))

/-- The whole of a text is a value, with blanks around it. -/
inductive Document : String → Value → Prop where
  | mk {s : String} {x : Element} (hs : s.toList = x.chars) (hb : x.Spaced) (h : Text x.text x.value) :
      Document s x.value

/-! ### Numbers are read -/

theorem noDigit_of_head {r : List Char} {c : Char} (hc : c.isDigit = false) : NoDigit (c :: r) := by
  simpa [NoDigit] using hc

/-- Behind the digits of a number there is no digit, and behind its fraction there is no point either. -/
theorem ExponentText.noDigit {ex r : List Char} (h : ExponentText ex) (hr : Breaks r) :
    NoDigit (ex ++ r) ∧ '.' ∉ (ex ++ r).head? := by
  cases h with
  | none =>
    refine ⟨hr.noDigit, ?_⟩
    cases r with
    | nil => simp
    | cons c r => simpa using hr.2.1
  | some he => rcases he with rfl | rfl <;> simp [NoDigit]

theorem scanFraction?_append {fr r : List Char} (h : FractionText fr) (hr : NoDigit r ∧ '.' ∉ r.head?) :
    ∃ x, scanFraction? (fr ++ r) = some x ∧ x.getD (fr ++ r) = r ∧ (x = none ↔ fr = []) := by
  cases h with
  | none =>
    refine ⟨none, ?_, rfl, by simp⟩
    unfold scanFraction?
    split
    · next heq =>
      rw [List.nil_append] at heq
      simp [heq] at hr
    · rfl
  | some h => exact ⟨some r, by simp [scanFraction?, scanDigits_append h.isDigit h.ne_nil hr.1], rfl, by simp⟩

theorem dropSign_append {sign ds : List Char} (hs : sign = [] ∨ sign = ['+'] ∨ sign = ['-']) (h : Digits ds)
    (r : List Char) : dropSign (sign ++ (ds ++ r)) = ds ++ r := by
  rcases hs with rfl | rfl | rfl
  · cases ds with
    | nil => exact absurd rfl h.ne_nil
    | cons d ds =>
      have hd := h.isDigit d (.head _)
      unfold dropSign
      split <;> simp_all
  · rfl
  · rfl

theorem scanExponent?_append {ex r : List Char} (h : ExponentText ex) (hr : Breaks r) :
    ∃ x, scanExponent? (ex ++ r) = some x ∧ x.getD (ex ++ r) = r ∧ (x = none ↔ ex = []) := by
  cases h with
  | none => exact ⟨none, scanExponent?_of_breaks hr, rfl, by simp⟩
  | some he hs h =>
    have hscan := scanDigits_append h.isDigit h.ne_nil hr.noDigit
    refine ⟨some r, ?_, rfl, by simp⟩
    rw [List.cons_append, List.append_assoc]
    rcases he with rfl | rfl <;> simp only [scanExponent?, dropSign_append hs h, hscan, Option.map_some]

theorem scanUnsigned_append (negative : Bool) {ds fr ex r : List Char} (h : WholeDigits ds) (hf : FractionText fr)
    (he : ExponentText ex) (hr : Breaks r) : scanUnsigned negative (ds ++ (fr ++ (ex ++ r))) =
      some (if fr ++ ex = [] then .integer negative (Nat.ofDigitChars 10 ds 0) else .other, r) := by
  have hnodigit : NoDigit (fr ++ (ex ++ r)) := by
    cases hf with
    | none => exact (he.noDigit hr).1
    | some => exact noDigit_of_head rfl
  obtain ⟨x, hx, hxr, hxn⟩ := scanFraction?_append hf (he.noDigit hr)
  obtain ⟨y, hy, hyr, hyn⟩ := scanExponent?_append he hr
  have hwhole := scanWhole_append h.isDigit h.ne_nil h.single hnodigit
  simp only [scanUnsigned, hwhole, hx, hxr, hy, hyr, Option.bind_eq_bind, Option.bind_some, Option.pure_def,
    Option.isNone_iff_eq_none, hxn, hyn, List.append_eq_nil_iff]

theorem scanNumber_minus (negative : Bool) {ds : List Char} (h : Digits ds) (r : List Char) :
    scanNumber (minusText negative ++ (ds ++ r)) = scanUnsigned negative (ds ++ r) := by
  cases negative with
  | true => rfl
  | false =>
    cases ds with
    | nil => exact absurd rfl h.ne_nil
    | cons d ds =>
      have hd := h.isDigit d (.head _)
      unfold scanNumber
      split <;> simp_all [minusText]

/-- However a number is written, it is read. -/
theorem scanNumber_append {cs r : List Char} {n : Number} (h : NumberText cs n) (hr : Breaks r) :
    scanNumber (cs ++ r) = some (n, r) := by
  cases h with
  | integer negative h =>
    have hread := scanUnsigned_append negative h .none .none hr
    rw [List.append_assoc, scanNumber_minus negative h.toDigits]
    exact hread
  | other negative h hf he hne =>
    have hread := scanUnsigned_append negative h hf he hr
    rw [if_neg hne] at hread
    rw [List.append_assoc, List.append_assoc, List.append_assoc, scanNumber_minus negative h.toDigits, hread]

/-- A number starts with a digit or a minus. -/
theorem NumberText.head {cs : List Char} {n : Number} (h : NumberText cs n) :
    ∃ c r, cs = c :: r ∧ (c.isDigit ∨ c = '-') := by
  have key : ∀ (negative : Bool) {ds : List Char} (r : List Char), Digits ds →
      ∃ c r', minusText negative ++ (ds ++ r) = c :: r' ∧ (c.isDigit ∨ c = '-') := by
    intro negative ds r hd
    cases negative with
    | true => exact ⟨_, _, rfl, .inr rfl⟩
    | false =>
      cases ds with
      | nil => exact absurd rfl hd.ne_nil
      | cons d ds => exact ⟨_, _, rfl, .inl (hd.isDigit d (.head _))⟩
  cases h with
  | integer negative h => simpa using key negative [] h.toDigits
  | other negative h => simpa using key negative _ h.toDigits

theorem scan_number {cs r : List Char} {n : Number} (h : NumberText cs n) (hr : Breaks r) :
    scan (cs ++ r) = some (.number n, r) := by
  obtain ⟨c, rest, hcs, hc⟩ := h.head
  have hread := scanNumber_append h hr
  rw [hcs, List.cons_append] at hread ⊢
  rw [scan_eq_scanNumber hc, hread]
  rfl

/-! ### Strings are read -/

theorem scanPieces_append {cs : List Char} {ps : List Piece} (h : PiecesText cs ps) (r : List Char) :
    scanPieces (cs ++ '"' :: r) = some (ps, r) := by
  induction h with
  | nil => simp [scanPieces]
  | plain hc hq hb _ ih => rw [List.cons_append, scanPieces_plain hq hb hc, ih]; rfl
  | @short c d cs ps hc _ ih =>
    have hu : c ≠ 'u' := by
      rintro rfl
      cases hc
    rw [List.cons_append, List.cons_append, scanPieces]
    · simp [hc, ih]
    · simp [hu]
  | unit hu _ ih => simp [scanPieces, hu, ih]

theorem scan_literal {cs : List Char} {s : Option String} (h : Literal cs s) (r : List Char) :
    scan (cs ++ r) = some (.string s, r) := by
  cases h with
  | mk h =>
    rw [List.cons_append, List.append_assoc, List.singleton_append]
    simp [scan, scanPieces_append h]

/-! ### Values are read -/

namespace Value

theorem resume_blanks {bs : List Char} (h : Blanks bs) (p : Progress) (r : List Char) :
    resume p (bs ++ r) = resume p r := by
  induction bs with
  | nil => rfl
  | cons b bs ih =>
    rw [List.cons_append, resume_cons, if_pos (h b (.head _))]
    exact ih fun c hc => h c (.tail _ hc)

theorem breaks_blanks {bs r : List Char} (h : Blanks bs) (hr : Breaks r) : Breaks (bs ++ r) := by
  cases bs with
  | nil => exact hr
  | cons b bs =>
    have hb := h b (.head _)
    simp only [isBlank, decide_eq_true_eq] at hb
    rcases hb with rfl | rfl | rfl | rfl <;> simp [Breaks]

/-- Blanks around a value do not count. -/
theorem Spells.chars {x : Element} (h : Spells x.text x.value) (hb : x.Spaced) : Spells x.chars x.value := by
  intro st r hr
  rw [Element.chars, List.append_assoc, List.append_assoc, resume_blanks hb.1, h _ _ (breaks_blanks hb.2 hr),
    resume_blanks hb.2]

theorem spellsMember_chars {x : Member} (hn : Literal x.label x.name) (h : Spells x.element.text x.element.value)
    (hb : x.Spaced) : SpellsMember x.chars x.named := by
  intro p ms st r hp hr
  have hlabel := scan_literal hn (x.after ++ ':' :: (x.element.chars ++ r))
  simp only [Member.chars, List.append_assoc, List.cons_append]
  rw [resume_blanks hb.1.1, resume_of_scan hlabel (hp _), resume_blanks hb.1.2, resume_of_scan (t := .colon) rfl rfl,
    h.chars hb.2 _ _ hr]
  rfl

theorem advance_valueOrEnd {t : Token} (ht : t ≠ .closeBracket) (st : List Frame) :
    advance (.valueOrEnd, st) t = advance (.value, st) t := by
  unfold advance
  split <;> simp_all

/-- Where an array may end, a text that starts with no bracket is read as where it may not. -/
theorem resume_valueOrEnd {c : Char} (hc : c ≠ ']') (hb : isBlank c = false) (st : List Frame) (r : List Char) :
    resume (.valueOrEnd, st) (c :: r) = resume (.value, st) (c :: r) := by
  rw [resume_cons, resume_cons, hb]
  match hs : scan (c :: r) with
  | none => rfl
  | some (t, rest) =>
    have ht : t ≠ .closeBracket := by
      rintro rfl
      unfold scan at hs
      split at hs <;> simp_all
    simp only [Bool.false_eq_true, if_false, Option.bind_some, advance_valueOrEnd ht]

end Value

open Value

/-- The text of a value starts with no blank, and not as an array ends. -/
theorem Text.head {cs : List Char} {v : Value} (h : Text cs v) : ∃ c r, cs = c :: r ∧ isBlank c = false ∧ c ≠ ']' := by
  cases h with
  | bool b => cases b <;> exact ⟨_, _, rfl, rfl, by decide⟩
  | number h =>
    obtain ⟨c, r, rfl, hc⟩ := h.head
    refine ⟨c, r, rfl, Bool.eq_false_iff.mpr fun hb => ?_, ?_⟩
    · simp only [isBlank, decide_eq_true_eq] at hb
      rcases hb with rfl | rfl | rfl | rfl <;> simp at hc
    · rintro rfl
      simp at hc
  | string h => cases h; exact ⟨_, _, rfl, rfl, by decide⟩
  | _ => exact ⟨_, _, rfl, rfl, by decide⟩

/-- Whatever text a value has, it is read as that value. -/
theorem Text.spells {cs : List Char} {v : Value} (h : Text cs v) : Spells cs v := by
  induction h with
  | null => exact fun _ _ _ => resume_of_scan (t := .null) rfl rfl
  | bool b => exact spells_bool b
  | number h => exact fun _ _ hr => resume_of_scan (scan_number h hr) rfl
  | string h => exact fun _ _ _ => resume_of_scan (scan_literal h _) rfl
  | emptyArray h =>
    intro st r _
    rw [List.cons_append, List.append_assoc, resume_of_scan (t := .openBracket) rfl rfl, resume_blanks h]
    exact resume_of_scan (t := .closeBracket) rfl rfl
  | @array xs hne hb h ih =>
    obtain ⟨x, xs, rfl⟩ := List.exists_cons_of_ne_nil hne
    refine spells_array (fun y hy => (ih y hy).chars (hb y hy)) fun st r => ?_
    obtain ⟨c, text, htext, hc, hend⟩ := (h x (.head _)).head
    rw [Element.chars, List.append_assoc, List.append_assoc, resume_blanks (hb x (.head _)).1,
      resume_blanks (hb x (.head _)).1, htext, List.cons_append, resume_valueOrEnd hend hc]
  | emptyObject h =>
    intro st r _
    rw [List.cons_append, List.append_assoc, resume_of_scan (t := .openBrace) rfl rfl, resume_blanks h]
    exact resume_of_scan (t := .closeBrace) rfl rfl
  | @object xs hne hb hn _ ih =>
    obtain ⟨x, xs, rfl⟩ := List.exists_cons_of_ne_nil hne
    exact spells_members fun y hy => spellsMember_chars (hn y hy) (ih y hy) (hb y hy)

/-- A document is read as its value. -/
theorem Document.ofText? {s : String} {v : Value} (h : Document s v) : Value.ofText? s = some v := by
  cases h with
  | mk hs hb h => exact Value.Spells.ofText? (hs ▸ h.spells.chars hb)

end VersionBoard.Json
