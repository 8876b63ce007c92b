import VersionBoard.Json.Quoted

/-!
# JSON text as tokens

Text is cut into tokens, with any blanks between them. A token ends where no
more of the text can belong to it; what may stand beside what is left to the
grammar. Every token takes up some of the text (`length_lt_of_scan`), so
cutting comes to an end.
-/

namespace VersionBoard.Json

/-! ### Numbers -/

/-- A number, as far as anyone here asks. -/
inductive Number where
  /-- A sign and digits. -/
  | integer (negative : Bool) (magnitude : Nat)
  /-- A number with a fraction or an exponent. -/
  | other
  deriving DecidableEq

/-- The integer that a number is. Zero with a sign is none, as it cannot be told from zero. -/
def Number.int? : Number → Option Int
  | integer false n => some n
  | integer true n => if n = 0 then none else some (-n)
  | other => none

/-- The digits that `cs` starts with, of which there must be some. -/
def scanDigits (cs : List Char) : Option (List Char × List Char) :=
  let ds := cs.takeWhile (·.isDigit)
  if ds.isEmpty then none else some (ds, cs.dropWhile (·.isDigit))

/-- The digits before a point: none but a single one can start with zero. -/
def scanWhole : List Char → Option (List Char × List Char)
  | '0' :: rest => some (['0'], rest)
  | cs => scanDigits cs

/-- What follows a fraction, if there is one. -/
def scanFraction? : List Char → Option (Option (List Char))
  | '.' :: cs => (scanDigits cs).map (some ·.2)
  | _ => some none

/-- Without a sign at the start. -/
def dropSign : List Char → List Char
  | '+' :: cs => cs
  | '-' :: cs => cs
  | cs => cs

/-- What follows an exponent, if there is one. -/
def scanExponent? : List Char → Option (Option (List Char))
  | 'e' :: cs => (scanDigits (dropSign cs)).map (some ·.2)
  | 'E' :: cs => (scanDigits (dropSign cs)).map (some ·.2)
  | _ => some none

/-- A number without its sign, and what follows it. -/
def scanUnsigned (negative : Bool) (cs : List Char) : Option (Number × List Char) := do
  let (ds, rest) ← scanWhole cs
  let fraction ← scanFraction? rest
  let exponent ← scanExponent? (fraction.getD rest)
  return (if fraction.isNone ∧ exponent.isNone then .integer negative (Nat.ofDigitChars 10 ds 0) else .other,
    exponent.getD (fraction.getD rest))

/-- A number, and what follows it. -/
def scanNumber : List Char → Option (Number × List Char)
  | '-' :: cs => scanUnsigned true cs
  | cs => scanUnsigned false cs

/-! ### Tokens -/

/-- A token. -/
inductive Token where
  /-- An opening brace. -/
  | openBrace
  /-- A closing brace. -/
  | closeBrace
  /-- An opening bracket. -/
  | openBracket
  /-- A closing bracket. -/
  | closeBracket
  /-- A colon. -/
  | colon
  /-- A comma. -/
  | comma
  /-- The word `null`. -/
  | null
  /-- The word `true` or `false`. -/
  | bool (b : Bool)
  /-- A number. -/
  | number (n : Number)
  /-- A string literal, with its text if it names one. -/
  | string (s : Option String)
  deriving DecidableEq

/-- Whether a character may stand between tokens. -/
def isBlank (c : Char) : Bool := c = ' ' ∨ c = '\t' ∨ c = '\n' ∨ c = '\r'

/-- The token that `cs` starts with, and what follows it. -/
def scan : List Char → Option (Token × List Char)
  | '{' :: r => some (.openBrace, r)
  | '}' :: r => some (.closeBrace, r)
  | '[' :: r => some (.openBracket, r)
  | ']' :: r => some (.closeBracket, r)
  | ':' :: r => some (.colon, r)
  | ',' :: r => some (.comma, r)
  | 'n' :: 'u' :: 'l' :: 'l' :: r => some (.null, r)
  | 't' :: 'r' :: 'u' :: 'e' :: r => some (.bool true, r)
  | 'f' :: 'a' :: 'l' :: 's' :: 'e' :: r => some (.bool false, r)
  | '"' :: r => (scanPieces r).map fun (ps, rest) => (.string ((joinPieces ps).map String.ofList), rest)
  | cs => (scanNumber cs).map fun (n, rest) => (.number n, rest)

theorem length_lt_of_scanDigits {cs ds rest : List Char} (h : scanDigits cs = some (ds, rest)) :
    rest.length < cs.length := by
  have hc := congrArg List.length (List.takeWhile_append_dropWhile (p := (·.isDigit)) (l := cs))
  rw [List.length_append] at hc
  simp only [scanDigits, List.isEmpty_iff] at h
  split at h
  · simp at h
  · next hne =>
    simp only [Option.some.injEq, Prod.mk.injEq] at h
    have := List.length_pos_iff.mpr hne
    rw [← h.2]
    omega

theorem length_lt_of_scanWhole {cs ds rest : List Char} (h : scanWhole cs = some (ds, rest)) :
    rest.length < cs.length := by
  unfold scanWhole at h
  split at h
  · simp only [Option.some.injEq, Prod.mk.injEq] at h
    simp [h.2]
  · exact length_lt_of_scanDigits h

theorem length_dropSign_le (cs : List Char) : (dropSign cs).length ≤ cs.length := by
  unfold dropSign
  split <;> simp

theorem length_le_of_scanFraction? {cs : List Char} {r : Option (List Char)}
    (h : scanFraction? cs = some r) : (r.getD cs).length ≤ cs.length := by
  unfold scanFraction? at h
  split at h
  · next cs =>
    obtain ⟨⟨ds, rest⟩, hd, rfl⟩ := Option.map_eq_some_iff.mp h
    have := length_lt_of_scanDigits hd
    simp only [Option.getD_some, List.length_cons]
    omega
  · simp only [Option.some.injEq] at h
    simp [← h]

theorem length_le_of_scanExponent? {cs : List Char} {r : Option (List Char)}
    (h : scanExponent? cs = some r) : (r.getD cs).length ≤ cs.length := by
  have key : ∀ {t : List Char} {r}, (scanDigits (dropSign t)).map (some ·.2) = some r →
      ∀ c, (r.getD (c :: t)).length ≤ (c :: t).length := by
    intro t r h c
    obtain ⟨⟨ds, rest⟩, hd, rfl⟩ := Option.map_eq_some_iff.mp h
    have h1 := length_lt_of_scanDigits hd
    have h2 := length_dropSign_le t
    simp only [Option.getD_some, List.length_cons]
    omega
  unfold scanExponent? at h
  split at h
  · exact key h _
  · exact key h _
  · simp only [Option.some.injEq] at h
    simp [← h]

theorem length_lt_of_scanUnsigned {negative : Bool} {cs rest : List Char} {n : Number}
    (h : scanUnsigned negative cs = some (n, rest)) : rest.length < cs.length := by
  simp only [scanUnsigned, Option.bind_eq_bind, Option.bind_eq_some_iff, Option.pure_def, Option.some.injEq,
    Prod.mk.injEq, Prod.exists] at h
  obtain ⟨ds, r, hw, fraction, hf, exponent, he, -, rfl⟩ := h
  have h1 := length_lt_of_scanWhole hw
  have h2 := length_le_of_scanFraction? hf
  have h3 := length_le_of_scanExponent? he
  omega

/-- A token takes up some of the text. -/
theorem length_lt_of_scan {cs rest : List Char} {t : Token} (h : scan cs = some (t, rest)) :
    rest.length < cs.length := by
  unfold scan at h
  split at h
  case h_10 =>
    obtain ⟨⟨ps, r⟩, hp, heq⟩ := Option.map_eq_some_iff.mp h
    simp only [Prod.mk.injEq] at heq
    obtain ⟨-, rfl⟩ := heq
    have := length_lt_of_scanPieces hp
    simp only [List.length_cons]
    omega
  case h_11 cs _ _ _ _ _ _ _ _ _ _ =>
    obtain ⟨⟨n, r⟩, hn, heq⟩ := Option.map_eq_some_iff.mp h
    simp only [Prod.mk.injEq] at heq
    obtain ⟨-, rfl⟩ := heq
    unfold scanNumber at hn
    split at hn
    · have := length_lt_of_scanUnsigned hn
      simp only [List.length_cons]
      omega
    · exact length_lt_of_scanUnsigned hn
  all_goals
    simp only [Option.some.injEq, Prod.mk.injEq] at h
    obtain ⟨-, rfl⟩ := h
    simp only [List.length_cons]
    omega

/-- All tokens of a text. -/
def tokens : List Char → Option (List Token)
  | [] => some []
  | c :: r =>
    if isBlank c then tokens r
    else
      match _h : scan (c :: r) with
      | none => none
      | some (t, rest) => (tokens rest).map (t :: ·)
termination_by cs => cs.length
decreasing_by
  · simp
  · exact length_lt_of_scan _h

end VersionBoard.Json
