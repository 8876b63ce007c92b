import VersionBoard.Json.Value

/-!
# Reading back what was written

What the reader makes of a string, a number, a word and an object as the writer
puts them. A piece of a text is read with what stands behind it, for a number
goes on as long as it can; so a piece `Spells` a value if the reader comes to
that value from wherever one may stand, whatever follows that no number goes on
with (`Breaks`).
-/

namespace VersionBoard.Json

/-! ### Strings -/

/-- A piece that adds the character `c` to a text, whatever stands behind it. -/
def Piece.Names (p : Piece) (c : Char) : Prop :=
  ∀ ps, joinPieces (p :: ps) = (joinPieces ps).map (c :: ·)

theorem Piece.names_char (c : Char) : (Piece.char c).Names c := fun ps => by rw [joinPieces]

/-- A unit below all halves is the character with that number. -/
theorem Piece.names_unit {u : Nat} (hu : u < 0xD800) : (Piece.unit u).Names (Char.ofNat u) := by
  have hh : isHigh u = false := decide_eq_false (by omega)
  have hl : isLow u = false := decide_eq_false (by omega)
  intro ps
  match ps with
  | [] => simp [joinPieces, hh, hl]
  | .char c :: ps => simp [joinPieces, hh, hl]
  | .unit v :: ps => simp [joinPieces, hh, hl]

theorem hexValue?_hexDigit {n : Nat} (h : n < 16) : hexValue? (hexDigit n) = some n := by
  have key : ∀ n : Fin 16, hexValue? (hexDigit n) = some n.val := by decide
  exact key ⟨n, h⟩

theorem hexUnit?_hexDigit {n : Nat} (h : n < 256) :
    hexUnit? '0' '0' (hexDigit (n / 16)) (hexDigit (n % 16)) = some n := by
  have h0 : hexValue? '0' = some 0 := by decide
  have h1 := hexValue?_hexDigit (n := n / 16) (by omega)
  have h2 := hexValue?_hexDigit (n := n % 16) (by omega)
  simp only [hexUnit?, h0, h1, h2, Option.bind_eq_bind, Option.bind_some, Option.pure_def, Option.some.injEq]
  omega

/-- A character that needs no escape is read as it stands. -/
theorem scanPieces_plain {c : Char} {r : List Char} (hq : c ≠ '"') (hb : c ≠ '\\') (hc : ¬ c < ' ') :
    scanPieces (c :: r) = (scanPieces r).map fun (ps, rest) => (.char c :: ps, rest) := by
  rw [scanPieces]
  · rw [if_neg (by simp [hb, hc])]
    cases scanPieces r <;> rfl
  all_goals simp [hq, hb]

/-- What a character is written as is read as one piece that names it. -/
theorem scanPieces_escape (c : Char) :
    ∃ p, p.Names c ∧ ∀ r, scanPieces (escape c ++ r) = (scanPieces r).map fun (ps, rest) => (p :: ps, rest) := by
  unfold escape
  split
  case h_8 _ hq hb _ _ _ _ _ =>
    split
    · next hlt =>
      have hc : c.toNat < 32 := Char.lt_def.mp hlt
      refine ⟨.unit c.toNat, ?_, fun r => ?_⟩
      · simpa [Char.ofNat_toNat] using Piece.names_unit (u := c.toNat) (by omega)
      · cases hr : scanPieces r <;> simp [scanPieces, hexUnit?_hexDigit (n := c.toNat) (by omega), hr]
    · next hlt =>
      exact ⟨.char c, Piece.names_char c, fun r => scanPieces_plain hq hb hlt⟩
  all_goals
    exact ⟨_, Piece.names_char _, fun r => by cases hr : scanPieces r <;> simp [scanPieces, unescape?, hr]⟩

/-- The characters of a text, each written as it must be, are read as pieces that make up the text. -/
theorem scanPieces_flatMap_escape (s r : List Char) :
    ∃ ps, joinPieces ps = some s ∧ scanPieces (s.flatMap escape ++ '"' :: r) = some (ps, r) := by
  induction s with
  | nil => exact ⟨[], by rw [joinPieces], by simp [scanPieces]⟩
  | cons c s ih =>
    obtain ⟨ps, hj, hs⟩ := ih
    obtain ⟨p, hp, he⟩ := scanPieces_escape c
    refine ⟨p :: ps, by rw [hp, hj]; rfl, ?_⟩
    rw [List.flatMap_cons, List.append_assoc, he, hs]
    rfl

/-- A string is read back from its quotes. -/
theorem scan_quote (s : String) (r : List Char) : scan (quote s.toList ++ r) = some (.string (some s), r) := by
  obtain ⟨ps, hj, hs⟩ := scanPieces_flatMap_escape s.toList r
  simp [quote, scan, hs, hj]

/-! ### Numbers -/

/-- A text that no number goes on with. -/
def Breaks : List Char → Prop
  | [] => True
  | c :: _ => ¬ c.isDigit ∧ c ≠ '.' ∧ c ≠ 'e' ∧ c ≠ 'E'

/-- A text that no digits go on with. -/
def NoDigit (r : List Char) : Prop := ∀ c ∈ r.head?, ¬ c.isDigit

theorem Breaks.noDigit {r : List Char} (hr : Breaks r) : NoDigit r := by
  cases r with
  | nil => exact nofun
  | cons c r => simpa [NoDigit] using hr.1

theorem scanDigits_append {ds r : List Char} (hd : ∀ c ∈ ds, c.isDigit) (hne : ds ≠ []) (hr : NoDigit r) :
    scanDigits (ds ++ r) = some (ds, r) := by
  have htake : r.takeWhile (·.isDigit) = [] ∧ r.dropWhile (·.isDigit) = r := by
    cases r with
    | nil => simp
    | cons c r => simp [show ¬ c.isDigit from hr c rfl]
  simp [scanDigits, List.takeWhile_append_of_pos hd, List.dropWhile_append_of_pos hd, htake, hne]

/-- Digits of which the first is no zero, unless it is the only one, are the digits before a point. -/
theorem scanWhole_append {ds r : List Char} (hd : ∀ c ∈ ds, c.isDigit) (hne : ds ≠ [])
    (hz : '0' ∈ ds.head? → ds = ['0']) (hr : NoDigit r) : scanWhole (ds ++ r) = some (ds, r) := by
  have hscan := scanDigits_append hd hne hr
  cases ds with
  | nil => exact absurd rfl hne
  | cons c ds =>
    by_cases hc : c = '0'
    · rw [hz (by simp [hc])]
      rfl
    · rw [List.cons_append] at hscan ⊢
      rw [scanWhole]
      · exact hscan
      · exact fun _ h => hc (List.cons.inj h).1

theorem scanFraction?_of_breaks {r : List Char} (hr : Breaks r) : scanFraction? r = some none := by
  unfold scanFraction?
  split
  · simp [Breaks] at hr
  · rfl

theorem scanExponent?_of_breaks {r : List Char} (hr : Breaks r) : scanExponent? r = some none := by
  unfold scanExponent?
  split
  · simp [Breaks] at hr
  · simp [Breaks] at hr
  · rfl

/-- The digits of a number start with a digit, which is zero for no number but zero. -/
theorem toDigits_eq_cons (n : Nat) :
    ∃ c ds, Nat.toDigits 10 n = c :: ds ∧ c.isDigit ∧ (c = '0' → n = 0) := by
  induction n using Nat.strongRecOn with
  | ind n ih =>
    rw [Nat.toDigits_eq_if (by omega)]
    split
    · next hlt => exact ⟨_, _, rfl, by simpa [Nat.isDigit_digitChar] using hlt, Nat.digitChar_eq_zero.mp⟩
    · next hge =>
      obtain ⟨c, ds, heq, hd, hz⟩ := ih (n / 10) (by omega)
      exact ⟨c, ds ++ [(n % 10).digitChar], by rw [heq]; rfl, hd, fun hc => by have := hz hc; omega⟩

theorem scanWhole_toDigits (n : Nat) {r : List Char} (hr : Breaks r) :
    scanWhole (Nat.toDigits 10 n ++ r) = some (Nat.toDigits 10 n, r) := by
  obtain ⟨c, ds, heq, -, hz⟩ := toDigits_eq_cons n
  have hdigits : ∀ c ∈ Nat.toDigits 10 n, c.isDigit := fun c hc => Nat.isDigit_of_mem_toDigits (by omega) (by omega) hc
  refine scanWhole_append hdigits Nat.toDigits_ne_nil (fun hzero => ?_) hr.noDigit
  rw [heq] at hzero
  rw [hz (Option.some.inj hzero)]
  rfl

/-- A number without a sign is read back from its digits. -/
theorem scanUnsigned_toDigits (negative : Bool) (n : Nat) {r : List Char} (hr : Breaks r) :
    scanUnsigned negative (Nat.toDigits 10 n ++ r) = some (.integer negative n, r) := by
  simp [scanUnsigned, scanWhole_toDigits n hr, scanFraction?_of_breaks hr, scanExponent?_of_breaks hr,
    Nat.ofDigitChars_ten_toDigits]

/-- The sign and the digits of an integer. -/
def Number.ofInt (i : Int) : Number := .integer (i < 0) i.natAbs

theorem Number.int?_ofInt (i : Int) : (Number.ofInt i).int? = some i := by
  unfold Number.ofInt
  by_cases hi : i < 0
  · rw [decide_eq_true hi, int?, if_neg (by omega)]
    exact congrArg some (by omega)
  · rw [decide_eq_false hi, int?]
    exact congrArg some (by omega)

theorem toList_toString_int (i : Int) :
    (toString i).toList = if i < 0 then '-' :: Nat.toDigits 10 i.natAbs else Nat.toDigits 10 i.natAbs := by
  have hrepr : toString i = if i < 0 then "-" ++ (-i).toNat.repr else i.toNat.repr := by
    rw [show toString i = i.repr from rfl, Int.repr_eq_if]
    simp only [← Int.not_lt, ite_not]
  rw [hrepr]
  split
  · next hi => simp [Nat.toList_repr, show (-i).toNat = i.natAbs by omega]
  · next hi => simp [Nat.toList_repr, show i.toNat = i.natAbs by omega]

/-- A token that starts like a number is one. -/
theorem scan_eq_scanNumber {c : Char} (hc : c.isDigit ∨ c = '-') (r : List Char) :
    scan (c :: r) = (scanNumber (c :: r)).map fun (n, rest) => (.number n, rest) := by
  unfold scan
  split <;> simp_all

/-- An integer is read back from its decimal text. -/
theorem scan_int (i : Int) {r : List Char} (hr : Breaks r) :
    scan ((toString i).toList ++ r) = some (.number (.ofInt i), r) := by
  rw [toList_toString_int]
  split
  · next hi =>
    rw [List.cons_append, scan_eq_scanNumber (.inr rfl), scanNumber, scanUnsigned_toDigits true _ hr]
    simp [Number.ofInt, hi]
  · next hi =>
    obtain ⟨c, ds, heq, hd, -⟩ := toDigits_eq_cons i.natAbs
    have hn := scanUnsigned_toDigits false i.natAbs hr
    rw [heq] at hn ⊢
    rw [List.cons_append, scan_eq_scanNumber (.inl hd), scanNumber, ← List.cons_append, hn]
    · simp [Number.ofInt, hi]
    · intro _ hc
      rw [(List.cons.inj hc).1] at hd
      simp at hd

/-! ### Values -/

namespace Value

/-- What the tokens of `cs` come to from `p` on. -/
def resume (p : Progress) (cs : List Char) : Option Progress := do (← tokens cs).foldlM advance p

@[simp] theorem resume_nil (p : Progress) : resume p [] = some p := by simp [resume, tokens]

theorem ofText?_eq_resume (s : String) : ofText? s = (resume (.value, []) s.toList).bind finished? := by
  simp only [ofText?, ofTokens?, resume, Option.bind_eq_bind, Option.bind_assoc]

/-- No token starts with a blank. -/
theorem not_isBlank_of_scan {c : Char} {r rest : List Char} {t : Token} (h : scan (c :: r) = some (t, rest)) :
    isBlank c = false := by
  refine Bool.eq_false_iff.mpr fun hb => ?_
  simp only [isBlank, decide_eq_true_eq] at hb
  rcases hb with rfl | rfl | rfl | rfl <;> simp [scan, scanNumber, scanUnsigned, scanWhole, scanDigits] at h

/-- A blank is passed over, and else one token is taken. -/
theorem resume_cons (p : Progress) (c : Char) (r : List Char) :
    resume p (c :: r) = if isBlank c then resume p r else
      (scan (c :: r)).bind fun (t, rest) => (advance p t).bind (resume · rest) := by
  rw [resume, tokens]
  by_cases hc : isBlank c
  · rw [if_pos hc, if_pos hc]
    rfl
  · rw [if_neg hc, if_neg hc]
    split
    · next hs =>
      rw [hs]
      rfl
    · next t rest hs =>
      rw [hs]
      simp only [Option.bind_eq_bind, Option.bind_some, resume]
      cases tokens rest <;> cases ha : advance p t <;> simp [ha]

/-- One token more. -/
theorem resume_of_scan {p q : Progress} {cs rest : List Char} {t : Token} (hs : scan cs = some (t, rest))
    (ha : advance p t = some q) : resume p cs = resume q rest := by
  cases cs with
  | nil => simp [scan, scanNumber, scanUnsigned, scanWhole, scanDigits] at hs
  | cons c r =>
    rw [resume_cons, not_isBlank_of_scan hs, hs]
    simp [ha]

/-- A piece of a text that is `v`, wherever a value may stand and whatever breaks off behind it. -/
def Spells (cs : List Char) (v : Value) : Prop :=
  ∀ st r, Breaks r → resume (.value, st) (cs ++ r) = resume (.after v, st) r

theorem Spells.ofText? {s : String} {v : Value} (h : Spells s.toList v) : Value.ofText? s = some v := by
  have hr := h [] [] trivial
  rw [List.append_nil, resume_nil] at hr
  rw [ofText?_eq_resume, hr]
  rfl

theorem spells_string (s : String) : Spells (quote s.toList) (.string (some s)) :=
  fun _ r _ => resume_of_scan (scan_quote s r) rfl

theorem spells_int (i : Int) : Spells (toString i).toList (.number (.ofInt i)) :=
  fun _ _ hr => resume_of_scan (scan_int i hr) rfl

theorem spells_nat (n : Nat) : Spells (toString n).toList (.number (.ofInt n)) := spells_int n

theorem spells_bool (b : Bool) : Spells (toString b).toList (.bool b) := by
  intro st r _
  cases b with
  | true => exact resume_of_scan (t := .bool true) rfl rfl
  | false => exact resume_of_scan (t := .bool false) rfl rfl

/-! ### Items with commas between them -/

section Items

variable {ι : Type} {text : ι → List Char}

/-- Items are read one after another up to what closes them, if any of them can be read after any others: `next before`
is where the reader stands before an item that follows the items `before`, and `item before i` where it stands after it. -/
theorem resume_joined (next closed : List ι → Progress) (item : List ι → ι → Progress) {close : Token}
    (hcomma : ∀ before i, advance (item before i) .comma = some (next (before ++ [i])))
    (hclose : ∀ before i, advance (item before i) close = some (closed (before ++ [i])))
    {i : ι} {is : List ι}
    (hnext : ∀ before, ∀ j ∈ is, ∀ r, Breaks r → resume (next before) (text j ++ r) = resume (item before j) r)
    {p : Progress} (before : List ι) (hp : ∀ r, Breaks r → resume p (text i ++ r) = resume (item before i) r)
    {cs r : List Char} (hcs : scan cs = some (close, r)) (hbreaks : Breaks cs) :
    resume p ([','].intercalate ((i :: is).map text) ++ cs) = resume (closed (before ++ i :: is)) r := by
  induction is generalizing i p before with
  | nil => rw [List.map_singleton, List.intercalate_singleton, hp cs hbreaks, resume_of_scan hcs (hclose before i)]
  | cons j is ih =>
    rw [List.map_cons, List.map_cons, List.intercalate_cons_cons, List.append_assoc, List.append_assoc,
      hp _ (by simp [Breaks]), List.cons_append, List.nil_append, resume_of_scan (t := .comma) rfl (hcomma before i),
      ← List.map_cons, ih (fun b k hk => hnext b k (.tail _ hk)) _ (hnext _ j (.head _)), List.append_assoc,
      List.singleton_append]

/-- An array is read from its elements, of which the first is read as a value would be, and not as the end. -/
theorem spells_array {value : ι → Value} {i : ι} {is : List ι} (h : ∀ j ∈ i :: is, Spells (text j) (value j))
    (hfirst : ∀ st r, resume (.valueOrEnd, st) (text i ++ r) = resume (.value, st) (text i ++ r)) :
    Spells ('[' :: [','].intercalate ((i :: is).map text) ++ [']']) (.array ((i :: is).map value)) := by
  intro st r _
  rw [List.cons_append, List.cons_append, resume_of_scan (t := .openBracket) rfl rfl, List.append_assoc]
  refine resume_joined (fun before => (.value, .array (before.map value).reverse :: st))
    (fun js => (.after (.array (js.map value)), st))
    (fun before j => (.after (value j), .array (before.map value).reverse :: st)) ?_ ?_ ?_ [] ?_
    (show scan (']' :: r) = some (.closeBracket, r) from rfl) (by simp [Breaks])
  · intro before j
    simp [advance, follow]
  · intro before j
    simp [advance, follow]
  · exact fun before j hj r hr => h j (.tail _ hj) _ r hr
  · exact fun r hr => (hfirst _ r).trans (h i (.head _) _ r hr)

variable {named : ι → Option String × Value}

/-- A piece of a text that is the member `m` of an object, wherever a name may stand and whatever breaks off behind it. -/
def SpellsMember (cs : List Char) (m : Option String × Value) : Prop :=
  ∀ (p : Progress) (ms : List (Option String × Value)) (st : List Frame) (r : List Char),
    (∀ k, advance p (.string k) = some (.colon, .member ms k :: st)) → Breaks r →
      resume p (cs ++ r) = resume (.after m.2, .member ms m.1 :: st) r

/-- An object is read from its members. -/
theorem spells_members {i : ι} {is : List ι} (h : ∀ j ∈ i :: is, SpellsMember (text j) (named j)) :
    Spells ('{' :: [','].intercalate ((i :: is).map text) ++ ['}']) (.object ((i :: is).map named)) := by
  intro st r _
  rw [List.cons_append, List.cons_append, resume_of_scan (t := .openBrace) rfl rfl, List.append_assoc]
  refine resume_joined (fun before => (.name, .object (before.map named).reverse :: st))
    (fun js => (.after (.object (js.map named)), st))
    (fun before j => (.after (named j).2, .member (before.map named).reverse (named j).1 :: st)) ?_ ?_ ?_ [] ?_
    (show scan ('}' :: r) = some (.closeBrace, r) from rfl) (by simp [Breaks])
  · intro before j
    simp [advance, follow]
  · intro before j
    simp [advance, follow]
  · exact fun before j hj r hr => h j (.tail _ hj) _ _ _ r (fun _ => rfl) hr
  · exact fun r hr => h i (.head _) _ _ _ r (fun _ => rfl) hr

end Items

/-! ### Objects -/

section Members

variable {ι : Type} (name : ι → String) (text : ι → List Char) (value : ι → Value)

/-- The text of a member. -/
def memberText (i : ι) : List Char := quote (name i).toList ++ ':' :: text i

/-- The name and the value of a member. -/
def member (i : ι) : Option String × Value := (some (name i), value i)

variable {name text value}

/-- A member is read from wherever a name may stand. -/
theorem spellsMember_memberText {i : ι} (h : Spells (text i) (value i)) :
    SpellsMember (memberText name text i) (member name value i) := by
  intro p ms st r hp hr
  rw [memberText, List.append_assoc, resume_of_scan (scan_quote _ _) (hp _), List.cons_append,
    resume_of_scan (t := .colon) rfl rfl, h _ _ hr]
  rfl

/-- An object is read back from its members. -/
theorem spells_object {is : List ι} (h : ∀ i ∈ is, Spells (text i) (value i)) :
    Spells ('{' :: [','].intercalate (is.map (memberText name text)) ++ ['}'])
      (.object (is.map (member name value))) := by
  cases is with
  | nil =>
    intro st r _
    exact (resume_of_scan (t := .openBrace) rfl rfl).trans (resume_of_scan (t := .closeBrace) rfl rfl)
  | cons i is => exact spells_members fun j hj => spellsMember_memberText (h j hj)

end Members

end Value

end VersionBoard.Json
