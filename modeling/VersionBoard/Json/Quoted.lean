/-!
# Strings in JSON text

A string is written between quotes with as few escapes as there can be: a quote,
a backslash and the control characters below a blank. It may be read with any
escape. An escape with four hexadecimal digits names a UTF-16 unit; two units
can make up one character, and a unit that is one half of nothing names no
text. Such a literal is well formed all the same.
-/

namespace VersionBoard.Json

/-! ### Writing -/

/-- A digit below sixteen, in lower case. -/
def hexDigit (n : Nat) : Char := Nat.digitChar n

/-- How a character is written. -/
def escape (c : Char) : List Char :=
  match c with
  | '"' => ['\\', '"']
  | '\\' => ['\\', '\\']
  | '\x08' => ['\\', 'b']
  | '\x0c' => ['\\', 'f']
  | '\n' => ['\\', 'n']
  | '\r' => ['\\', 'r']
  | '\t' => ['\\', 't']
  | c =>
    if c < ' ' then ['\\', 'u', '0', '0', hexDigit (c.toNat / 16), hexDigit (c.toNat % 16)]
    else [c]

/-- How a string is written. -/
def quote (s : List Char) : List Char := '"' :: s.flatMap escape ++ ['"']

/-! ### Reading -/

/-- A part of a string literal. -/
inductive Piece where
  /-- A character. -/
  | char (c : Char)
  /-- A UTF-16 unit. -/
  | unit (u : Nat)
  deriving DecidableEq

/-- The value of a hexadecimal digit. -/
def hexValue? (c : Char) : Option Nat :=
  if c.isDigit then some (c.toNat - '0'.toNat)
  else if 'a' ≤ c ∧ c ≤ 'f' then some (c.toNat - 'a'.toNat + 10)
  else if 'A' ≤ c ∧ c ≤ 'F' then some (c.toNat - 'A'.toNat + 10)
  else none

/-- The unit that four digits name. -/
def hexUnit? (a b c d : Char) : Option Nat := do
  return (((← hexValue? a) * 16 + (← hexValue? b)) * 16 + (← hexValue? c)) * 16 + (← hexValue? d)

/-- The character that a short escape stands for. -/
def unescape? : Char → Option Char
  | '"' => some '"'
  | '\\' => some '\\'
  | '/' => some '/'
  | 'b' => some '\x08'
  | 'f' => some '\x0c'
  | 'n' => some '\n'
  | 'r' => some '\r'
  | 't' => some '\t'
  | _ => none

/-- The pieces of a literal, from behind its first quote, and what follows its last one. -/
def scanPieces : List Char → Option (List Piece × List Char)
  | [] => none
  | '"' :: r => some ([], r)
  | '\\' :: 'u' :: a :: b :: c :: d :: r => do
    let u ← hexUnit? a b c d
    let (ps, rest) ← scanPieces r
    return (.unit u :: ps, rest)
  | '\\' :: c :: r => do
    let c ← unescape? c
    let (ps, rest) ← scanPieces r
    return (.char c :: ps, rest)
  | c :: r =>
    if c < ' ' ∨ c = '\\' then none
    else do
      let (ps, rest) ← scanPieces r
      return (.char c :: ps, rest)

/-- A unit that is the first half of a character. -/
def isHigh (u : Nat) : Bool := 0xD800 ≤ u ∧ u < 0xDC00

/-- A unit that is the second half of a character. -/
def isLow (u : Nat) : Bool := 0xDC00 ≤ u ∧ u < 0xE000

/-- The character that two halves make up. -/
def joinHalves (u v : Nat) : Char := Char.ofNat (0x10000 + (u - 0xD800) * 0x400 + (v - 0xDC00))

/-- The text that pieces make up, unless a unit is half of nothing. -/
def joinPieces : List Piece → Option (List Char)
  | [] => some []
  | .char c :: ps => (joinPieces ps).map (c :: ·)
  | .unit u :: .unit v :: ps =>
    if isHigh u then
      if isLow v then (joinPieces ps).map (joinHalves u v :: ·) else none
    else if isLow u then none
    else (joinPieces (.unit v :: ps)).map (Char.ofNat u :: ·)
  | .unit u :: ps => if isHigh u ∨ isLow u then none else (joinPieces ps).map (Char.ofNat u :: ·)

/-- A literal leaves less than there was. -/
theorem length_lt_of_scanPieces {cs rest : List Char} {ps : List Piece}
    (h : scanPieces cs = some (ps, rest)) : rest.length < cs.length := by
  fun_induction scanPieces cs generalizing ps rest <;> simp_all [Option.bind_eq_some_iff] <;> grind

end VersionBoard.Json
