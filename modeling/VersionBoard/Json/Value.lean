import VersionBoard.Json.Token

/-!
# JSON values

A value, and how tokens make one up: token by token, with a stack of the arrays
and objects that are still open. Members keep their order, and a name may come
more than once.
-/

namespace VersionBoard.Json

/-- A JSON value. A string is kept as its text, if it names one. -/
inductive Value where
  /-- The value `null`. -/
  | null
  /-- True or false. -/
  | bool (b : Bool)
  /-- A number. -/
  | number (n : Number)
  /-- A string. -/
  | string (s : Option String)
  /-- Values in order. -/
  | array (vs : List Value)
  /-- Names and values in order. -/
  | object (ms : List (Option String × Value))
  deriving Inhabited

namespace Value

/-- An array or object that is still open; what it has so far stands last one first. -/
inductive Frame where
  /-- An array. -/
  | array (before : List Value)
  /-- An object between two members. -/
  | object (before : List (Option String × Value))
  /-- An object in the middle of a member. -/
  | member (before : List (Option String × Value)) (name : Option String)

/-- What may come next. -/
inductive Expect where
  /-- A value. -/
  | value
  /-- A value, or the end of an array without any. -/
  | valueOrEnd
  /-- A name. -/
  | name
  /-- A name, or the end of an object without any. -/
  | nameOrEnd
  /-- A colon. -/
  | colon
  /-- What follows the value `v`. -/
  | after (v : Value)

/-- How far the tokens have come: what may come next, and what is open, innermost first. -/
abbrev Progress : Type := Expect × List Frame

/-- After the first token of a value. -/
def begin (st : List Frame) : Token → Option Progress
  | .null => some (.after .null, st)
  | .bool b => some (.after (.bool b), st)
  | .number n => some (.after (.number n), st)
  | .string s => some (.after (.string s), st)
  | .openBracket => some (.valueOrEnd, .array [] :: st)
  | .openBrace => some (.nameOrEnd, .object [] :: st)
  | _ => none

/-- After a name. -/
def named (ms : List (Option String × Value)) (st : List Frame) : Token → Option Progress
  | .string k => some (.colon, .member ms k :: st)
  | _ => none

/-- After the token that follows a value. -/
def follow (v : Value) : List Frame → Token → Option Progress
  | .array vs :: st, .comma => some (.value, .array (v :: vs) :: st)
  | .array vs :: st, .closeBracket => some (.after (.array (v :: vs).reverse), st)
  | .member ms k :: st, .comma => some (.name, .object ((k, v) :: ms) :: st)
  | .member ms k :: st, .closeBrace => some (.after (.object ((k, v) :: ms).reverse), st)
  | _, _ => none

/-- After one token more. -/
def advance : Progress → Token → Option Progress
  | (.value, st), t => begin st t
  | (.valueOrEnd, .array [] :: st), .closeBracket => some (.after (.array []), st)
  | (.valueOrEnd, st), t => begin st t
  | (.name, .object ms :: st), t => named ms st t
  | (.nameOrEnd, .object [] :: st), .closeBrace => some (.after (.object []), st)
  | (.nameOrEnd, .object ms :: st), t => named ms st t
  | (.colon, st), .colon => some (.value, st)
  | (.after v, st), t => follow v st t
  | _, _ => none

/-- The value that is complete when nothing is open. -/
def finished? : Progress → Option Value
  | (.after v, []) => some v
  | _ => none

/-- The value that tokens make up. -/
def ofTokens? (ts : List Token) : Option Value := do finished? (← ts.foldlM advance (.value, []))

/-- The value that a text is, with nothing before or after it but blanks. -/
def ofText? (s : String) : Option Value := do ofTokens? (← tokens s.toList)

end Value

end VersionBoard.Json
