import NetRanges.Text.Numeral

/-!
# JSON values

A JSON value as it is after its text has been read. Whole numbers are kept apart from
numbers that are written with a fraction or an exponent, since only the former stand for
counts. `render` writes a value without spaces, in the order of its fields; a string is
written with escapes for quotes, backslashes and control characters only.
-/

namespace NetRanges

/-- A JSON value. -/
inductive Json where
  | null
  | bool (b : Bool)
  /-- A number written without fraction and exponent. -/
  | integer (n : Int)
  /-- Any other number, as it is written. -/
  | real (literal : Text)
  | string (t : Text)
  | array (elements : List Json)
  | object (fields : List (Text × Json))
deriving Inhabited

namespace Json

/-- The value of the last field of a name, if a value is an object that has one. -/
def field? (name : String) : Json → Option Json
  | object fields => (fields.reverse.find? fun f => f.1 == name.toList).map Prod.snd
  | _ => none

/-- A string value. -/
def str (s : String) : Json :=
  string s.toList

/-- The value of a natural number. -/
def nat (n : Nat) : Json :=
  integer n

/-- A decimal numeral as a string value. -/
def numeral (n : Nat) : Json :=
  string (Numeral.write 10 n)

/-- An object with the given fields. -/
def ofFields (fields : List (String × Json)) : Json :=
  object (fields.map fun (name, value) => (name.toList, value))

/-! ## Writing -/

/-- A control character as its code point in four hexadecimal digits. -/
def codePoint (c : Char) : Text :=
  let digits := Numeral.write 16 c.toNat
  ['\\', 'u'] ++ List.replicate (4 - digits.length) '0' ++ digits

/-- How a character is written within a string. -/
def escape (c : Char) : Text :=
  match c with
  | '"' => ['\\', '"']
  | '\\' => ['\\', '\\']
  | '\n' => ['\\', 'n']
  | '\r' => ['\\', 'r']
  | '\t' => ['\\', 't']
  | '\x08' => ['\\', 'b']
  | '\x0c' => ['\\', 'f']
  | _ => if c.toNat < 0x20 then codePoint c else [c]

/-- A string with its quotes. -/
def quoted (t : Text) : Text :=
  ['"'] ++ t.flatMap escape ++ ['"']

mutual

/-- The text of a value. -/
def render : Json → Text
  | null => "null".toList
  | bool true => "true".toList
  | bool false => "false".toList
  | integer n => Numeral.writeInt n
  | real literal => literal
  | string t => quoted t
  | array elements => ['['] ++ List.intercalate [','] (renderElements elements) ++ [']']
  | object fields => ['\x7b'] ++ List.intercalate [','] (renderFields fields) ++ ['\x7d']

/-- The texts of the elements of an array. -/
def renderElements : List Json → List Text
  | [] => []
  | v :: vs => render v :: renderElements vs

/-- The texts of the fields of an object. -/
def renderFields : List (Text × Json) → List Text
  | [] => []
  | (name, v) :: fields => (quoted name ++ [':'] ++ render v) :: renderFields fields

end

end Json

end NetRanges
