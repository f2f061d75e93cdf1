import NetRanges.Item.Basic

/-!
# Tokens of free text

A token is a trimmed piece of free text between commas. Four patterns are tried in turn, each on
the whole token, and the first one that matches decides what the token means, even if it then
means nothing: two runs of characters of addresses around a dash, such a run and a run of digits
around a slash, two such runs around a slash, and one such run alone. Runs are not empty, and the
characters of addresses are hexadecimal digits, colons and dots. The pattern with digits takes
those of all scripts, although a prefix length is read from ASCII digits only. Every other token
means nothing, without an error.
-/

namespace NetRanges.Loose

/-- Whether a character may occur in the text of an address. -/
def isAddressChar (c : Char) : Bool :=
  (Numeral.digit? 16 c).isSome || c == ':' || c == '.'

/-- Whether a text is a non-empty run of characters of a class. -/
def isRun (isMember : Char → Bool) (t : Text) : Bool :=
  !t.isEmpty && t.all isMember

def isDash (c : Char) : Bool :=
  c == '-' || c == '–'

def isSlash (c : Char) : Bool :=
  c == '/'

/-- The two sides of the first separator, if the left one is a run of characters of addresses
and the right one a run of its own class. -/
def sides? (isSeparator isRight : Char → Bool) (t : Text) : Option (Text × Text) :=
  match t.span fun c => !isSeparator c with
  | (left, _ :: right) =>
    if isRun isAddressChar left && isRun isRight right then some (left, right) else none
  | (_, []) => none

/-- The range between the addresses on two sides. -/
def bounds? (left right : Text) : Option Range :=
  (Item.bounds left right).toOption

/-- The range of the block that a text writes. -/
def blockRange? (t : Text) : Option Range :=
  (Block.ofText t).toOption.map Block.range

/-- What a token means. -/
def classify (t : Text) : Option Item :=
  match sides? isDash isAddressChar t with
  | some (left, right) => (bounds? left right).map .range
  | none =>
    match sides? isSlash Numeral.isScriptDigit t with
    | some _ => (blockRange? t).map .range
    | none =>
      match sides? isSlash isAddressChar t with
      | some (left, right) => (bounds? left right).map .range
      | none => if isRun isAddressChar t then (Address.ofText? t).map .address else none

end NetRanges.Loose
