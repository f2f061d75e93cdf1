import NetRanges.Text.Cut

/-!
# Separators

The signs that may stand between the two sides of a range.
-/

namespace NetRanges

/-- The signs between the two sides of a range. -/
inductive Separator where
  | arrow
  | slash
  | dash
  | enDash
deriving DecidableEq, Repr

namespace Separator

/-- How a separator is written. -/
def text : Separator → Text
  | arrow => ['-', '>']
  | slash => ['/']
  | dash => ['-']
  | enDash => ['–']

/-- The separators of one character, in the order in which they are looked for. -/
def singles : List Separator :=
  [slash, dash, enDash]

end Separator

end NetRanges
