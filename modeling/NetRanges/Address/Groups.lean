import NetRanges.Address.Quad

/-!
# Colon-separated groups

One hundred and twenty-eight bits are written as eight groups of sixteen bits, in
hexadecimal and between colons. Two colons in a row stand for one or more groups of zeros
and may occur once. The last two groups may be read as a dotted quad. What is written has
lower-case digits and no leading zeros, puts the two colons in place of the first longest
run of at least two zero groups, and uses a dotted quad only for the addresses that embed
thirty-two bits after a group of ones.
-/

namespace NetRanges.Groups

open Positional

/-- How many values a group has. -/
def base : Nat := 0x10000

/-- The value of one to four hexadecimal digits. -/
def group? (t : Text) : Option Nat :=
  if t.length ≤ 4 then Numeral.read? 16 t else none

/-- A dotted quad as two groups. -/
def quad? (t : Text) : Option (List Nat) :=
  (Quad.read? t).map (digits base 2)

/-- The groups that the texts between colons write; the last text may be a quad if
`quadAtEnd` is set. -/
def fields? (quadAtEnd : Bool) : List Text → Option (List Nat)
  | [] => some []
  | [t] => (group? t).map ([·]) <|> if quadAtEnd then quad? t else none
  | t :: ts => do
    let g ← group? t
    let gs ← fields? quadAtEnd ts
    some (g :: gs)

/-- The groups of a colon-separated list; the empty text has none. -/
def list? (quadAtEnd : Bool) (t : Text) : Option (List Nat) :=
  if t.isEmpty then some [] else fields? quadAtEnd (t.splitOn ':')

/-- The eight groups that a text writes. -/
def groups? (t : Text) : Option (List Nat) :=
  match Text.cut? [':', ':'] t with
  | some (before, after) => do
    let front ← list? false before
    let back ← list? true after
    let written := front.length + back.length
    if written < 8 then some (front ++ List.replicate (8 - written) 0 ++ back) else none
  | none => (list? true t).filter (·.length == 8)

/-- The number whose eight groups a text writes. -/
def read? (t : Text) : Option Nat :=
  (groups? t).map (ofDigits base)

/-! ## Writing -/

/-- The length of the run of zeros that a list starts with. -/
def zerosAtStart (gs : List Nat) : Nat :=
  (gs.takeWhile (· == 0)).length

/-- The place and the length of the first longest run of zeros. -/
def longestZeros : List Nat → Nat × Nat
  | [] => (0, 0)
  | g :: gs =>
    let here := zerosAtStart (g :: gs)
    let (place, length) := longestZeros gs
    if length ≤ here then (0, here) else (place + 1, length)

/-- The groups in hexadecimal, between colons. -/
def joined (gs : List Nat) : Text :=
  List.intercalate [':'] (gs.map (Numeral.write 16))

/-- The groups between colons, the first longest run of at least two zeros left out. -/
def compressed (gs : List Nat) : Text :=
  let (place, length) := longestZeros gs
  if length < 2 then joined gs
  else joined (gs.take place) ++ [':', ':'] ++ joined (gs.drop (place + length))

/-- The thirty-two bits after five groups of zeros and one of ones. -/
def embedded? (n : Nat) : Option Nat :=
  if n / base.pow 2 = base - 1 then some (n % base.pow 2) else none

/-- The text of one hundred and twenty-eight bits. -/
def write (n : Nat) : Text :=
  match embedded? n with
  | some low => "::ffff:".toList ++ Quad.write low
  | none => compressed (digits base 8 n)

end NetRanges.Groups
