import NetRanges.Block.Basic

/-!
# Reading a block

A block is written as an address, a slash and a length; an address alone is the block of
that address. White space is allowed around the text and around both of its sides. The
length is a decimal numeral with any number of leading zeros, and a plus sign may stand
before it. Every refusal quotes the whole trimmed text.
-/

namespace NetRanges.Block

/-- The number that a numeral writes after at most one plus sign. -/
def length? : Text → Option Nat
  | '+' :: t => Numeral.read? 10 t
  | t => Numeral.read? 10 t

/-- The block that a trimmed text writes. -/
def ofTrimmed? (t : Text) : Option Block :=
  match Text.cut? Separator.slash.text t with
  | none => (Address.ofText? t).map host
  | some (left, right) => do
    let address ← Address.ofText? (Text.trim left)
    let length ← length? (Text.trim right)
    (of address length).toOption

def ofText (input : Text) : Except Error Block :=
  let t := Text.trim input
  match ofTrimmed? t with
  | some b => .ok b
  | none => .error (.invalidPrefix t)

end NetRanges.Block
