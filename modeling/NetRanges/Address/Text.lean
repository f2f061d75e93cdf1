import NetRanges.Address.Basic
import NetRanges.Address.Groups

/-!
# The text of an address

An address of the shorter family is a dotted quad, one of the longer family eight groups.
Reading takes the text as it stands, without trimming.
-/

namespace NetRanges.Address

def ofText? (t : Text) : Option Address :=
  (Quad.read? t).map (ofNat .v4) <|> (Groups.read? t).map (ofNat .v6)

def text (a : Address) : Text :=
  match a.family with
  | .v4 => Quad.write a.value
  | .v6 => Groups.write a.value

instance : ToString Address :=
  ⟨fun a => String.ofList a.text⟩

end NetRanges.Address
