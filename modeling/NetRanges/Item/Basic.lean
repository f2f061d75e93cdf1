import NetRanges.Block.Text

/-!
# Items

An item is an address or a range, as people write it in lists: a bare address, an address
with a prefix length, or two addresses around one separator. White space is allowed around
the text and around both sides. When a text is refused, the error tells the first of the
rules it breaks, in the order in which they are checked here.
-/

namespace NetRanges

/-- An address or a range. -/
inductive Item where
  | address (a : Address)
  | range (r : Range)
deriving DecidableEq

/-- A text cut in two at a separator. -/
structure Parting where
  /-- The text before the separator. -/
  left : Text
  /-- The separator. -/
  separator : Separator
  /-- The text after the separator. -/
  right : Text
deriving DecidableEq

namespace Parting

/-- The parting at the only place where `s` stands, none where it does not stand. -/
def only (s : Separator) (t : Text) : Except Error (Option Parting) :=
  match Text.cut? s.text t with
  | none => .ok none
  | some (left, right) =>
    if Text.holds s.text right then .error (.repeatedSeparator s t)
    else .ok (some ⟨left, s, right⟩)

/-- The parting of a text at its separator. An arrow goes before all others; without one,
at most one of the single-character separators may stand in the text, and only once. -/
def ofText (t : Text) : Except Error (Option Parting) :=
  if Text.holds Separator.arrow.text t then only .arrow t
  else
    match Separator.singles.filter fun s => Text.holds s.text t with
    | [] => .ok none
    | [s] => only s t
    | s :: _ =>
      match only s t with
      | .error e => .error e
      | .ok _ => .error (.mixedSeparators t)

end Parting

namespace Item

/-- An item as a range; an address becomes the range of that address. -/
def toRange : Item → Range
  | address a => .single a
  | range r => r

/-- The address that an item is. -/
def address? : Item → Option Address
  | address a => some a
  | range _ => none

/-- The range that an item is. -/
def range? : Item → Option Range
  | address _ => none
  | range r => some r

/-- The text of the address or of the range. -/
def text : Item → Text
  | address a => a.text
  | range r => r.text

instance : ToString Item :=
  ⟨fun i => String.ofList i.text⟩

/-- The range that two sides of a separator bound. -/
def bounds (left right : Text) : Except Error Range := do
  let lower ← Address.ofTextOr (.invalidLower left) left
  let upper ← Address.ofTextOr (.invalidUpper right) right
  Range.between lower upper

/-- The range that a parted text writes, where `t` is the whole text. -/
def ofParting (t : Text) (p : Parting) : Except Error Range :=
  let left := Text.trim p.left
  let right := Text.trim p.right
  if left.isEmpty || right.isEmpty then .error (.emptySide t)
  else if p.separator = .slash && Numeral.isDecimal right then (Block.ofText t).map Block.range
  else bounds left right

/-- The item that a text writes. -/
def ofText (input : Text) : Except Error Item :=
  let t := Text.trim input
  if t.isEmpty then .error .emptyInput
  else do
    match ← Parting.ofText t with
    | none => (Address.ofTextOr (.invalidAddress t) t).map address
    | some p => (ofParting t p).map range

end Item

namespace Range

/-- The range that a text writes; an address stands for its own range. -/
def ofText (t : Text) : Except Error Range :=
  (Item.ofText t).map Item.toRange

/-- The ranges that texts write, or the error of the first text that is refused. -/
def ofTexts (ts : List Text) : Except Error (List Range) :=
  ts.mapM ofText

theorem ofTexts_cons (t : Text) (ts : List Text) :
    ofTexts (t :: ts) = (ofText t).bind fun r => (ofTexts ts).map fun rs => r :: rs := by
  unfold ofTexts
  rw [List.mapM_cons]
  rfl

end Range

namespace Address

/-- The addresses among the texts, each trimmed; all other texts are passed over. -/
def ofTexts (ts : List Text) : List Address :=
  ts.filterMap fun t => ofText? (Text.trim t)

/-- The texts of addresses between square brackets. -/
def listText (as : List Address) : Text :=
  Text.bracketed (as.map text)

end Address

end NetRanges
