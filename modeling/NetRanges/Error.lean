import NetRanges.Address.Text
import NetRanges.Item.Separator

/-!
# Errors

The reasons for which a text, a record or a pair of bounds is refused, each with what its
message quotes. The wording is in one function.
-/

namespace NetRanges

/-- Why an input is refused. -/
inductive Error where
  | emptyInput
  /-- The text has no separator and is no address. -/
  | invalidAddress (input : Text)
  /-- The text is no address with a prefix length. -/
  | invalidPrefix (input : Text)
  /-- The left side of a separator is no address. -/
  | invalidLower (side : Text)
  /-- The right side of a separator is no address. -/
  | invalidUpper (side : Text)
  /-- Two bounds belong to different families. -/
  | familyMismatch (lower upper : Address)
  /-- There is nothing on one side of the separator. -/
  | emptySide (input : Text)
  /-- One separator stands more than once. -/
  | repeatedSeparator (separator : Separator) (input : Text)
  /-- Different separators stand in one text. -/
  | mixedSeparators (input : Text)
  /-- A record starts with the tag of no family. -/
  | unknownTag (tag : Int)
  /-- A record ends too early. -/
  | truncated (needed available : Nat)
  /-- An address in a record has the wrong length for its family. -/
  | wrongLength (expected : Nat) (found : Int)
  /-- Bytes follow the only record. -/
  | trailingBytes (count : Nat)
  /-- A bounded range has neither bound. -/
  | unbounded
deriving DecidableEq

namespace Error

def quoted (t : Text) : Text :=
  ['\''] ++ t ++ ['\'']

def message : Error → Text
  | emptyInput => "Range cannot be null or empty".toList
  | invalidAddress t =>
    "Malformed input ".toList ++ quoted t ++ ". Expected IP, CIDR, or range.".toList
  | invalidPrefix t => "Malformed CIDR ".toList ++ quoted t ++ ". Expected ip/prefix.".toList
  | invalidLower t => "Invalid lower IP ".toList ++ quoted t ++ ['.']
  | invalidUpper t => "Invalid upper IP ".toList ++ quoted t ++ ['.']
  | familyMismatch l u =>
    "IPv4/IPv6 mismatch: ".toList ++ quoted l.text ++ " vs ".toList ++ quoted u.text ++ ['.']
  | emptySide t =>
    "Malformed ".toList ++ quoted t ++ ". Empty side around separator.".toList
  | repeatedSeparator s t =>
    "Multiple ".toList ++ quoted s.text ++ " in ".toList ++ quoted t
  | mixedSeparators t =>
    "Expected exactly one separator: '/', '-', '–', or '->': ".toList ++ quoted t
  | unknownTag tag => "Unknown IP version: ".toList ++ Numeral.writeInt tag
  | truncated needed available =>
    "truncated input: need ".toList ++ Numeral.write 10 needed ++ " bytes, have ".toList ++
      Numeral.write 10 available
  | wrongLength expected found =>
    "invalid address length: expected ".toList ++ Numeral.write 10 expected ++
      ", got ".toList ++ Numeral.writeInt found
  | trailingBytes count => "trailing bytes after range: ".toList ++ Numeral.write 10 count
  | unbounded => "At least one of the valid lower or upper bounds must be provided".toList

instance : ToString Error :=
  ⟨fun e => String.ofList e.message⟩

end Error

namespace Address

/-- The address that a text writes, or the given reason to refuse it. -/
def ofTextOr (refusal : Error) (t : Text) : Except Error Address :=
  match ofText? t with
  | some a => .ok a
  | none => .error refusal

end Address

/-! ## Results and refusals -/

section

variable {ε α β : Type} {x : Except ε α} {a : α} {b : β} {e : ε}

theorem bind_eq_ok_iff {f : α → Except ε β} :
    x.bind f = .ok b ↔ ∃ a, x = .ok a ∧ f a = .ok b := by
  cases x with
  | error e => simp [Except.bind]
  | ok a => simp [Except.bind]

theorem bind_eq_error_iff {f : α → Except ε β} :
    x.bind f = .error e ↔ x = .error e ∨ ∃ a, x = .ok a ∧ f a = .error e := by
  cases x with
  | error e' => simp [Except.bind]
  | ok a => simp [Except.bind]

theorem map_eq_ok_iff {f : α → β} : x.map f = .ok b ↔ ∃ a, x = .ok a ∧ f a = b := by
  cases x with
  | error e => simp [Except.map]
  | ok a => simp [Except.map]

theorem map_eq_error_iff {f : α → β} : x.map f = .error e ↔ x = .error e := by
  cases x with
  | error e' => simp [Except.map]
  | ok a => simp [Except.map]

theorem toOption_eq_some_iff : x.toOption = some a ↔ x = .ok a := by
  cases x with
  | error e => simp [Except.toOption]
  | ok b => simp [Except.toOption]

end

end NetRanges
