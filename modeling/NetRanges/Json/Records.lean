import NetRanges.Bounded
import NetRanges.Item.Basic
import NetRanges.Json.Form
import NetRanges.Matcher.Compiled

/-!
# The JSON forms of ranges and options

A range is written as a string with its text. A bounded range and the options of a matcher
are records; what is read as a bounded range passes the same check as any other one.
-/

namespace NetRanges

open Json (Refusal)

namespace Range

/-- The text of a range as a string. -/
def toJson (r : Range) : Json :=
  .string r.text

/-- The range that a string writes. -/
def ofJson : Json → Except Refusal Range
  | .string t => Json.checked (ofText t)
  | _ => .error .form

end Range

namespace Bounded

/-- The names of the fields, in their order. -/
def fieldNames : List String :=
  ["lower", "upper", "lowerOpen", "upperOpen"]

/-- A bound as the text of its address, a missing one as null. -/
def boundJson : Option Address → Json
  | some a => .string a.text
  | none => .null

/-- The bounds and the flags as an object. -/
def toJson (b : Bounded) : Json :=
  .ofFields (fieldNames.zip
    [boundJson b.lower, boundJson b.upper, .bool b.lowerOpen, .bool b.upperOpen])

/-- A bound, where a missing field and null stand for no bound. -/
def boundOfJson : Option Json → Except Refusal (Option Address)
  | none => .ok none
  | some .null => .ok none
  | some (.string t) =>
    match Address.ofText? t with
    | some a => .ok (some a)
    | none => .error .form
  | some _ => .error .form

/-- The bounds and flags of a record, before they are checked. -/
def ofSlots : List (Option Json) → Except Refusal Bounded
  | [lower, upper, lowerOpen, upperOpen] => do
    let lower ← boundOfJson lower
    let upper ← boundOfJson upper
    let lowerOpen ← Json.flag false lowerOpen
    let upperOpen ← Json.flag false upperOpen
    .ok { lower, upper, lowerOpen, upperOpen }
  | _ => .error .form

/-- The bounded range that a record describes, if the check accepts it. -/
def ofJson (v : Json) : Except Refusal Bounded := do
  let b ← ofSlots (← v.slots fieldNames)
  Json.checked b.check

end Bounded

namespace Strategy

/-- A strategy, by its name or by an object whose only field has that name and is null. -/
def ofJson : Json → Except Refusal Strategy
  | .string name => named name
  | .object [(name, .null)] => named name
  | _ => .error .form
where
  named (name : Text) : Except Refusal Strategy :=
    match ofName? name with
    | some s => .ok s
    | none => .error .form

end Strategy

namespace Options

/-- The names of the fields, in their order. -/
def fieldNames : List String :=
  ["strategy", "trie_threshold"]

/-- The strategy and the threshold as an object. -/
def toJson (o : Options) : Json :=
  .ofFields (fieldNames.zip [.str o.strategy.name, .nat o.trieThreshold.toNat])

/-- A threshold, which is a whole number of at most sixty-four bits. -/
def thresholdOfJson : Json → Except Refusal UInt64
  | .integer n =>
    if 0 ≤ n ∧ n < UInt64.size then .ok (UInt64.ofNat n.toNat) else .error .form
  | _ => .error .form

/-- The options of a record, missing fields having their default values. -/
def ofSlots : List (Option Json) → Except Refusal Options
  | [strategy, threshold] => do
    let defaults : Options := {}
    let strategy ← strategy.elim (.ok defaults.strategy) Strategy.ofJson
    let trieThreshold ← threshold.elim (.ok defaults.trieThreshold) thresholdOfJson
    .ok { strategy, trieThreshold }
  | _ => .error .form

/-- The options that a record describes. -/
def ofJson (v : Json) : Except Refusal Options := do
  ofSlots (← v.slots fieldNames)

end Options

end NetRanges
