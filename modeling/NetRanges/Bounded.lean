import NetRanges.Matcher.Basic
import NetRanges.Range.Basic

/-!
# Bounded ranges

A bounded range has a lower bound, an upper bound or both, and each bound may be open, so
that the bound itself does not belong to the range. Nothing in the type asks for a bound or
for bounds of one family; `check` does. The bounds may be in any order, and open bounds may
leave nothing between them, so a bounded range can be empty. Where it is not, `closure?`
gives the range of the same addresses.
-/

namespace NetRanges

/-- The addresses between two bounds. -/
structure Bounded where
  lower : Option Address := none
  upper : Option Address := none
  /-- Whether the lower bound itself is left out. -/
  lowerOpen : Bool := false
  /-- Whether the upper bound itself is left out. -/
  upperOpen : Bool := false
deriving DecidableEq

namespace Bounded

/-- Accepts bounds if there is at least one and they do not belong to different families. -/
def check (b : Bounded) : Except Error Bounded :=
  match b.lower, b.upper with
  | none, none => .error .unbounded
  | some l, some u => if l.family = u.family then .ok b else .error (.familyMismatch l u)
  | _, _ => .ok b

/-- The bounded range between two addresses that both belong to it. -/
def closed (lower upper : Address) : Except Error Bounded :=
  check { lower := some lower, upper := some upper }

/-- A range with its two ends as bounds. -/
def ofRange (r : Range) : Bounded :=
  { lower := some r.lower, upper := some r.upper }

def family (b : Bounded) : Family :=
  match b.lower, b.upper with
  | some a, _ => a.family
  | none, some a => a.family
  | none, none => .v4

/-- Whether a value is on the right side of the lower bound. -/
def meetsLower (b : Bounded) (v : Nat) : Bool :=
  match b.lower with
  | none => true
  | some l => if b.lowerOpen then l.value < v else l.value ≤ v

/-- Whether a value is on the right side of the upper bound. -/
def meetsUpper (b : Bounded) (v : Nat) : Bool :=
  match b.upper with
  | none => true
  | some u => if b.upperOpen then v < u.value else v ≤ u.value

instance : Matcher Bounded where
  contains b a foreign :=
    if a.family = b.family then b.meetsLower a.value && b.meetsUpper a.value else foreign

/-- The least value that meets the lower bound. -/
def least (b : Bounded) : Nat :=
  match b.lower with
  | none => 0
  | some l => if b.lowerOpen then l.value + 1 else l.value

/-- The least value above all those of the family that meet the upper bound. -/
def limit (b : Bounded) : Nat :=
  match b.upper with
  | none => b.family.size
  | some u => if b.upperOpen then u.value else u.value + 1

/-- The range of the same addresses, unless there are none. -/
def closure? (b : Bounded) : Option Range :=
  if b.least < b.limit then some (.spanning b.family b.least (b.limit - 1)) else none

/-- The text of a bound, a star for a missing one. -/
def boundText : Option Address → Text
  | some a => a.text
  | none => ['*']

def text (b : Bounded) : Text :=
  [if b.lowerOpen then '(' else '['] ++ boundText b.lower ++ [',', ' '] ++
    boundText b.upper ++ [if b.upperOpen then ')' else ']']

instance : ToString Bounded :=
  ⟨fun b => String.ofList b.text⟩

end Bounded

end NetRanges
