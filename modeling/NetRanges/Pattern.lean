import NetRanges.RangeSet

/-!
# Patterns

A pattern is anything that addresses can be held against: one address, one range or a set
of ranges.
-/

namespace NetRanges

/-- An address, a range or a set of ranges. -/
inductive Pattern where
  | address (a : Address)
  | range (r : Range)
  | set (s : RangeSet)

namespace Pattern

def ofItem : Item → Pattern
  | .address a => address a
  | .range r => range r

/-- The text of what the pattern is made of. -/
def text : Pattern → Text
  | address a => a.text
  | range r => r.text
  | set s => s.text

instance : ToString Pattern :=
  ⟨fun p => String.ofList p.text⟩

/-- Patterns of one kind are equal when what they are made of is equal. -/
instance : BEq Pattern where
  beq
    | address a, address b => a == b
    | range r, range s => r == s
    | set s, set t => s == t
    | _, _ => false

def holds (p : Pattern) (a : Address) (foreign : Bool) : Bool :=
  match p with
  | address b => b.agrees a foreign
  | range r => r.contains a foreign
  | set s => contains s a foreign

instance : Matcher Pattern where
  contains := holds
  containsAny p as foreign :=
    match p with
    | set s => containsAny s as foreign
    | _ => as.any fun a => p.holds a foreign

end Pattern

end NetRanges
