import NetRanges.Address.Basic

/-!
# Matchers

A matcher answers whether it holds an address. The flag `foreign` is the answer where there
is nothing of the family of the address to compare it with.
-/

namespace NetRanges

/-- What can be asked whether it holds an address. -/
class Matcher (α : Type) where
  /-- Whether an address is held. -/
  contains (m : α) (a : Address) (foreign : Bool) : Bool
  /-- Whether any of the addresses is held. -/
  containsAny (m : α) (as : List Address) (foreign : Bool) : Bool :=
    as.any fun a => contains m a foreign

export Matcher (contains containsAny)

end NetRanges
