/-!
# Address families

The two families of internet addresses. A family fixes the width of its addresses, and
with it how many addresses there are. Values below are natural numbers under `size`.
-/

namespace NetRanges

/-- The two families of addresses, the shorter one first. -/
inductive Family where
  | v4
  | v6
deriving DecidableEq, Repr, Inhabited

namespace Family

def bits : Family → Nat
  | v4 => 32
  | v6 => 128

def bytes : Family → Nat
  | v4 => 4
  | v6 => 16

def size (f : Family) : Nat :=
  Nat.pow 2 f.bits

/-- The largest value of an address of the family. -/
def top (f : Family) : Nat :=
  f.size - 1

/-- The number a family is known by. -/
def version : Family → Nat
  | v4 => 4
  | v6 => 6

theorem size_pos (f : Family) : 0 < f.size :=
  Nat.two_pow_pos _

theorem size_eq_pow_bytes (f : Family) : f.size = Nat.pow 256 f.bytes := by
  cases f <;> decide

theorem lt_size_iff {f : Family} {n : Nat} : n < f.size ↔ n ≤ f.top :=
  Nat.lt_iff_le_pred f.size_pos

end Family

/-- One value for each family. -/
structure ByFamily (α : Type) where
  v4 : α
  v6 : α
deriving DecidableEq, Repr

namespace ByFamily

variable {α β : Type}

def get (p : ByFamily α) : Family → α
  | .v4 => p.v4
  | .v6 => p.v6

/-- The pair whose values a function of the family gives. -/
def ofFn (f : Family → α) : ByFamily α :=
  ⟨f .v4, f .v6⟩

@[simp] theorem get_ofFn (f : Family → α) (family : Family) : (ofFn f).get family = f family := by
  cases family <;> rfl

theorem ext_get {p q : ByFamily α} (h : ∀ family, p.get family = q.get family) : p = q := by
  cases p; cases q
  exact congr (congrArg ByFamily.mk (h .v4)) (h .v6)

end ByFamily

end NetRanges
