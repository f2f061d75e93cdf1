import NetRanges.Bounded
import NetRanges.Proofs.Grammar

/-!
# Closures of bounded ranges

The bounds of an accepted bounded range are met by the values from `least` up to, but without,
`limit` (`Bounded.contains_iff`), and `limit` never goes beyond the family (`limit_le_size`). So the
closure is missing exactly where no address is left, and otherwise has the same addresses, also if
it is computed in numbers that have a largest one (`closure?_exact`). Two closed bounds stay in the
order in which they are given, unlike the ends of a range, so they have the addresses of that range
only if they are in order (`closed_agrees_iff`).
-/

namespace NetRanges

theorem Range.contains_of_family_ne {r : Range} {a : Address} (foreign : Bool)
    (h : a.family ≠ r.family) : r.contains a foreign = foreign :=
  if_neg h

namespace Bounded

variable {b b' : Bounded} {r : Range} {a l u : Address} {v : Nat}

/-! ## The values between the bounds -/

theorem eq_of_check (h : b.check = .ok b') : b' = b := by
  unfold check at h
  split at h
  · cases h
  · split at h
    · cases h
      rfl
    · cases h
  · cases h
    rfl

/-- The check keeps the upper bound within the family of the lower one. -/
theorem family_of_upper (h : b.check = .ok b') (hu : b.upper = some u) : b.family = u.family := by
  obtain ⟨lower, upper, lowerOpen, upperOpen⟩ := b
  subst hu
  cases lower with
  | none => rfl
  | some l =>
    unfold check at h
    by_cases hlu : l.family = u.family
    · exact hlu
    · simp only [if_neg hlu] at h
      cases h

theorem limit_le_size (h : b.check = .ok b') : b.limit ≤ b.family.size := by
  unfold limit
  split
  · exact Nat.le_refl _
  · rename_i u hu
    have hlt := u.value_lt
    rw [← family_of_upper h hu] at hlt
    split
    · exact Nat.le_of_lt hlt
    · exact hlt

theorem meetsLower_iff : b.meetsLower v = true ↔ b.least ≤ v := by
  unfold meetsLower least
  cases b.lower with
  | none => simp
  | some l =>
    cases b.lowerOpen with
    | false => exact decide_eq_true_iff
    | true => exact decide_eq_true_iff

theorem meetsUpper_iff (hv : v < b.family.size) : b.meetsUpper v = true ↔ v < b.limit := by
  unfold meetsUpper limit
  cases b.upper with
  | none => simpa using hv
  | some u =>
    cases b.upperOpen with
    | false => exact decide_eq_true_iff.trans Nat.lt_succ_iff.symm
    | true => exact decide_eq_true_iff

theorem contains_of_family_ne (foreign : Bool) (h : a.family ≠ b.family) :
    contains b a foreign = foreign :=
  if_neg h

/-- An address of the family lies between the bounds if its value goes from `least` to below
`limit`. -/
theorem contains_iff (foreign : Bool) (h : a.family = b.family) :
    contains b a foreign = true ↔ b.least ≤ a.value ∧ a.value < b.limit := by
  have hcontains : contains b a foreign = (b.meetsLower a.value && b.meetsUpper a.value) := if_pos h
  rw [hcontains, Bool.and_eq_true, meetsLower_iff, meetsUpper_iff (h ▸ a.value_lt)]

/-! ## The values of the closure -/

theorem closure?_eq_none_iff : b.closure? = none ↔ b.limit ≤ b.least := by
  unfold closure?
  split
  · rename_i hlt
    exact iff_of_false nofun (Nat.not_le_of_lt hlt)
  · rename_i hge
    exact iff_of_true rfl (Nat.le_of_not_lt hge)

/-- Nothing is cut off the values when the closure is made. -/
theorem extent_of_closure? (hcheck : b.check = .ok b') (h : b.closure? = some r) :
    b.least < b.limit ∧ r.family = b.family ∧ r.toExtent = ⟨b.least, b.limit - 1⟩ := by
  unfold closure? at h
  obtain ⟨hlt, rfl⟩ := Option.ite_some_none_eq_some.mp h
  have hlimit := limit_le_size hcheck
  exact ⟨hlt, rfl, Range.toExtent_spanning (by omega) (by omega)⟩

/-- The closure is missing exactly where no address of the family lies between the bounds. -/
theorem closure?_eq_none_iff_forall (hcheck : b.check = .ok b') :
    b.closure? = none ↔ ∀ a : Address, a.family = b.family → contains b a false = false := by
  rw [closure?_eq_none_iff]
  constructor
  · intro hle a hfam
    rw [← Bool.not_eq_true, contains_iff false hfam]
    omega
  · intro hnone
    refine Nat.le_of_not_lt fun hlt => ?_
    -- The least value is then the value of an address between the bounds.
    have hsize : b.least < b.family.size := Nat.lt_of_lt_of_le hlt (limit_le_size hcheck)
    have hvalue := Address.value_ofNat hsize
    have hmem : contains b (.ofNat b.family b.least) false = true :=
      (contains_iff false rfl).mpr (by omega)
    rw [hnone _ rfl] at hmem
    cases hmem

/-- The closure answers as the bounds do, also for addresses of the other family. -/
theorem contains_closure? (hcheck : b.check = .ok b') (h : b.closure? = some r) (a : Address)
    (foreign : Bool) : r.contains a foreign = contains b a foreign := by
  obtain ⟨hlt, hfam, hext⟩ := extent_of_closure? hcheck h
  by_cases ha : a.family = b.family
  · have hcontains : r.contains a foreign = decide (a.value ∈ r.toExtent) :=
      if_pos (ha.trans hfam.symm)
    rw [Bool.eq_iff_iff, contains_iff foreign ha, hcontains, decide_eq_true_iff, hext,
      Extent.mem_iff]
    show b.least ≤ a.value ∧ a.value ≤ b.limit - 1 ↔ _
    omega
  · rw [contains_of_family_ne foreign ha, Range.contains_of_family_ne foreign (hfam ▸ ha)]

theorem check_ofRange (r : Range) : (ofRange r).check = .ok (ofRange r) :=
  if_pos rfl

/-- Closed bounds in order have the range between them as their closure. -/
theorem closure?_closed (h : l.value ≤ u.value) :
    closure? { lower := some l, upper := some u } = some (.spanning l.family l.value u.value) :=
  if_pos (Nat.lt_succ_of_le h)

theorem closure?_ofRange (r : Range) : (ofRange r).closure? = some r :=
  (closure?_closed r.first_le_last).trans (congrArg some r.spanning_ends)

/-! ## In numbers with an upper limit -/

/-- The least value that meets the lower bound, if it is a number within the limit of counts. -/
def first? (b : Bounded) : Option Nat :=
  match b.lower with
  | none => some 0
  | some l =>
    if b.lowerOpen then if l.value < countLimit then some (l.value + 1) else none
    else some l.value

/-- The largest value of the family that meets the upper bound, if there is a number below it. -/
def last? (b : Bounded) : Option Nat :=
  match b.upper with
  | none => some b.family.top
  | some u =>
    if b.upperOpen then if 0 < u.value then some (u.value - 1) else none
    else some u.value

/-- The closure that never works on a number above the limit of counts or below zero, and that cuts
off what does not fit the family only after the two ends have been compared. -/
def checkedClosure? (b : Bounded) : Option Range :=
  b.first?.bind fun m => b.last?.bind fun n =>
    if n < m then none
    else (Range.between (.ofNat b.family m) (.ofNat b.family n)).toOption

theorem size_le (f : Family) : f.size ≤ countLimit + 1 := by
  cases f <;> decide

theorem first?_cases (b : Bounded) :
    b.first? = some b.least ∨ b.first? = none ∧ countLimit < b.least := by
  unfold first? least
  cases b.lower with
  | none => exact .inl rfl
  | some l =>
    cases b.lowerOpen with
    | false => exact .inl rfl
    | true =>
      by_cases hlt : l.value < countLimit
      · exact .inl (if_pos hlt)
      · exact .inr ⟨if_neg hlt, by simpa using Nat.lt_succ_of_le (Nat.le_of_not_lt hlt)⟩

theorem last?_cases (b : Bounded) :
    (∃ n, b.last? = some n ∧ b.limit = n + 1) ∨ b.last? = none ∧ b.limit = 0 := by
  unfold last? limit
  cases b.upper with
  | none => exact .inl ⟨_, rfl, (Nat.sub_add_cancel b.family.size_pos).symm⟩
  | some u =>
    cases b.upperOpen with
    | false => exact .inl ⟨_, rfl, rfl⟩
    | true =>
      by_cases hpos : 0 < u.value
      · exact .inl ⟨_, if_pos hpos, (Nat.sub_add_cancel hpos).symm⟩
      · exact .inr ⟨if_neg hpos, Nat.eq_zero_of_not_pos hpos⟩

theorem between_ofNat {f : Family} {m n : Nat} (hm : m < f.size) (hn : n < f.size) :
    Range.between (.ofNat f m) (.ofNat f n) = .ok (.spanning f m n) := by
  have hfam : (Address.ofNat f m).family = (Address.ofNat f n).family := rfl
  unfold Range.between
  rw [if_pos hfam, Address.value_ofNat hm, Address.value_ofNat hn]
  rfl

/-- Where a bound has no neighbour among the numbers, no address lies between the bounds. The two
ends are the values of addresses, since they are made into addresses only where they are in
order. -/
theorem checkedClosure?_eq (h : b.check = .ok b') : b.checkedClosure? = b.closure? := by
  have hlimit := limit_le_size h
  have hsize := size_le b.family
  have hnone (hle : b.limit ≤ b.least) : b.closure? = none := closure?_eq_none_iff.mpr hle
  unfold checkedClosure?
  rcases b.first?_cases with hfirst | ⟨hfirst, hleast⟩
  · rcases b.last?_cases with ⟨n, hlast, hn⟩ | ⟨hlast, hzero⟩
    · rw [hfirst, hlast, Option.bind_some, Option.bind_some]
      by_cases hlt : n < b.least
      · rw [if_pos hlt, hnone (by omega)]
      · have hopen : b.least < b.limit := by omega
        rw [if_neg hlt, between_ofNat (by omega) (by omega), closure?, if_pos hopen, hn]
        rfl
    · rw [hfirst, hlast, Option.bind_some, Option.bind_none, hnone (by omega)]
  · rw [hfirst, Option.bind_none, hnone (by omega)]

/-! ## Closures -/

/-- **Closures.** An accepted bounded range has the same closure in checked numbers. It has none
exactly when no address of its family lies between its bounds; the closure it has is of its family
and gives the same answers. A range that is taken as bounds is its own closure. -/
theorem closure?_exact (b : Bounded) (r : Range) :
    (∀ b', b.check = .ok b' →
      b'.checkedClosure? = b'.closure? ∧
      (b'.closure? = none ↔
        ∀ a : Address, a.family = b'.family → contains b' a false = false) ∧
      ∀ s, b'.closure? = some s → s.family = b'.family ∧
        ∀ a foreign, s.contains a foreign = contains b' a foreign) ∧
    (ofRange r).check = .ok (ofRange r) ∧ (ofRange r).closure? = some r := by
  refine ⟨fun b' hcheck => ?_, check_ofRange r, closure?_ofRange r⟩
  obtain rfl := eq_of_check hcheck
  refine ⟨checkedClosure?_eq hcheck, closure?_eq_none_iff_forall hcheck, fun s hs => ?_⟩
  exact ⟨(extent_of_closure? hcheck hs).2.1, contains_closure? hcheck hs⟩

/-- Above the second largest address only the largest one is left. -/
theorem closure?_exact_of_second_largest :
    let b : Bounded := { lower := some (.ofNat .v4 0xFFFFFFFE), lowerOpen := true }
    b.check = .ok b ∧ b.closure? = some (.single (.ofNat .v4 0xFFFFFFFF)) ∧
      b.checkedClosure? = some (.single (.ofNat .v4 0xFFFFFFFF)) ∧
      ∀ a foreign, (Range.single (.ofNat .v4 0xFFFFFFFF)).contains a foreign =
        contains b a foreign := by
  intro b
  have hcheck : b.check = .ok b := rfl
  have hclosure : b.closure? = some (.single (.ofNat .v4 0xFFFFFFFF)) := by decide
  obtain ⟨hsame, -, hanswers⟩ := (closure?_exact b (.single (.ofNat .v4 0))).1 b hcheck
  exact ⟨hcheck, hclosure, hsame.trans hclosure, (hanswers _ hclosure).2⟩

/-! ## Closed bounds -/

theorem closed_eq_ok (h : l.family = u.family) :
    closed l u = .ok { lower := some l, upper := some u } :=
  if_pos h

theorem closed_eq_error (h : l.family ≠ u.family) :
    closed l u = .error (.familyMismatch l u) :=
  if_neg h

theorem contains_closed_iff (foreign : Bool) (h : a.family = l.family) :
    contains ({ lower := some l, upper := some u } : Bounded) a foreign = true ↔
      l.value ≤ a.value ∧ a.value ≤ u.value := by
  rw [contains_iff foreign h]
  exact and_congr_right fun _ => Nat.lt_succ_iff

theorem contains_reversed (h : u.value < l.value) (a : Address) (foreign : Bool) :
    contains ({ lower := some l, upper := some u } : Bounded) a foreign =
      if a.family = l.family then false else foreign := by
  by_cases hfam : a.family = l.family
  · rw [if_pos hfam, ← Bool.not_eq_true, contains_closed_iff foreign hfam]
    omega
  · rw [if_neg hfam]
    exact contains_of_family_ne foreign hfam

/-- **Closed bounds and ranges.** Two addresses of one family are accepted as closed bounds and as
ends of a range, and two of different families are refused as both for the same reason. The bounds
give the answers of the range exactly when they are given in order; a range exchanges its ends,
while bounds in reverse order have no address of their family between them. -/
theorem closed_agrees_iff (l u : Address) :
    (l.family = u.family → ∃ b r, closed l u = .ok b ∧ Range.between l u = .ok r ∧
      ((∀ a foreign, contains b a foreign = r.contains a foreign) ↔ l.value ≤ u.value) ∧
      (u.value < l.value → ∀ a foreign,
        contains b a foreign = if a.family = l.family then false else foreign)) ∧
      (l.family ≠ u.family → closed l u = .error (.familyMismatch l u) ∧
        Range.between l u = .error (.familyMismatch l u)) := by
  refine ⟨fun hfam => ?_, fun hfam => ⟨closed_eq_error hfam, if_neg hfam⟩⟩
  refine ⟨_, _, closed_eq_ok hfam, if_pos hfam, ⟨fun hagree => ?_, ?_⟩, contains_reversed⟩
  · refine Nat.le_of_not_lt fun hlt => ?_
    -- The range has its ends, and the lower bound is one of them.
    have hspans := Range.spans_spanning hfam
    have hmem : (Range.spanning l.family l.value u.value).contains l false = true := by
      refine Range.contains_iff.mpr ⟨rfl, ?_, ?_⟩
      · rw [hspans.first_eq]
        exact Nat.min_le_left ..
      · rw [hspans.last_eq]
        exact Nat.le_max_left ..
    rw [← hagree, contains_reversed hlt, if_pos rfl] at hmem
    cases hmem
  · exact fun hle a foreign =>
      (contains_closure? (closed_eq_ok hfam) (closure?_closed hle) a foreign).symm

/-- The bounds ten and two have nothing between them, the range of these ends has five. -/
theorem closed_ten_two : ∃ b r,
    closed (.ofNat .v4 10) (.ofNat .v4 2) = .ok b ∧
      Range.between (.ofNat .v4 10) (.ofNat .v4 2) = .ok r ∧
      contains b (.ofNat .v4 5) false = false ∧ r.contains (.ofNat .v4 5) false = true :=
  ⟨_, _, rfl, rfl, by decide, by decide⟩

end Bounded

end NetRanges
