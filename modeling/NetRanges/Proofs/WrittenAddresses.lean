import NetRanges.Address.Text
import NetRanges.Proofs.Cuts

/-!
# A written address reads back

Every text that is written for an address is read as that address. For groups this rests
on two facts: the left-out run really is a run of zeros, and the two colons in its place
are the first ones in the text. A text is read as a dotted quad only if it is written for
one, so what is written in groups is never taken for a quad.
-/

namespace NetRanges

namespace Groups

open Positional

theorem digit?_colon : Numeral.digit? 16 ':' = none := by
  decide

theorem group?_write {g : Nat} (h : g < base) : group? (Numeral.write 16 g) = some g := by
  have hlen : (Numeral.write 16 g).length ≤ 4 :=
    (Nat.length_toDigits_le_iff (by decide) (by decide)).mpr h
  rw [group?, if_pos hlen, Numeral.read?_write (by decide) (by decide)]

theorem fields?_map_write (quadAtEnd : Bool) {gs : List Nat} (h : ∀ g ∈ gs, g < base) :
    fields? quadAtEnd (gs.map (Numeral.write 16)) = some gs := by
  induction gs with
  | nil => rfl
  | cons g gs ih =>
    have hg := group?_write (h g (by simp))
    cases gs with
    | nil => simp [fields?, hg]
    | cons g' gs =>
      simp only [List.map_cons] at ih ⊢
      rw [fields?, hg, ih fun x hx => h x (List.mem_cons_of_mem _ hx)]
      · rfl
      · simp

/-- The texts between the colons hold none and are not empty. -/
theorem joined_fields {gs : List Nat} :
    ∀ t ∈ gs.map (Numeral.write 16), ':' ∉ t ∧ t ≠ [] := by
  intro t ht
  obtain ⟨g, -, rfl⟩ := List.mem_map.mp ht
  exact ⟨Numeral.not_mem_write (by decide) (by decide) digit?_colon, Numeral.write_ne_nil _ _⟩

theorem list?_joined (quadAtEnd : Bool) {gs : List Nat} (h : ∀ g ∈ gs, g < base) :
    list? quadAtEnd (joined gs) = some gs := by
  cases gs with
  | nil => rfl
  | cons g gs =>
    have hne : (g :: gs).map (Numeral.write 16) ≠ [] := by simp
    have hsplit := List.splitOn_intercalate ':' (fun t ht => (joined_fields t ht).1) hne
    have hempty : (joined (g :: gs)).isEmpty = false := by
      cases hj : joined (g :: gs) with
      | nil =>
        rw [← joined, hj] at hsplit
        have hmem : [] ∈ (g :: gs).map (Numeral.write 16) := by rw [← hsplit]; simp
        exact absurd rfl (joined_fields [] hmem).2
      | cons c t => rfl
    rw [list?, hempty, if_neg (by simp), joined, hsplit, fields?_map_write quadAtEnd h]

/-! ## The left-out run -/

theorem eq_replicate_append_drop (gs : List Nat) :
    gs = List.replicate (zerosAtStart gs) 0 ++ gs.drop (zerosAtStart gs) := by
  induction gs with
  | nil => rfl
  | cons g gs ih =>
    by_cases hg : g = 0
    · subst hg
      have hz : zerosAtStart (0 :: gs) = zerosAtStart gs + 1 := by simp [zerosAtStart]
      rw [hz, List.replicate_succ, List.cons_append, List.drop_succ_cons, ← ih]
    · have hz : zerosAtStart (g :: gs) = 0 := by simp [zerosAtStart, hg]
      simp [hz]

/-- The first longest run of zeros consists of zeros. -/
theorem eq_append_longestZeros (gs : List Nat) :
    gs = gs.take (longestZeros gs).1 ++ List.replicate (longestZeros gs).2 0 ++
      gs.drop ((longestZeros gs).1 + (longestZeros gs).2) := by
  induction gs with
  | nil => rfl
  | cons g gs ih =>
    rw [longestZeros]
    simp only
    split
    · simpa using eq_replicate_append_drop (g :: gs)
    · simp only [List.take_succ_cons, List.cons_append, List.cons.injEq, true_and,
        Nat.add_right_comm _ 1, List.drop_succ_cons]
      exact ih

theorem groups?_compressed {gs : List Nat} (hlen : gs.length = 8) (h : ∀ g ∈ gs, g < base) :
    groups? (compressed gs) = some gs := by
  rw [compressed]
  simp only
  split
  · have hcut : Text.cut? [':', ':'] (joined gs) = none := by
      have hpair : Text.holds [':', ':'] (joined gs) = false :=
        Text.holds_pair_joined joined_fields
      rwa [Text.holds, Option.isSome_eq_false_iff, Option.isNone_iff_eq_none] at hpair
    rw [groups?, hcut, list?_joined true h]
    simp [hlen]
  · rename_i hlong
    have hparts := eq_append_longestZeros gs
    have hcount := congrArg List.length hparts
    simp only [List.length_append, List.length_replicate, List.length_take, List.length_drop,
      hlen] at hcount
    have hcut : ∀ after, Text.cut? [':', ':']
        (joined (gs.take (longestZeros gs).1) ++ [':', ':'] ++ after) =
          some (joined (gs.take (longestZeros gs).1), after) :=
      Text.cut?_pair (Text.holds_pair_joined joined_fields) (Text.getLast?_joined_ne joined_fields)
    rw [groups?, hcut]
    simp only
    rw [list?_joined false fun g hg => h g (List.mem_of_mem_take hg),
      list?_joined true fun g hg => h g (List.mem_of_mem_drop hg)]
    simp only [Option.bind_eq_bind, Option.bind_some, List.length_take, List.length_drop, hlen]
    have hzeros : 8 - (min (longestZeros gs).1 8 +
        (8 - ((longestZeros gs).1 + (longestZeros gs).2))) = (longestZeros gs).2 := by
      omega
    rw [if_pos (by omega), hzeros, ← hparts]

/-! ## Whole addresses -/

theorem embedded?_eq_some {n low : Nat} (h : embedded? n = some low) :
    n = (base - 1) * base.pow 2 + low ∧ low < base.pow 2 := by
  rw [embedded?] at h
  split at h
  · rename_i hhigh
    cases h
    refine ⟨?_, Nat.mod_lt _ (by decide)⟩
    rw [← hhigh, Nat.mul_comm, Nat.div_add_mod]
  · cases h

theorem groups?_embedded {low : Nat} (h : low < base.pow 2) :
    groups? ("::ffff:".toList ++ Quad.write low) =
      some (List.replicate 5 0 ++ [base - 1] ++ digits base 2 low) := by
  have hcolon : ':' ∉ Quad.write low := Quad.not_mem_write digit?_colon (by decide)
  have hlong : group? (Quad.write low) = none := by
    rw [group?, if_neg (Nat.not_le.mpr (Quad.four_lt_length_write low))]
  have hquad : quad? (Quad.write low) = some (digits base 2 low) := by
    rw [quad?, Quad.read?_write h, Option.map_some]
  have hones : group? ['f', 'f', 'f', 'f'] = some (base - 1) := by decide
  have hsplit : ("ffff".toList ++ ':' :: Quad.write low).splitOn ':' =
      ["ffff".toList, Quad.write low] := by
    rw [List.splitOn_append_cons_self, List.splitOn_eq_singleton (by decide),
      List.splitOn_eq_singleton hcolon]
    rfl
  have hback : list? true ("ffff".toList ++ ':' :: Quad.write low) =
      some ((base - 1) :: digits base 2 low) := by
    rw [list?, if_neg (by simp), hsplit]
    simp [fields?, hones, hlong, hquad]
  have hempty : Text.holds [':', ':'] [] = false := rfl
  have hcut : Text.cut? [':', ':'] ("::ffff:".toList ++ Quad.write low) =
      some ([], "ffff".toList ++ ':' :: Quad.write low) :=
    Text.cut?_pair hempty nofun ("ffff".toList ++ ':' :: Quad.write low)
  rw [groups?, hcut]
  simp only [hback]
  simp [list?, base, digits]

theorem read?_write {n : Nat} (h : n < base.pow 8) : read? (write n) = some n := by
  rw [read?, write]
  split
  · rename_i low hlow
    obtain ⟨rfl, hlt⟩ := embedded?_eq_some hlow
    rw [groups?_embedded hlt, Option.map_some]
    have hdigits : ofDigits base (digits base 2 low) = low := ofDigits_digits (by simpa [base])
    simp only [List.replicate, List.cons_append, List.nil_append, ofDigits_cons, hdigits]
    simp [base]
  · have hlt : ∀ g ∈ digits base 8 n, g < base := fun g hg => lt_of_mem_digits (by decide) hg
    rw [groups?_compressed (length_digits ..) hlt, Option.map_some, ofDigits_digits (by simpa [base])]

theorem colon_mem_write (n : Nat) : ':' ∈ write n := by
  rw [write]
  split
  · simp
  · rw [compressed]
    simp only
    split
    · simp [joined, digits, List.intercalate_cons_cons]
    · simp

/-- What is written in groups is no dotted quad. -/
theorem quad_read?_write (n : Nat) : Quad.read? (write n) = none := by
  cases h : Quad.read? (write n) with
  | none => rfl
  | some m =>
    have hcolon := colon_mem_write n
    rw [(Quad.read?_eq_some_iff.mp h).2] at hcolon
    exact absurd hcolon (Quad.not_mem_write digit?_colon (by decide))

end Groups

namespace Address

/-- The text of an address is read as that address. -/
theorem ofText?_text (a : Address) : ofText? a.text = some a := by
  obtain ⟨f, v, hv⟩ := a
  cases f with
  | v4 => simp [ofText?, text, Quad.read?_write hv, ofNat, Nat.mod_eq_of_lt hv]
  | v6 =>
    simp [ofText?, text, Groups.quad_read?_write, Groups.read?_write hv, ofNat,
      Nat.mod_eq_of_lt hv]

end Address

end NetRanges
