import NetRanges.Loose.Token
import NetRanges.Proofs.Cuts

/-!
# The characters of addresses

A text that is read as an address consists of hexadecimal digits, colons and dots, whichever of
its parts are left out (`Address.isAddressChar_of_mem`), and it holds a colon or a dot
(`Address.exists_mark`). So neither a blank nor the sign of a separator stands in it, and it is
never a run of digits of whatever script.
-/

namespace NetRanges

open Loose (isAddressChar)

/-- Whether a character occurs in the text of a separator. -/
def Separator.isSign (c : Char) : Bool :=
  c == '-' || c == '>' || c == '/' || c == '–'

namespace Loose

variable {c : Char}

theorem isAddressChar_of_digit? (h : (Numeral.digit? 16 c).isSome = true) :
    isAddressChar c = true := by
  unfold isAddressChar
  rw [h]
  rfl

theorem isAddressChar_of_isDigit (h : c.isDigit = true) : isAddressChar c = true := by
  apply isAddressChar_of_digit?
  rw [← Numeral.isSome_digit?_ten, Option.isSome_iff_exists] at h
  obtain ⟨d, hd⟩ := h
  unfold Numeral.digit? at hd ⊢
  obtain ⟨hvalue, hlt⟩ := Option.filter_eq_some_iff.mp hd
  rw [hvalue, Option.filter_some, if_pos]
  · rfl
  · simp only [decide_eq_true_eq] at hlt ⊢
    omega

theorem toNat_of_isAddressChar (h : isAddressChar c = true) : 46 ≤ c.toNat ∧ c.toNat ≤ 102 := by
  simp only [isAddressChar, Bool.or_eq_true, beq_iff_eq] at h
  rcases h with (h | rfl) | rfl
  · unfold Numeral.digit? at h
    by_cases hdigit : c.isDigit = true
    · simp only [Char.isDigit, Bool.and_eq_true, decide_eq_true_eq] at hdigit
      have hlow : '0'.toNat ≤ c.toNat := hdigit.1
      have hhigh : c.toNat ≤ '9'.toNat := hdigit.2
      simp only [Char.reduceToNat] at hlow hhigh
      omega
    · rw [Bool.not_eq_true] at hdigit
      simp only [hdigit, Bool.false_eq_true, if_false] at h
      by_cases hlower : 'a' ≤ c ∧ c ≤ 'f'
      · have hlow : 'a'.toNat ≤ c.toNat := hlower.1
        have hhigh : c.toNat ≤ 'f'.toNat := hlower.2
        simp only [Char.reduceToNat] at hlow hhigh
        omega
      · by_cases hupper : 'A' ≤ c ∧ c ≤ 'F'
        · have hlow : 'A'.toNat ≤ c.toNat := hupper.1
          have hhigh : c.toNat ≤ 'F'.toNat := hupper.2
          simp only [Char.reduceToNat] at hlow hhigh
          omega
        · rw [if_neg hlower, if_neg hupper] at h
          cases h
  · decide
  · decide

theorem isBlank_of_isAddressChar (h : isAddressChar c = true) : Text.isBlank c = false := by
  have hrange := toNat_of_isAddressChar h
  cases hblank : Text.isBlank c with
  | false => rfl
  | true =>
    simp only [Text.isBlank, Text.blankIntervals, List.any_cons, List.any_nil, Bool.or_eq_true,
      Bool.and_eq_true, decide_eq_true_eq, Bool.false_eq_true, or_false] at hblank
    omega

theorem isSign_of_isAddressChar (h : isAddressChar c = true) : Separator.isSign c = false := by
  cases hsign : Separator.isSign c with
  | false => rfl
  | true =>
    simp only [Separator.isSign, Bool.or_eq_true, beq_iff_eq] at hsign
    rcases hsign with ((rfl | rfl) | rfl) | rfl <;> cases h

end Loose

/-! ## What a reader has seen -/

theorem Quad.isAddressChar_of_mem {t : Text} {n : Nat} (h : read? t = some n) {c : Char}
    (hc : c ∈ t) : isAddressChar c = true := by
  obtain ⟨-, rfl⟩ := read?_eq_some_iff.mp h
  by_cases hdot : c = '.'
  · subst hdot
    rfl
  · apply Loose.isAddressChar_of_digit?
    cases hd : Numeral.digit? 16 c with
    | none => exact absurd hc (not_mem_write hd hdot)
    | some d => rfl

theorem Quad.dot_mem_write (n : Nat) : '.' ∈ write n := by
  simp [write, Positional.digits, List.intercalate_cons_cons]

namespace Groups

variable {quadAtEnd : Bool} {t : Text} {c : Char} {gs : List Nat}

theorem isAddressChar_of_mem_group {g : Nat} (h : group? t = some g) (hc : c ∈ t) :
    isAddressChar c = true := by
  unfold group? at h
  split at h
  · exact Loose.isAddressChar_of_digit? ((Numeral.exists_read?_iff.mp ⟨g, h⟩).2 c hc)
  · cases h

theorem isAddressChar_of_mem_fields {ts : List Text} (h : fields? quadAtEnd ts = some gs)
    (ht : t ∈ ts) (hc : c ∈ t) : isAddressChar c = true := by
  fun_induction fields? quadAtEnd ts generalizing gs with
  | case1 => cases ht
  | case2 u =>
    rw [List.mem_singleton] at ht
    subst ht
    cases hg : group? t with
    | some g => exact isAddressChar_of_mem_group hg hc
    | none =>
      rw [hg] at h
      cases quadAtEnd with
      | false => cases h
      | true =>
        obtain ⟨n, hn, -⟩ := Option.map_eq_some_iff.mp h
        exact Quad.isAddressChar_of_mem hn hc
  | case3 u us _ ih =>
    obtain ⟨g, hg, h⟩ := Option.bind_eq_some_iff.mp h
    obtain ⟨gs', hgs, -⟩ := Option.bind_eq_some_iff.mp h
    rcases List.mem_cons.mp ht with rfl | ht
    · exact isAddressChar_of_mem_group hg hc
    · exact ih hgs ht

theorem isAddressChar_of_mem_list (h : list? quadAtEnd t = some gs) (hc : c ∈ t) :
    isAddressChar c = true := by
  unfold list? at h
  split at h
  · rename_i hempty
    rw [List.isEmpty_iff.mp hempty] at hc
    cases hc
  · have hjoined : List.intercalate [':'] (t.splitOn ':') = t := List.intercalate_splitOn ':'
    rw [← hjoined] at hc
    rcases Text.mem_of_mem_intercalate hc with rfl | ⟨u, hu, hcu⟩
    · rfl
    · exact isAddressChar_of_mem_fields h hu hcu

/-- A list without a colon has two groups at most. -/
theorem length_le_of_not_mem (h : list? quadAtEnd t = some gs) (hcolon : ':' ∉ t) :
    gs.length ≤ 2 := by
  unfold list? at h
  split at h
  · cases h
    exact Nat.zero_le _
  · rw [List.splitOn_eq_singleton hcolon, fields?] at h
    cases hg : group? t with
    | some g =>
      rw [hg] at h
      cases h
      exact Nat.le_succ 1
    | none =>
      rw [hg] at h
      cases quadAtEnd with
      | false => cases h
      | true =>
        obtain ⟨n, -, rfl⟩ := Option.map_eq_some_iff.mp h
        exact Nat.le_of_eq (Positional.length_digits ..)

theorem isAddressChar_of_mem (h : groups? t = some gs) (hc : c ∈ t) : isAddressChar c = true := by
  unfold groups? at h
  split at h
  · rename_i before after hcut
    obtain ⟨front, hfront, h⟩ := Option.bind_eq_some_iff.mp h
    obtain ⟨back, hback, -⟩ := Option.bind_eq_some_iff.mp h
    rw [Text.append_of_cut? hcut, List.mem_append, List.mem_append] at hc
    rcases hc with (hc | hc) | hc
    · exact isAddressChar_of_mem_list hfront hc
    · simp only [List.mem_cons, List.not_mem_nil, or_false, or_self] at hc
      subst hc
      rfl
    · exact isAddressChar_of_mem_list hback hc
  · exact isAddressChar_of_mem_list (Option.filter_eq_some_iff.mp h).1 hc

theorem colon_mem (h : groups? t = some gs) : ':' ∈ t := by
  unfold groups? at h
  split at h
  · rename_i before after hcut
    rw [Text.append_of_cut? hcut]
    simp
  · obtain ⟨hlist, hlen⟩ := Option.filter_eq_some_iff.mp h
    rw [beq_iff_eq] at hlen
    by_cases hcolon : ':' ∈ t
    · exact hcolon
    · have hle := length_le_of_not_mem hlist hcolon
      omega

end Groups

namespace Address

variable {t : Text} {a : Address} {c : Char}

theorem ofText?_cases (h : ofText? t = some a) :
    (∃ n, Quad.read? t = some n) ∨ ∃ gs, Groups.groups? t = some gs := by
  unfold ofText? at h
  cases hquad : Quad.read? t with
  | some n => exact Or.inl ⟨n, rfl⟩
  | none =>
    rw [hquad] at h
    obtain ⟨n, hn, -⟩ := Option.map_eq_some_iff.mp h
    obtain ⟨gs, hgs, -⟩ := Option.map_eq_some_iff.mp hn
    exact Or.inr ⟨gs, hgs⟩

theorem isAddressChar_of_mem (h : ofText? t = some a) (hc : c ∈ t) : isAddressChar c = true := by
  rcases ofText?_cases h with ⟨n, hn⟩ | ⟨gs, hgs⟩
  · exact Quad.isAddressChar_of_mem hn hc
  · exact Groups.isAddressChar_of_mem hgs hc

/-- The text of an address is told from a numeral by a dot or a colon. -/
theorem exists_mark (h : ofText? t = some a) : '.' ∈ t ∨ ':' ∈ t := by
  rcases ofText?_cases h with ⟨n, hn⟩ | ⟨gs, hgs⟩
  · rw [(Quad.read?_eq_some_iff.mp hn).2]
    exact Or.inl (Quad.dot_mem_write n)
  · exact Or.inr (Groups.colon_mem hgs)

/-- The text of an address is no run of a class without dot and colon. -/
theorem all_eq_false {isMember : Char → Bool} (h : ofText? t = some a)
    (hdot : isMember '.' = false) (hcolon : isMember ':' = false) : t.all isMember = false := by
  rw [List.all_eq_false]
  rcases exists_mark h with hc | hc
  · exact ⟨_, hc, by rw [hdot]; exact Bool.false_ne_true⟩
  · exact ⟨_, hc, by rw [hcolon]; exact Bool.false_ne_true⟩

theorem isDecimal_eq_false (h : ofText? t = some a) : Numeral.isDecimal t = false := by
  unfold Numeral.isDecimal
  rw [all_eq_false h (by decide) (by decide), Bool.and_false]

theorem ne_nil_of_ofText? (h : ofText? t = some a) : t ≠ [] := by
  rintro rfl
  rcases exists_mark h with hc | hc <;> cases hc

end Address

end NetRanges
