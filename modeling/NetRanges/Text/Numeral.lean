import NetRanges.Number.Positional
import NetRanges.Text.Blank

/-!
# Numerals in text

`read? b` reads a non-empty run of ASCII digits of base `b`, at most sixteen, in either
case and with any number of leading zeros. `write b` writes the shortest numeral in lower
case. A written numeral reads back as the number it was written for. Digits of other scripts
than ASCII can be told apart, but no numeral is read from them.
-/

namespace NetRanges.Numeral

/-- The value of an ASCII digit in base `b`, letters in either case. -/
def digit? (b : Nat) (c : Char) : Option Nat :=
  let value :=
    if c.isDigit then some (c.toNat - '0'.toNat)
    else if 'a' ≤ c ∧ c ≤ 'f' then some (c.toNat - 'a'.toNat + 10)
    else if 'A' ≤ c ∧ c ≤ 'F' then some (c.toNat - 'A'.toNat + 10)
    else none
  value.filter (· < b)

/-- Whether a text is a non-empty run of the digits `0` to `9`. -/
def isDecimal (t : Text) : Bool :=
  !t.isEmpty && t.all Char.isDigit

/-- The code points of the zeros of all scripts. Unicode gives a script its ten decimal digits in
a row, with the property Nd. -/
def scriptZeros : List Nat :=
  [0x0030, 0x0660, 0x06F0, 0x07C0, 0x0966, 0x09E6, 0x0A66, 0x0AE6, 0x0B66, 0x0BE6, 0x0C66, 0x0CE6,
   0x0D66, 0x0DE6, 0x0E50, 0x0ED0, 0x0F20, 0x1040, 0x1090, 0x17E0, 0x1810, 0x1946, 0x19D0, 0x1A80,
   0x1A90, 0x1B50, 0x1BB0, 0x1C40, 0x1C50, 0xA620, 0xA8D0, 0xA900, 0xA9D0, 0xA9F0, 0xAA50, 0xABF0,
   0xFF10, 0x104A0, 0x10D30, 0x10D40, 0x11066, 0x110F0, 0x11136, 0x111D0, 0x112F0, 0x11450,
   0x114D0, 0x11650, 0x116C0, 0x116D0, 0x116DA, 0x11730, 0x118E0, 0x11950, 0x11BF0, 0x11C50,
   0x11D50, 0x11DA0, 0x11F50, 0x16130, 0x16A60, 0x16AC0, 0x16B50, 0x16D70, 0x1CCF0, 0x1D7CE,
   0x1D7D8, 0x1D7E2, 0x1D7EC, 0x1D7F6, 0x1E140, 0x1E2F0, 0x1E4F0, 0x1E5F1, 0x1E950, 0x1FBF0]

/-- Whether a character is a decimal digit of any script. -/
def isScriptDigit (c : Char) : Bool :=
  scriptZeros.any fun first => first ≤ c.toNat && c.toNat < first + 10

/-- The number written by a non-empty run of digits in base `b`. -/
def read? (b : Nat) (t : Text) : Option Nat :=
  if t.isEmpty then none else (t.mapM (digit? b)).map (Positional.ofDigits b)

/-- The shortest numeral of `n` in base `b`, in lower case. -/
def write (b n : Nat) : Text :=
  Nat.toDigits b n

/-- The decimal numeral of an integer, with a minus sign where it is negative. -/
def writeInt (n : Int) : Text :=
  if n < 0 then '-' :: write 10 n.natAbs else write 10 n.natAbs

/-! ## A written numeral reads back -/

theorem digit?_digitChar {b d : Nat} (hb : b ≤ 16) (hd : d < b) :
    digit? b (Nat.digitChar d) = some d := by
  have h16 : ∀ d : Fin 16, digit? 16 (Nat.digitChar d) = some d.val := by decide
  have h := h16 ⟨d, Nat.lt_of_lt_of_le hd hb⟩
  rw [digit?, Option.filter_eq_some_iff] at h ⊢
  exact ⟨h.1, by simpa using hd⟩

theorem write_ne_nil (b n : Nat) : write b n ≠ [] :=
  Nat.toDigits_ne_nil

theorem exists_mapM_digit?_write {b : Nat} (h2 : 2 ≤ b) (h16 : b ≤ 16) (n : Nat) :
    ∃ ds, (write b n).mapM (digit? b) = some ds ∧ Positional.ofDigits b ds = n := by
  induction n using Nat.strongRecOn with
  | ind n ih =>
    by_cases hn : n < b
    · refine ⟨[n], ?_, by simp [Positional.ofDigits]⟩
      simp [write, Nat.toDigits_of_lt_base hn, digit?_digitChar h16 hn]
    · obtain ⟨ds, hds, hval⟩ := ih (n / b) (Nat.div_lt_self (by omega) h2)
      refine ⟨ds ++ [n % b], ?_, ?_⟩
      · rw [write, Nat.toDigits_of_base_le h2 (by omega), List.mapM_append]
        simp only [write] at hds
        simp [hds, digit?_digitChar h16 (Nat.mod_lt n (by omega))]
      · rw [Positional.ofDigits_append_singleton, hval, Nat.div_add_mod]

theorem read?_write {b : Nat} (h2 : 2 ≤ b) (h16 : b ≤ 16) (n : Nat) :
    read? b (write b n) = some n := by
  obtain ⟨ds, hds, hval⟩ := exists_mapM_digit?_write h2 h16 n
  simp [read?, write_ne_nil, hds, hval]

/-! ## The characters of a written numeral -/

/-- A numeral is written with the characters of digits. -/
theorem exists_digitChar_of_mem_write {b n : Nat} {c : Char} (hb : 2 ≤ b) (h : c ∈ write b n) :
    ∃ d < b, c = Nat.digitChar d := by
  induction n using Nat.strongRecOn with
  | ind n ih =>
    by_cases hn : n < b
    · rw [write, Nat.toDigits_of_lt_base hn, List.mem_singleton] at h
      exact ⟨n, hn, h⟩
    · rw [write, Nat.toDigits_of_base_le hb (by omega), List.mem_append, List.mem_singleton] at h
      rcases h with h | h
      · exact ih (n / b) (Nat.div_lt_self (by omega) hb) h
      · exact ⟨n % b, Nat.mod_lt _ (by omega), h⟩

/-- A numeral of base at most sixteen holds no character that is no digit. -/
theorem not_mem_write {b n : Nat} {c : Char} (h2 : 2 ≤ b) (h16 : b ≤ 16)
    (hc : digit? 16 c = none) : c ∉ write b n := by
  intro h
  obtain ⟨d, hd, rfl⟩ := exists_digitChar_of_mem_write h2 h
  rw [digit?_digitChar (Nat.le_refl _) (Nat.lt_of_lt_of_le hd h16)] at hc
  cases hc

/-! ## What can be read -/

theorem exists_mapM_digit?_iff {b : Nat} {t : Text} :
    (∃ ds, t.mapM (digit? b) = some ds) ↔ ∀ c ∈ t, (digit? b c).isSome = true := by
  induction t with
  | nil => simp
  | cons c t ih =>
    rw [List.forall_mem_cons, ← ih, List.mapM_cons]
    cases digit? b c with
    | none => simp
    | some d =>
      cases t.mapM (digit? b) with
      | none => simp
      | some ds => simp

/-- A text is read as a numeral when it is not empty and all its characters are digits. -/
theorem exists_read?_iff {b : Nat} {t : Text} :
    (∃ n, read? b t = some n) ↔ t ≠ [] ∧ ∀ c ∈ t, (digit? b c).isSome = true := by
  rw [← exists_mapM_digit?_iff]
  cases t with
  | nil => simp [read?]
  | cons c t =>
    have hne : (c :: t).isEmpty = false := rfl
    rw [read?, hne, if_neg Bool.false_ne_true, ← Option.isSome_iff_exists, Option.isSome_map,
      Option.isSome_iff_exists]
    exact (and_iff_right (List.cons_ne_nil c t)).symm

theorem isSome_digit?_ten (c : Char) : (digit? 10 c).isSome = c.isDigit := by
  unfold digit?
  by_cases h : c.isDigit = true
  · have hdigit := h
    simp only [Char.isDigit, Bool.and_eq_true, decide_eq_true_eq] at hdigit
    have hlt : c.toNat - '0'.toNat < 10 := by
      have hle : c.toNat ≤ '9'.toNat := hdigit.2
      simp only [Char.reduceToNat] at hle ⊢
      omega
    simp only [Option.filter_some, hlt, decide_true, if_true, Option.isSome_some, h]
  · rw [Bool.not_eq_true] at h
    simp only [h, Bool.false_eq_true, if_false]
    split
    · simp
    · split
      · simp
      · simp

theorem isDecimal_iff {t : Text} : isDecimal t = true ↔ ∃ n, read? 10 t = some n := by
  rw [exists_read?_iff, isDecimal, Bool.and_eq_true, List.all_eq_true, Bool.not_eq_true']
  simp only [isSome_digit?_ten, List.isEmpty_eq_false_iff]

theorem isDecimal_write (n : Nat) : isDecimal (write 10 n) = true :=
  isDecimal_iff.mpr ⟨n, read?_write (by decide) (by decide) n⟩

end NetRanges.Numeral
