import NetRanges.Text.Cut
import NetRanges.Text.Numeral

/-!
# Dotted quads

Thirty-two bits are written as four octets in decimal between dots. Each octet is read
only in the form in which it is written, so there are no leading zeros and a quad has one
text.
-/

namespace NetRanges.Quad

open Positional

/-- The value of an octet written without leading zeros. -/
def octet? (t : Text) : Option Nat :=
  (Numeral.read? 10 t).filter fun n => n < 256 && Numeral.write 10 n == t

/-- The number that four octets between dots write. -/
def read? (t : Text) : Option Nat :=
  let octets := t.splitOn '.'
  if octets.length = 4 then (octets.mapM octet?).map (ofDigits 256) else none

/-- The four octets of a number, in decimal and between dots. -/
def write (n : Nat) : Text :=
  List.intercalate ['.'] ((digits 256 4 n).map (Numeral.write 10))

theorem octet?_eq_some_iff {t : Text} {n : Nat} :
    octet? t = some n ↔ n < 256 ∧ t = Numeral.write 10 n := by
  rw [octet?, Option.filter_eq_some_iff]
  constructor
  · rintro ⟨-, h⟩
    simp only [Bool.and_eq_true, decide_eq_true_eq, beq_iff_eq] at h
    exact ⟨h.1, h.2.symm⟩
  · rintro ⟨hn, rfl⟩
    simp [Numeral.read?_write, hn]

/-! ## A quad reads back, and only in the form in which it is written -/

theorem mapM_octet?_eq_some_iff {ts : List Text} {os : List Nat} :
    ts.mapM octet? = some os ↔ (∀ o ∈ os, o < 256) ∧ ts = os.map (Numeral.write 10) := by
  induction ts generalizing os with
  | nil =>
    cases os <;> simp
  | cons t ts ih =>
    cases ht : octet? t with
    | none =>
      simp only [List.mapM_cons, ht, Option.bind_eq_bind, Option.bind_none]
      cases os with
      | nil => simp
      | cons o os =>
        refine ⟨nofun, fun ⟨hlt, heq⟩ => ?_⟩
        obtain ⟨rfl, -⟩ := List.cons.inj heq
        rw [octet?_eq_some_iff.mpr ⟨hlt o (by simp), rfl⟩] at ht
        cases ht
    | some o =>
      obtain ⟨ho, rfl⟩ := octet?_eq_some_iff.mp ht
      simp only [List.mapM_cons, ht, Option.bind_eq_bind, Option.bind_some,
        Option.bind_eq_some_iff, Option.pure_def, Option.some.injEq]
      constructor
      · rintro ⟨os', hos', rfl⟩
        obtain ⟨hlt, rfl⟩ := ih.mp hos'
        exact ⟨by simpa using ⟨ho, hlt⟩, rfl⟩
      · rintro ⟨hlt, heq⟩
        cases os with
        | nil => cases heq
        | cons o' os' =>
          obtain ⟨htext, htail⟩ := List.cons.inj heq
          have hval := congrArg (Numeral.read? 10) htext
          simp only [Numeral.read?_write (by decide : 2 ≤ 10) (by decide : 10 ≤ 16),
            Option.some.injEq] at hval
          exact ⟨os', ih.mpr ⟨fun x hx => hlt x (by simp [hx]), htail⟩, by rw [hval]⟩

theorem splitOn_write (n : Nat) :
    (write n).splitOn '.' = (digits 256 4 n).map (Numeral.write 10) := by
  refine List.splitOn_intercalate '.' (fun t ht => ?_) fun h => by
    simpa using congrArg List.length h
  obtain ⟨o, -, rfl⟩ := List.mem_map.mp ht
  exact Numeral.not_mem_write (by decide) (by decide) (by decide)

theorem read?_write {n : Nat} (h : n < Nat.pow 256 4) : read? (write n) = some n := by
  have hlt : ∀ o ∈ digits 256 4 n, o < 256 := fun o ho => lt_of_mem_digits (by decide) ho
  simp only [read?, splitOn_write, List.length_map, length_digits, if_true,
    mapM_octet?_eq_some_iff.mpr ⟨hlt, rfl⟩, Option.map_some]
  rw [ofDigits_digits (by simpa using h)]

theorem read?_eq_some_iff {t : Text} {n : Nat} : read? t = some n ↔ n < Nat.pow 256 4 ∧ t = write n := by
  constructor
  · intro h
    simp only [read?] at h
    split at h
    · rename_i hlen
      obtain ⟨os, hos, rfl⟩ := Option.map_eq_some_iff.mp h
      obtain ⟨hlt, hts⟩ := mapM_octet?_eq_some_iff.mp hos
      have hlen' : os.length = 4 := by rwa [hts, List.length_map] at hlen
      refine ⟨by simpa [hlen'] using ofDigits_lt hlt, ?_⟩
      have hdigits := digits_ofDigits hlt
      rw [hlen'] at hdigits
      rw [write, hdigits, ← hts, List.intercalate_splitOn]
    · cases h
  · rintro ⟨h, rfl⟩
    exact read?_write h

/-- A quad consists of decimal digits and dots. -/
theorem not_mem_write {n : Nat} {c : Char} (hc : Numeral.digit? 16 c = none) (hdot : c ≠ '.') :
    c ∉ write n := by
  intro h
  rcases Text.mem_of_mem_intercalate h with rfl | ⟨t, ht, hct⟩
  · exact hdot rfl
  · obtain ⟨o, -, rfl⟩ := List.mem_map.mp ht
    exact Numeral.not_mem_write (by decide) (by decide) hc hct

/-- A quad has at least seven characters. -/
theorem four_lt_length_write (n : Nat) : 4 < (write n).length := by
  have hpos : ∀ o, 1 ≤ (Numeral.write 10 o).length := fun o =>
    List.length_pos_iff.mpr (Numeral.write_ne_nil 10 o)
  simp only [write, digits, List.map_cons, List.map_nil, List.intercalate_cons_cons,
    List.intercalate_singleton, List.length_append, List.length_cons, List.length_nil]
  have h₁ := hpos (n / Nat.pow 256 3 % 256)
  have h₂ := hpos (n / Nat.pow 256 2 % 256)
  omega

end NetRanges.Quad
