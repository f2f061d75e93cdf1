/-!
# Positional numerals of fixed width

`digits b k n` lists the `k` lowest digits of `n` in base `b`, the most significant first,
and `ofDigits b` reads such a list. Octets of an address, its groups of sixteen bits and
the bytes of a record are all digits in this sense. Writing and reading are inverse on
numbers below `b.pow k` and on lists whose members are below `b`. Digits are in the order of
the numbers (`digits_append_lt_iff`).
-/

namespace NetRanges.Positional

/-- The `k` lowest digits of `n` in base `b`, most significant first. -/
def digits (b : Nat) : Nat → Nat → List Nat
  | 0, _ => []
  | k + 1, n => n / b.pow k % b :: digits b k n

/-- The number whose digits in base `b` are given, most significant first. -/
def ofDigits (b : Nat) (ds : List Nat) : Nat :=
  ds.foldl (fun n d => b * n + d) 0

theorem pow_succ_eq (b k : Nat) : b.pow (k + 1) = b.pow k * b := rfl

@[simp] theorem length_digits (b k n : Nat) : (digits b k n).length = k := by
  induction k with
  | zero => rfl
  | succ k ih => simp [digits, ih]

theorem lt_of_mem_digits {b k n d : Nat} (hb : 0 < b) (h : d ∈ digits b k n) : d < b := by
  induction k with
  | zero => simp [digits] at h
  | succ k ih =>
    rcases List.mem_cons.mp h with rfl | h
    · exact Nat.mod_lt _ hb
    · exact ih h

@[simp] theorem ofDigits_nil (b : Nat) : ofDigits b [] = 0 := rfl

theorem foldl_eq_add_ofDigits (b : Nat) (ds : List Nat) (a : Nat) :
    ds.foldl (fun n d => b * n + d) a = a * b.pow ds.length + ofDigits b ds := by
  induction ds generalizing a with
  | nil => simp
  | cons d ds ih =>
    rw [ofDigits, List.foldl_cons, List.foldl_cons, ih, ih (b * 0 + d), List.length_cons,
      pow_succ_eq]
    simp only [Nat.mul_zero, Nat.zero_add, Nat.add_mul, Nat.add_assoc]
    rw [Nat.mul_comm b a, Nat.mul_assoc, Nat.mul_comm b]

theorem ofDigits_cons (b d : Nat) (ds : List Nat) :
    ofDigits b (d :: ds) = d * b.pow ds.length + ofDigits b ds := by
  rw [ofDigits, List.foldl_cons, foldl_eq_add_ofDigits, Nat.mul_zero, Nat.zero_add]

theorem ofDigits_append_singleton (b d : Nat) (ds : List Nat) :
    ofDigits b (ds ++ [d]) = b * ofDigits b ds + d := by
  simp [ofDigits]

theorem ofDigits_lt {b : Nat} {ds : List Nat} (h : ∀ d ∈ ds, d < b) :
    ofDigits b ds < b.pow ds.length := by
  induction ds with
  | nil => simp
  | cons d ds ih =>
    have hd : d < b := h d (List.mem_cons_self ..)
    have hds := ih fun x hx => h x (List.mem_cons_of_mem _ hx)
    rw [ofDigits_cons, List.length_cons, pow_succ_eq, Nat.mul_comm (b.pow ds.length)]
    calc d * b.pow ds.length + ofDigits b ds < d * b.pow ds.length + b.pow ds.length := by omega
      _ = (d + 1) * b.pow ds.length := by rw [Nat.add_mul, Nat.one_mul]
      _ ≤ b * b.pow ds.length := Nat.mul_le_mul_right _ hd

theorem ofDigits_digits_eq_mod (b k n : Nat) : ofDigits b (digits b k n) = n % b.pow k := by
  induction k with
  | zero => simp [digits, Nat.mod_one]
  | succ k ih =>
    rw [digits, ofDigits_cons, length_digits, ih, pow_succ_eq, Nat.mod_mul, Nat.add_comm,
      Nat.mul_comm]

/-- A number below `b.pow k` is read back from its `k` digits. -/
theorem ofDigits_digits {b k n : Nat} (h : n < b.pow k) : ofDigits b (digits b k n) = n := by
  rw [ofDigits_digits_eq_mod, Nat.mod_eq_of_lt h]

theorem digits_mul_pow_add (b k a m : Nat) :
    digits b k (a * b.pow k + m) = digits b k m := by
  induction k generalizing a with
  | zero => rfl
  | succ k ih =>
    rcases Nat.eq_zero_or_pos b with rfl | hb
    · cases k <;> simp [digits]
    · have hpow : a * b.pow (k + 1) = a * b * b.pow k := by
        rw [pow_succ_eq, Nat.mul_comm (b.pow k), Nat.mul_assoc]
      have hpos : 0 < b.pow k := Nat.pow_pos hb
      rw [digits, digits, hpow, ih, Nat.mul_comm (a * b), Nat.mul_add_div hpos,
        Nat.add_comm (a * b), Nat.add_mul_mod_self_right]

/-- Digits below the base are written back as they were read. -/
theorem digits_ofDigits {b : Nat} {ds : List Nat} (h : ∀ d ∈ ds, d < b) :
    digits b ds.length (ofDigits b ds) = ds := by
  induction ds with
  | nil => rfl
  | cons d ds ih =>
    have hd : d < b := h d (List.mem_cons_self ..)
    have htail : ∀ x ∈ ds, x < b := fun x hx => h x (List.mem_cons_of_mem _ hx)
    have hpos : 0 < b.pow ds.length := Nat.pow_pos (by omega)
    rw [List.length_cons, digits, ofDigits_cons, digits_mul_pow_add, ih htail, Nat.mul_comm,
      Nat.mul_add_div hpos, Nat.div_eq_of_lt (ofDigits_lt htail), Nat.add_zero,
      Nat.mod_eq_of_lt hd]

/-- Numbers with equally many digits are in the order of their digits. What follows the digits
decides only between equal numbers. -/
theorem digits_append_lt_iff {b k m n : Nat} {xs ys : List Nat} (hm : m < b.pow k)
    (hn : n < b.pow k) : digits b k m ++ xs < digits b k n ++ ys ↔ m < n ∨ m = n ∧ xs < ys := by
  induction k generalizing m n with
  | zero =>
    obtain rfl : m = 0 := Nat.lt_one_iff.mp hm
    obtain rfl : n = 0 := Nat.lt_one_iff.mp hn
    simp [digits]
  | succ k ih =>
    have hpos : 0 < b.pow k := Nat.pos_of_mul_pos_right (Nat.zero_lt_of_lt hm)
    have hlow (l : Nat) : digits b k l = digits b k (l % b.pow k) := by
      have h := digits_mul_pow_add b k (l / b.pow k) (l % b.pow k)
      rwa [Nat.mul_comm, Nat.div_add_mod] at h
    rw [digits, digits, Nat.mod_eq_of_lt (Nat.div_lt_of_lt_mul hm),
      Nat.mod_eq_of_lt (Nat.div_lt_of_lt_mul hn), List.cons_append, List.cons_append,
      List.cons_lt_cons_iff, hlow m, hlow n, ih (Nat.mod_lt m hpos) (Nat.mod_lt n hpos)]
    rcases Nat.lt_trichotomy (m / b.pow k) (n / b.pow k) with hlt | heq | hgt
    · exact iff_of_true (Or.inl hlt) (Or.inl (Nat.lt_of_div_lt_div hlt))
    · have hmod := Nat.div_add_mod m (b.pow k)
      have hnod := Nat.div_add_mod n (b.pow k)
      rw [heq] at hmod ⊢
      have hlt : m % b.pow k < n % b.pow k ↔ m < n := by omega
      have hsame : m % b.pow k = n % b.pow k ↔ m = n := by omega
      simp only [hlt, hsame, Nat.lt_irrefl, true_and, false_or]
    · have hlt := Nat.lt_of_div_lt_div hgt
      apply iff_of_false <;> omega

end NetRanges.Positional
