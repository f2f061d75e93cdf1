/-!
# Blank characters and trimming

A text is a list of characters, so that a grammar can be stated with `++`. A character
is blank when Unicode gives it the property White_Space. Trimming removes the blanks at
both ends of a text and nothing else: the input is the trimmed text between two blank
texts, and the trimmed text neither starts nor ends with a blank.
-/

namespace NetRanges

/-- A text is the list of its characters. -/
abbrev Text := List Char

namespace Text

/-- The code points with the property White_Space, as inclusive intervals. -/
def blankIntervals : List (Nat × Nat) :=
  [(0x09, 0x0D), (0x20, 0x20), (0x85, 0x85), (0xA0, 0xA0), (0x1680, 0x1680), (0x2000, 0x200A),
   (0x2028, 0x2029), (0x202F, 0x202F), (0x205F, 0x205F), (0x3000, 0x3000)]

def isBlank (c : Char) : Bool :=
  blankIntervals.any fun (lo, hi) => lo ≤ c.toNat && c.toNat ≤ hi

/-- Every character of a blank text is white space; the empty text is blank. -/
def Blank (t : Text) : Prop :=
  ∀ c ∈ t, isBlank c = true

instance (t : Text) : Decidable (Blank t) :=
  inferInstanceAs (Decidable (∀ c ∈ t, isBlank c = true))

def trimStart (t : Text) : Text :=
  t.dropWhile isBlank

def trimEnd (t : Text) : Text :=
  (trimStart t.reverse).reverse

/-- A text without the blanks at either end. -/
def trim (t : Text) : Text :=
  trimEnd (trimStart t)

/-! ## What trimming keeps -/

@[simp] theorem blank_nil : Blank [] := by
  simp [Blank]

theorem exists_blank_append_trimStart (t : Text) : ∃ w, Blank w ∧ t = w ++ trimStart t :=
  ⟨t.takeWhile isBlank, fun _ hc => (List.all_eq_true.mp List.all_takeWhile) _ hc,
    List.takeWhile_append_dropWhile.symm⟩

theorem exists_trimEnd_append_blank (t : Text) : ∃ w, Blank w ∧ t = trimEnd t ++ w := by
  obtain ⟨w, hw, ht⟩ := exists_blank_append_trimStart t.reverse
  refine ⟨w.reverse, fun c hc => hw c (List.mem_reverse.mp hc), ?_⟩
  rw [trimEnd, ← List.reverse_append, ← ht, List.reverse_reverse]

/-- Trimming takes a blank text off either end. -/
theorem exists_blank_trim_blank (t : Text) :
    ∃ w w', Blank w ∧ Blank w' ∧ t = w ++ trim t ++ w' := by
  obtain ⟨w, hw, ht⟩ := exists_blank_append_trimStart t
  obtain ⟨w', hw', ht'⟩ := exists_trimEnd_append_blank (trimStart t)
  exact ⟨w, w', hw, hw', by rw [List.append_assoc, trim, ← ht', ← ht]⟩

theorem trimStart_append_of_blank {w : Text} (hw : Blank w) (t : Text) :
    trimStart (w ++ t) = trimStart t := by
  induction w with
  | nil => rfl
  | cons c w ih =>
    have hc : isBlank c = true := hw c (List.mem_cons_self ..)
    rw [trimStart, List.cons_append, List.dropWhile_cons_of_pos hc]
    exact ih fun d hd => hw d (List.mem_cons_of_mem _ hd)

theorem trimStart_trimStart (t : Text) : trimStart (trimStart t) = trimStart t := by
  obtain ⟨w, hw, ht⟩ := exists_blank_append_trimStart t
  rw [← trimStart_append_of_blank hw (trimStart t), ← ht]

theorem trimEnd_append_of_blank {w : Text} (hw : Blank w) (t : Text) :
    trimEnd (t ++ w) = trimEnd t := by
  rw [trimEnd, List.reverse_append,
    trimStart_append_of_blank fun c hc => hw c (List.mem_reverse.mp hc), trimEnd]

theorem trimStart_eq_self_iff {t : Text} :
    trimStart t = t ↔ ∀ c r, t = c :: r → isBlank c = false := by
  cases t with
  | nil => simp [trimStart]
  | cons c r =>
    simp only [trimStart, List.dropWhile_cons, List.cons.injEq, and_imp]
    cases hc : isBlank c with
    | false => simp [hc]
    | true =>
      simp only [if_true]
      constructor
      · intro h
        exact absurd (congrArg List.length h)
          (Nat.ne_of_lt (Nat.lt_succ_of_le (List.dropWhile_sublist isBlank).length_le))
      · intro h
        exact absurd (h c r rfl rfl) (by simp [hc])

/-! ## Trimming what is trimmed -/

/-- Blanks at either end make no difference to the trimmed text. -/
theorem trim_append_of_blank {w w' : Text} (hw : Blank w) (hw' : Blank w') (t : Text) :
    trim (w ++ t ++ w') = trim t := by
  obtain ⟨u, hu, ht⟩ := exists_blank_append_trimStart t
  have hall : w ++ t ++ w' = w ++ (u ++ (trimStart t ++ w')) := by
    rw [← List.append_assoc u, ← ht, List.append_assoc]
  have hstart : trimStart (w ++ t ++ w') = trimStart (trimStart t ++ w') := by
    rw [hall, trimStart_append_of_blank hw, trimStart_append_of_blank hu]
  unfold trim
  rw [hstart]
  cases hrest : trimStart t with
  | nil =>
    have hnil : trimStart w' = [] := by
      have h := trimStart_append_of_blank hw' []
      rwa [List.append_nil] at h
    rw [List.nil_append, hnil]
  | cons c r =>
    have hself : trimStart (c :: r ++ w') = c :: r ++ w' := by
      refine trimStart_eq_self_iff.mpr fun d q hd => ?_
      obtain ⟨rfl, -⟩ := List.cons.inj hd
      exact trimStart_eq_self_iff.mp (hrest ▸ trimStart_trimStart t) c r rfl
    rw [hself, trimEnd_append_of_blank hw']

theorem trim_trim (t : Text) : trim (trim t) = trim t := by
  obtain ⟨w, w', hw, hw', ht⟩ := exists_blank_trim_blank t
  rw [← trim_append_of_blank hw hw' (trim t), ← ht]

/-- Nothing is left of a text exactly when it is blank. -/
theorem trim_eq_nil_iff {t : Text} : trim t = [] ↔ Blank t := by
  constructor
  · intro h
    obtain ⟨w, w', hw, hw', ht⟩ := exists_blank_trim_blank t
    rw [h, List.append_nil] at ht
    intro c hc
    rw [ht] at hc
    rcases List.mem_append.mp hc with hc | hc
    · exact hw c hc
    · exact hw' c hc
  · intro h
    have htrim := trim_append_of_blank h blank_nil []
    rwa [List.append_nil, List.append_nil] at htrim

theorem length_trim_le (t : Text) : (trim t).length ≤ t.length := by
  obtain ⟨w, w', -, -, ht⟩ := exists_blank_trim_blank t
  have hlen := congrArg List.length ht
  simp only [List.length_append] at hlen
  omega

/-- A trimmed text has no blanks at its ends. -/
theorem eq_nil_of_trim_eq_self {w t w' : Text} (hw : Blank w) (hw' : Blank w')
    (h : trim (w ++ t ++ w') = w ++ t ++ w') : w = [] ∧ w' = [] := by
  have hle := length_trim_le t
  rw [trim_append_of_blank hw hw'] at h
  have hlen := congrArg List.length h
  simp only [List.length_append] at hlen
  exact ⟨List.length_eq_zero_iff.mp (by omega), List.length_eq_zero_iff.mp (by omega)⟩

theorem trim_append_blank {t w : Text} (ht : trim t = t) (hw : Blank w) : trim (t ++ w) = t := by
  have h := trim_append_of_blank blank_nil hw t
  rwa [List.nil_append, ht] at h

theorem trim_blank_append {w t : Text} (hw : Blank w) (ht : trim t = t) : trim (w ++ t) = t := by
  have h := trim_append_of_blank hw blank_nil t
  rwa [List.append_nil, ht] at h

/-- A text without blanks is trimmed. -/
theorem trim_eq_self {t : Text} (h : ∀ c ∈ t, isBlank c = false) : trim t = t := by
  have hstart : ∀ u : Text, (∀ c ∈ u, isBlank c = false) → trimStart u = u := by
    intro u hu
    refine trimStart_eq_self_iff.mpr fun c r hc => hu c ?_
    rw [hc]
    exact List.mem_cons_self ..
  unfold trim trimEnd
  rw [hstart t h, hstart t.reverse fun c hc => h c (List.mem_reverse.mp hc), List.reverse_reverse]

theorem trimStart_append_eq_self {t : Text} (hne : t ≠ []) (h : ∀ c ∈ t, isBlank c = false)
    (u : Text) : trimStart (t ++ u) = t ++ u := by
  obtain ⟨d, r, rfl⟩ := List.exists_cons_of_ne_nil hne
  refine trimStart_eq_self_iff.mpr fun c q hc => ?_
  obtain ⟨rfl, -⟩ := List.cons.inj hc
  exact h d (List.mem_cons_self ..)

/-- Blanks inside a text are kept. -/
theorem trim_append_eq_self {t v : Text} (ht : t ≠ []) (hv : v ≠ [])
    (htext : ∀ c ∈ t, isBlank c = false) (hvtext : ∀ c ∈ v, isBlank c = false) (u : Text) :
    trim (t ++ u ++ v) = t ++ u ++ v := by
  have hstart : trimStart (t ++ u ++ v) = t ++ u ++ v := by
    rw [List.append_assoc, trimStart_append_eq_self ht htext]
  have hend : trimStart (t ++ u ++ v).reverse = (t ++ u ++ v).reverse := by
    rw [List.reverse_append]
    exact trimStart_append_eq_self (List.reverse_ne_nil_iff.mpr hv)
      (fun c hc => hvtext c (List.mem_reverse.mp hc)) _
  unfold trim trimEnd
  rw [hstart, hend, List.reverse_reverse]

end Text

end NetRanges
