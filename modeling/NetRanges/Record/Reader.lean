import NetRanges.Record.Layout

/-!
# Reading records

A reader takes bytes from the front and returns what it read with the bytes that are left.
The ends of a record may be stored in either order. Reading stops at the first fault, and a
record that ends too early reports how many bytes its next part needed.
-/

namespace NetRanges.Record

/-- The first `n` bytes and the rest. -/
def take (n : Nat) (bs : Bytes) : Except Error (Bytes × Bytes) :=
  let front := bs.take n
  if front.length < n then .error (.truncated n front.length) else .ok (front, bs.drop n)

/-- A word with its sign. -/
def word (bs : Bytes) : Except Error (Int × Bytes) := do
  let (w, rest) ← take 4 bs
  .ok (w.signed, rest)

/-- An address of a given family, after the number of its bytes. -/
def address (family : Family) (bs : Bytes) : Except Error (Address × Bytes) := do
  let (length, rest) ← word bs
  if length = family.bytes then
    let (body, rest) ← take family.bytes rest
    .ok (.ofNat family body.toNat, rest)
  else .error (.wrongLength family.bytes length)

/-- The family that the first word names. -/
def family (bs : Bytes) : Except Error (Family × Bytes) := do
  let (tag, rest) ← word bs
  match Family.ofTag? tag with
  | some f => .ok (f, rest)
  | none => .error (.unknownTag tag)

def range (bs : Bytes) : Except Error (Range × Bytes) := do
  let (f, rest) ← family bs
  let (a, rest) ← address f rest
  let (b, rest) ← address f rest
  let r ← Range.between a b
  .ok (r, rest)

/-! ## What a reader leaves -/

theorem take_eq_ok {n : Nat} {bs front rest : Bytes} (h : take n bs = .ok (front, rest)) :
    bs = front ++ rest ∧ front.length = n := by
  simp only [take] at h
  split at h
  · cases h
  · rename_i hlen
    obtain ⟨rfl, rfl⟩ := Prod.mk.inj (Except.ok.inj h)
    refine ⟨(List.take_append_drop n bs).symm, ?_⟩
    have := List.length_take_le n bs
    omega

theorem take_append {n : Nat} {front : Bytes} (h : front.length = n) (rest : Bytes) :
    take n (front ++ rest) = .ok (front, rest) := by
  subst h
  simp [take]

theorem word_eq_ok {bs rest : Bytes} {n : Int} (h : word bs = .ok (n, rest)) :
    ∃ w : Bytes, w.length = 4 ∧ w.signed = n ∧ bs = w ++ rest := by
  cases ht : take 4 bs with
  | error e => simp [word, ht, bind, Except.bind] at h
  | ok p =>
    obtain ⟨w, r⟩ := p
    simp only [word, ht, bind, Except.bind, Except.ok.injEq, Prod.mk.injEq] at h
    obtain ⟨rfl, rfl⟩ := h
    obtain ⟨hbs, hlen⟩ := take_eq_ok ht
    exact ⟨w, hlen, rfl, hbs⟩

theorem address_eq_ok {f : Family} {bs rest : Bytes} {a : Address}
    (h : address f bs = .ok (a, rest)) :
    ∃ w body : Bytes, w.length = 4 ∧ w.signed = f.bytes ∧ body.length = f.bytes ∧
      a = .ofNat f body.toNat ∧ bs = w ++ body ++ rest := by
  cases hw : word bs with
  | error e => simp [address, hw, bind, Except.bind] at h
  | ok p =>
    obtain ⟨n, r⟩ := p
    obtain ⟨w, hlen, hsigned, rfl⟩ := word_eq_ok hw
    simp only [address, hw, bind, Except.bind] at h
    split at h
    · rename_i hn
      cases ht : take f.bytes r with
      | error e => simp [ht] at h
      | ok q =>
        obtain ⟨body, r'⟩ := q
        simp only [ht, Except.ok.injEq, Prod.mk.injEq] at h
        obtain ⟨rfl, rfl⟩ := h
        obtain ⟨rfl, hbody⟩ := take_eq_ok ht
        exact ⟨w, body, hlen, hsigned.trans hn, hbody, rfl, (List.append_assoc ..).symm⟩
    · cases h

theorem family_eq_ok {bs rest : Bytes} {f : Family} (h : family bs = .ok (f, rest)) :
    ∃ w : Bytes, w.length = 4 ∧ Family.ofTag? w.signed = some f ∧ bs = w ++ rest := by
  cases hw : word bs with
  | error e => simp [family, hw, bind, Except.bind] at h
  | ok p =>
    obtain ⟨n, r⟩ := p
    obtain ⟨w, hlen, hsigned, rfl⟩ := word_eq_ok hw
    simp only [family, hw, bind, Except.bind] at h
    split at h
    · rename_i f' htag
      simp only [Except.ok.injEq, Prod.mk.injEq] at h
      obtain ⟨rfl, rfl⟩ := h
      exact ⟨w, hlen, hsigned ▸ htag, rfl⟩
    · cases h

/-- A record takes at least one byte. -/
theorem length_lt_of_range {bs rest : Bytes} {r : Range} (h : range bs = .ok (r, rest)) :
    rest.length < bs.length := by
  cases hf : family bs with
  | error e => simp [range, hf, bind, Except.bind] at h
  | ok p =>
    obtain ⟨f, r₁⟩ := p
    obtain ⟨w, hlen, -, rfl⟩ := family_eq_ok hf
    simp only [range, hf, bind, Except.bind] at h
    cases ha : address f r₁ with
    | error e => simp [ha] at h
    | ok p =>
      obtain ⟨a, r₂⟩ := p
      obtain ⟨w₁, body₁, -, -, -, -, rfl⟩ := address_eq_ok ha
      simp only [ha] at h
      cases hb : address f r₂ with
      | error e => simp [hb] at h
      | ok p =>
        obtain ⟨b, r₃⟩ := p
        obtain ⟨w₂, body₂, -, -, -, -, rfl⟩ := address_eq_ok hb
        simp only [hb] at h
        cases hr : Range.between a b with
        | error e => simp [hr] at h
        | ok s =>
          simp only [hr, Except.ok.injEq, Prod.mk.injEq] at h
          obtain ⟨-, rfl⟩ := h
          simp only [List.length_append]
          omega

/-! ## Whole inputs -/

/-- The range of the only record. -/
def decode (bs : Bytes) : Except Error Range := do
  let (r, rest) ← range bs
  if rest.isEmpty then .ok r else .error (.trailingBytes rest.length)

/-- The ranges of all records, up to the end of the input. -/
def decodeAll (bs : Bytes) : Except Error (List Range) :=
  if bs.isEmpty then .ok []
  else
    match h : range bs with
    | .error e => .error e
    | .ok (r, rest) =>
      have := length_lt_of_range h
      (decodeAll rest).map (r :: ·)
termination_by bs.length

end NetRanges.Record
