import CodeAtlas.Text.Fold
import CodeAtlas.Text.Value
import Mathlib.Data.Int.Order.Basic
import Mathlib.Order.Basic

/-!
# Whole numbers and their text

* `Numeral.read?_write` — a number is read back from its text;
* `Numeral.of_mem_write` — that text is made of digits and perhaps a minus sign;
* `Numeral.Spelled`, `Numeral.read?_eq_some_iff` — all texts that are read as numbers;
* `Text.sameFolded_digits` — case does not matter to digits, so only digits agree with digits;
* the instance of `LinearOrder`, with the comparison that numbers have already.
-/

namespace CodeAtlas

/-! ## Digits -/

namespace Text

/-- Digits have one case, and no other character has a digit as its small letter. -/
theorem isDigit_toLower (c : Char) : c.toLower.isDigit = c.isDigit := by
  unfold Char.toLower Char.isDigit
  split
  · grind
  · rfl

/-- Only digits agree with digits, whatever the case. -/
theorem sameFolded_digits {s t : List Char} (hne : s ≠ []) (hs : ∀ c ∈ s, c.isDigit = true)
    (h : sameFolded s t = true) : t ≠ [] ∧ ∀ c ∈ t, c.isDigit = true := by
  have hmap : s.map Char.toLower = t.map Char.toLower := beq_iff_eq.1 h
  constructor
  · rintro rfl
    exact hne (List.map_eq_nil_iff.1 hmap)
  · intro c hc
    have hlow : c.toLower ∈ s.map Char.toLower := by
      rw [hmap]
      exact List.mem_map_of_mem hc
    obtain ⟨d, hd, hdc⟩ := List.mem_map.1 hlow
    rw [← isDigit_toLower, ← hdc, isDigit_toLower]
    exact hs d hd

end Text

namespace Numeral

theorem isDigit_of_mem_toDigits {n : Nat} {c : Char} (h : c ∈ Nat.toDigits 10 n) : c.isDigit = true :=
  Nat.isDigit_of_mem_toDigits (by decide) (by decide) h

theorem digits?_toDigits (n : Nat) : digits? (Nat.toDigits 10 n) = some n := by
  have hall : (Nat.toDigits 10 n).all Char.isDigit = true := by
    rw [List.all_eq_true]
    exact fun c hc => isDigit_of_mem_toDigits hc
  rw [digits?, if_pos ⟨Nat.toDigits_ne_nil, hall⟩, Nat.ofDigitChars_ten_toDigits]

/-! ## Numbers -/

variable {k : IntegerKind}

theorem ofInt?_val (a : Numeral k) : ofInt? k a.val = some a := by
  rw [ofInt?, dif_pos ⟨a.least_le, a.le_greatest⟩]

/-- Digits are read without a sign. -/
theorem read?_digits {s : List Char} (hs : ∀ c ∈ s, c.isDigit = true) :
    read? k s = (digits? s).bind fun n => ofInt? k n := by
  unfold read?
  split
  · cases hs '+' List.mem_cons_self
  · cases hs '-' List.mem_cons_self
  · rfl

/-- **A number is read back from its text.** -/
theorem read?_write (a : Numeral k) : read? k a.write = some a := by
  unfold write
  split
  · next hneg =>
    -- negative numbers are in signed ranges only
    have hsigned : k.signedness = .signed := by
      cases hk : k.signedness with
      | signed => rfl
      | unsigned =>
        have hleast := a.least_le
        rw [IntegerKind.least, hk] at hleast
        exact absurd hneg (Int.not_lt.2 hleast)
    have hval : -(a.val.natAbs : Int) = a.val := by omega
    rw [read?, hsigned, digits?_toDigits]
    show ofInt? k (-(a.val.natAbs : Int)) = some a
    rw [hval, ofInt?_val]
  · next hpos =>
    have hval : (a.val.natAbs : Int) = a.val := by omega
    rw [read?_digits fun c => isDigit_of_mem_toDigits, digits?_toDigits]
    show ofInt? k (a.val.natAbs : Int) = some a
    rw [hval, ofInt?_val]

/-- The text of a number: digits, perhaps after a minus sign. -/
theorem write_eq (a : Numeral k) :
    a.write = Nat.toDigits 10 a.val.natAbs ∨ a.write = '-' :: Nat.toDigits 10 a.val.natAbs := by
  unfold write
  split
  · exact Or.inr rfl
  · exact Or.inl rfl

theorem of_mem_write {a : Numeral k} {c : Char} (h : c ∈ a.write) : c = '-' ∨ c.isDigit = true := by
  rcases a.write_eq with hw | hw
  · rw [hw] at h
    exact Or.inr (isDigit_of_mem_toDigits h)
  · rw [hw] at h
    exact (List.mem_cons.1 h).imp_right isDigit_of_mem_toDigits

/-! ## Spelling -/

theorem digits?_eq_some_iff {s : List Char} {n : Nat} :
    digits? s = some n ↔ (s ≠ [] ∧ ∀ c ∈ s, c.isDigit = true) ∧ Nat.ofDigitChars 10 s 0 = n := by
  rw [digits?, Option.ite_none_right_eq_some, List.all_eq_true, Option.some_inj]

theorem ofInt?_eq_some_iff {n : Int} {a : Numeral k} : ofInt? k n = some a ↔ a.val = n := by
  constructor
  · intro h
    obtain ⟨_, ha⟩ := Option.dite_none_right_eq_some.1 h
    rw [← Option.some_inj.1 ha]
  · rintro rfl
    exact ofInt?_val a

/-- How a number may be spelled: digits, one at least, after a sign or none.  A minus sign is for ranges of signed
numbers only. -/
inductive Spelled : List Char → Numeral k → Prop where
  | plain {ds : List Char} {a : Numeral k} (digits : ds ≠ [] ∧ ∀ c ∈ ds, c.isDigit = true)
      (value : a.val = Nat.ofDigitChars 10 ds 0) : Spelled ds a
  | plus {ds : List Char} {a : Numeral k} (digits : ds ≠ [] ∧ ∀ c ∈ ds, c.isDigit = true)
      (value : a.val = Nat.ofDigitChars 10 ds 0) : Spelled ('+' :: ds) a
  | minus {ds : List Char} {a : Numeral k} (signed : k.signedness = .signed)
      (digits : ds ≠ [] ∧ ∀ c ∈ ds, c.isDigit = true)
      (value : a.val = -(Nat.ofDigitChars 10 ds 0 : Int)) : Spelled ('-' :: ds) a

theorem bind_digits?_eq_some_iff {s : List Char} {g : Nat → Int} {a : Numeral k} :
    ((digits? s).bind fun n => ofInt? k (g n)) = some a ↔
      (s ≠ [] ∧ ∀ c ∈ s, c.isDigit = true) ∧ a.val = g (Nat.ofDigitChars 10 s 0) := by
  simp only [Option.bind_eq_some_iff, digits?_eq_some_iff, ofInt?_eq_some_iff]
  constructor
  · rintro ⟨n, ⟨hdigits, rfl⟩, hval⟩
    exact ⟨hdigits, hval⟩
  · rintro ⟨hdigits, hval⟩
    exact ⟨_, ⟨hdigits, rfl⟩, hval⟩

/-- **What is read as a number is how a number may be spelled.** -/
theorem read?_eq_some_iff {s : List Char} {a : Numeral k} : read? k s = some a ↔ Spelled s a := by
  constructor
  · intro h
    unfold read? at h
    split at h
    · obtain ⟨hdigits, hval⟩ := bind_digits?_eq_some_iff.1 h
      exact .plus hdigits hval
    · split at h
      · next hsigned =>
        obtain ⟨hdigits, hval⟩ := bind_digits?_eq_some_iff.1 h
        exact .minus hsigned hdigits hval
      · cases h
    · obtain ⟨hdigits, hval⟩ := bind_digits?_eq_some_iff.1 h
      exact .plain hdigits hval
  · rintro (⟨hdigits, hval⟩ | ⟨hdigits, hval⟩ | ⟨hsigned, hdigits, hval⟩)
    · rw [read?_digits hdigits.2]
      exact bind_digits?_eq_some_iff.2 ⟨hdigits, hval⟩
    · exact bind_digits?_eq_some_iff.2 ⟨hdigits, hval⟩
    · rw [read?, hsigned]
      exact bind_digits?_eq_some_iff.2 ⟨hdigits, hval⟩

/-! ## Order -/

theorem val_injective : Function.Injective (val : Numeral k → Int) := by
  rintro ⟨a, _, _⟩ ⟨b, _, _⟩ h
  cases h
  rfl

instance : LinearOrder (Numeral k) :=
  LinearOrder.liftWithOrd' val val_injective fun _ _ => rfl

end Numeral

end CodeAtlas
