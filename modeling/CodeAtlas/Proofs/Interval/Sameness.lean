import CodeAtlas.Proofs.Interval.Cut

/-!
# Sameness of intervals

Two intervals are the same if their bounds agree or both are empty.  The bounds of an empty interval may lie
anywhere and mean nothing, so an operation may be used with either of two intervals that are the same only if it
looks whether an interval is empty before it looks at the bounds.  Operations with that property answer all empty
intervals alike (`Guarded`), and this is all that is to be known of them.

* `beq_iff`, `beq_iff_key` — sameness is equality of what tells intervals apart; so it is an equivalence, and a
  hash that is made from this alone respects it;
* `Guarded.congr`, `congr_of_guarded` — guarded operations on one and on two intervals respect sameness;
* `covers_congr`, `span_congr` — the two operations that tell their two intervals apart.
-/

namespace CodeAtlas.Interval

universe u v

variable {T : Type u} [LinearOrder T] {i i' j j' : Interval T}

/-! ## What tells intervals apart -/

/-- Sameness is equality, but for the empty intervals. -/
theorem beq_iff : (i == j) = true ↔ i = j ∨ i.isEmpty = true ∧ j.isEmpty = true := by
  by_cases heq : i = j
  · subst heq
    simp only [BEq.beq, true_or, iff_true]
    cases i.isEmpty <;> simp
  · have hends : ¬(i.lower = j.lower ∧ i.upper = j.upper) := by
      rintro ⟨hlower, hupper⟩
      exact heq (ext_cuts (congrArg Bound.lowerCut hlower) (congrArg Bound.upperCut hupper))
    simp only [BEq.beq, heq, false_or]
    cases i.isEmpty with
    | true => cases j.isEmpty <;> simp
    | false =>
      cases j.isEmpty with
      | true => simp
      | false => simpa using hends

theorem key_of_isEmpty (h : i.isEmpty = true) : i.key = none := by
  rw [key, h, if_pos rfl]

theorem key_of_not_isEmpty (h : i.isEmpty = false) : i.key = some (i.lower, i.upper) := by
  rw [key, h, if_neg Bool.false_ne_true]

/-- Intervals are the same if all that tells them apart agrees. -/
theorem beq_iff_key : (i == j) = true ↔ i.key = j.key := by
  rw [beq_iff]
  constructor
  · rintro (rfl | ⟨hi, hj⟩)
    · rfl
    · rw [key_of_isEmpty hi, key_of_isEmpty hj]
  · intro hkey
    cases hi : i.isEmpty with
    | true =>
      cases hj : j.isEmpty with
      | true => exact Or.inr ⟨rfl, rfl⟩
      | false =>
        rw [key_of_isEmpty hi, key_of_not_isEmpty hj] at hkey
        cases hkey
    | false =>
      cases hj : j.isEmpty with
      | true =>
        rw [key_of_not_isEmpty hi, key_of_isEmpty hj] at hkey
        cases hkey
      | false =>
        rw [key_of_not_isEmpty hi, key_of_not_isEmpty hj, Option.some.injEq, Prod.mk.injEq] at hkey
        exact Or.inl (ext_cuts (congrArg Bound.lowerCut hkey.1) (congrArg Bound.upperCut hkey.2))

instance : EquivBEq (Interval T) where
  rfl := beq_iff_key.2 rfl
  symm h := beq_iff_key.2 (beq_iff_key.1 h).symm
  trans h k := beq_iff_key.2 ((beq_iff_key.1 h).trans (beq_iff_key.1 k))

/-- The hash of an interval is made from what tells it apart. -/
instance [Hashable T] : LawfulHashable (Interval T) where
  hash_eq i j h := by
    show hash i.key = hash j.key
    rw [beq_iff_key.1 h]

/-! ## Guarded operations -/

section Guarded

variable {β : Type v}

/-- The operation answers all empty intervals alike. -/
def Guarded (f : Interval T → β) : Prop :=
  ∃ answer, ∀ i, i.isEmpty = true → f i = answer

/-- Guarded operations respect sameness. -/
theorem Guarded.congr {f : Interval T → β} (hf : Guarded f) (h : (i == j) = true) : f i = f j := by
  obtain ⟨answer, hanswer⟩ := hf
  rcases beq_iff.1 h with rfl | ⟨hi, hj⟩
  · rfl
  · rw [hanswer i hi, hanswer j hj]

/-- An operation on two intervals that answers alike wherever one of them is empty respects sameness of both. -/
theorem congr_of_guarded {f : Interval T → Interval T → β} (answer : β)
    (hf : ∀ i j, i.isEmpty = true ∨ j.isEmpty = true → f i j = answer)
    (hi : (i == i') = true) (hj : (j == j') = true) : f i j = f i' j' := by
  have hleft : Guarded fun k => f k j := ⟨answer, fun k hk => hf k j (Or.inl hk)⟩
  have hright : Guarded fun k => f i' k := ⟨answer, fun k hk => hf i' k (Or.inr hk)⟩
  calc
    f i j = f i' j := hleft.congr hi
    _ = f i' j' := hright.congr hj

end Guarded

theorem guarded_contains (v : T) : Guarded fun i : Interval T => i.contains v := by
  refine ⟨false, fun i hi => ?_⟩
  rw [← Bool.not_eq_true, contains_iff]
  exact not_holds_of_isEmpty hi _

theorem overlaps_of_isEmpty (i j : Interval T) (h : i.isEmpty = true ∨ j.isEmpty = true) :
    i.overlaps j = false := by
  rcases h with h | h <;> simp [overlaps, h]

theorem isBefore_of_isEmpty (i j : Interval T) (h : i.isEmpty = true ∨ j.isEmpty = true) :
    i.isBefore j = false := by
  rcases h with h | h <;> simp [isBefore, h]

theorem isTouching_of_isEmpty (i j : Interval T) (h : i.isEmpty = true ∨ j.isEmpty = true) :
    i.isTouching j = false := by
  rcases h with h | h <;> simp [isTouching, h]

theorem intersection?_of_isEmpty (i j : Interval T) (h : i.isEmpty = true ∨ j.isEmpty = true) :
    i.intersection? j = none := by
  rw [intersection?, overlaps_of_isEmpty i j h, if_neg Bool.false_ne_true]

/-! ## Operations that tell their intervals apart -/

/-- What is covered may be any empty interval, and what covers any empty one covers the empty ones alone. -/
theorem covers_congr (hi : (i == i') = true) (hj : (j == j') = true) : i.covers j = i'.covers j' := by
  have hleft : Guarded fun k => k.covers j := ⟨j.isEmpty, fun k hk => by simp [covers, hk]⟩
  have hright : Guarded fun k => i'.covers k := ⟨true, fun k hk => by simp [covers, hk]⟩
  calc
    i.covers j = i'.covers j := hleft.congr hi
    _ = i'.covers j' := hright.congr hj

/-- The span of two empty intervals is the second of them, so the spans need not be equal, only the same. -/
theorem span_congr (hi : (i == i') = true) (hj : (j == j') = true) : (i.span j == i'.span j') = true := by
  have hleft : Guarded fun k => k.span j := ⟨j, fun k hk => by simp [span, hk]⟩
  have hmid : i.span j = i'.span j := hleft.congr hi
  rw [hmid]
  cases hempty : i'.isEmpty with
  | true => simpa [span, hempty] using hj
  | false =>
    have hright : Guarded fun k => i'.span k := ⟨i', fun k hk => by simp [span, hempty, hk]⟩
    exact beq_iff.2 (Or.inl (hright.congr hj))

end CodeAtlas.Interval
