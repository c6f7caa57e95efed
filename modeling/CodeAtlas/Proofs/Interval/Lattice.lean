import CodeAtlas.Proofs.Interval.Sameness

/-!
# Intervals form a lattice

Ordered by what covers what, intervals have greatest lower and least upper bounds.  An interval covers another
exactly if it holds all cuts of the other, so the order is inclusion of stretches of cuts, and what two intervals
have in common is the intersection of their stretches.  The union of two stretches need not be one: the span fills
the gap between them.  Empty intervals hold no cut, wherever their bounds lie, and are all at the bottom.

* `covers_trans`, `covers_antisymm_iff` — the order, with sameness for equality;
* `covers_intersection?_iff` — greatest lower bounds; where there is nothing in common, only empty intervals lie
  below both;
* `covers_span_iff` — least upper bounds;
* `overlaps_comm`, `isTouching_comm`, `intersection?_comm`, `span_comm` — the two intervals may change places;
* `form_a_lattice` — all this about any intervals, empty or not.
-/

namespace CodeAtlas

universe u

variable {T : Type u} [LinearOrder T]

namespace Bound

theorem maxLower_comm (x y : Bound T) : maxLower x y = maxLower y x := by
  apply lowerCut_injective
  rw [lowerCut_maxLower, lowerCut_maxLower, max_comm]

theorem minUpper_comm (x y : Bound T) : minUpper x y = minUpper y x := by
  apply upperCut_injective
  rw [upperCut_minUpper, upperCut_minUpper, min_comm]

end Bound

namespace Interval

variable {a b c x : Interval T}

/-! ## The order -/

theorem covers_trans (hab : a.covers b = true) (hbc : b.covers c = true) : a.covers c = true := by
  rw [covers_iff_forall_holds] at hab hbc ⊢
  exact fun d hd => hab d (hbc d hd)

/-- Every interval covers the empty ones. -/
theorem covers_of_isEmpty (hb : b.isEmpty = true) : a.covers b = true := by
  rw [covers, hb, Bool.true_or]

/-- An empty interval covers only empty ones. -/
theorem isEmpty_of_covers (ha : a.isEmpty = true) (h : a.covers b = true) : b.isEmpty = true := by
  rw [isEmpty_iff_forall_not_holds] at ha ⊢
  exact fun d hd => ha d (covers_iff_forall_holds.1 h d hd)

/-- Intervals that cover each other are the same. -/
theorem covers_antisymm_iff : a.covers b = true ∧ b.covers a = true ↔ (a == b) = true := by
  rw [beq_iff]
  constructor
  · rintro ⟨hab, hba⟩
    cases ha : a.isEmpty with
    | true => exact Or.inr ⟨rfl, isEmpty_of_covers ha hab⟩
    | false =>
      have hb : b.isEmpty = false := by
        rw [← Bool.not_eq_true]
        intro hb
        rw [isEmpty_of_covers hb hba] at ha
        cases ha
      have hlt := isEmpty_eq_false_iff.1 ha
      have hlt' := isEmpty_eq_false_iff.1 hb
      obtain ⟨-, hstart, hend⟩ := (covers_iff.1 hab).resolve_left (not_le.2 hlt')
      obtain ⟨-, hstart', hend'⟩ := (covers_iff.1 hba).resolve_left (not_le.2 hlt)
      exact Or.inl (ext_cuts (le_antisymm hstart hstart') (le_antisymm hend' hend))
  · rintro (rfl | ⟨ha, hb⟩)
    · exact ⟨covers_refl a, covers_refl a⟩
    · exact ⟨covers_of_isEmpty hb, covers_of_isEmpty ha⟩

/-! ## Greatest lower bounds -/

/-- **What two intervals have in common is their greatest lower bound.**  Where they have nothing in common, only
empty intervals lie below both. -/
theorem covers_intersection?_iff :
    a.covers x = true ∧ b.covers x = true ↔ (a.intersection? b).elim x.isEmpty (·.covers x) = true := by
  have hboth : a.covers x = true ∧ b.covers x = true ↔
      ∀ d, x.Holds d → ∃ k ∈ a.intersection? b, k.Holds d := by
    simp only [covers_iff_forall_holds, holds_intersection?]
    exact ⟨fun h d hd => ⟨h.1 d hd, h.2 d hd⟩, fun h => ⟨fun d hd => (h d hd).1, fun d hd => (h d hd).2⟩⟩
  rw [hboth]
  cases a.intersection? b with
  | none => simp [isEmpty_iff_forall_not_holds]
  | some k => simp [covers_iff_forall_holds]

theorem isSome_intersection? (a b : Interval T) : (a.intersection? b).isSome = a.overlaps b := by
  unfold intersection?
  cases a.overlaps b <;> rfl

theorem contains_intersection?_iff {v : T} :
    (∃ k ∈ a.intersection? b, k.contains v = true) ↔ a.contains v = true ∧ b.contains v = true := by
  simp only [contains_iff, holds_intersection?]

/-! ## Least upper bounds -/

/-- **The span of two intervals is their least upper bound**; an empty one adds nothing to it. -/
theorem covers_span_iff : x.covers a = true ∧ x.covers b = true ↔ x.covers (a.span b) = true := by
  unfold span
  cases ha : a.isEmpty with
  | true => simp [covers_of_isEmpty ha]
  | false =>
    cases hb : b.isEmpty with
    | true => simp [covers_of_isEmpty hb]
    | false =>
      have hlt := isEmpty_eq_false_iff.1 ha
      have hlt' := isEmpty_eq_false_iff.1 hb
      have hlo : (⟨Bound.minLower a.lower b.lower, Bound.maxUpper a.upper b.upper⟩ : Interval T).lo
          = min a.lo b.lo := Bound.lowerCut_minLower _ _
      have hup : (⟨Bound.minLower a.lower b.lower, Bound.maxUpper a.upper b.upper⟩ : Interval T).up
          = max a.up b.up := Bound.upperCut_maxUpper _ _
      have hspan : min a.lo b.lo < max a.up b.up :=
        lt_of_le_of_lt (min_le_left _ _) (lt_of_lt_of_le hlt (le_max_left _ _))
      simp only [Bool.false_eq_true, if_false, covers_iff, hlo, hup, not_le.2 hlt, not_le.2 hlt',
        not_le.2 hspan, false_or, le_min_iff, max_le_iff]
      tauto

/-! ## Changing places -/

theorem overlaps_comm (a b : Interval T) : a.overlaps b = b.overlaps a := by
  rw [Bool.eq_iff_iff, overlaps_iff_exists_holds, overlaps_iff_exists_holds]
  exact exists_congr fun _ => and_comm

theorem isTouching_comm (a b : Interval T) : a.isTouching b = b.isTouching a := by
  rw [Bool.eq_iff_iff, isTouching_iff, isTouching_iff]
  constructor
  · rintro ⟨ha, hb, htouch⟩
    exact ⟨hb, ha, htouch.symm⟩
  · rintro ⟨hb, ha, htouch⟩
    exact ⟨ha, hb, htouch.symm⟩

theorem intersection?_comm (a b : Interval T) : a.intersection? b = b.intersection? a := by
  rw [intersection?, intersection?, overlaps_comm, Bound.maxLower_comm, Bound.minUpper_comm]

/-- Both spans are least upper bounds of the same intervals, so they cover each other. -/
theorem span_comm (a b : Interval T) : (a.span b == b.span a) = true := by
  rw [← covers_antisymm_iff, ← covers_span_iff, ← covers_span_iff]
  obtain ⟨ha, hb⟩ := covers_span_iff.2 (covers_refl (a.span b))
  obtain ⟨hb', ha'⟩ := covers_span_iff.2 (covers_refl (b.span a))
  exact ⟨⟨hb, ha⟩, ⟨ha', hb'⟩⟩

/-- **Intervals form a lattice**, whatever their bounds and whether they are empty or not.  Covering is reflexive
and transitive, and intervals that cover each other are the same.  An interval lies within two others exactly if it
lies within what they have in common, and is empty where that is nothing; there is something in common exactly if
they overlap, and a value belongs to it exactly if it belongs to both.  Two intervals lie within a third exactly if
their span does.  In all of this the two may change places. -/
theorem form_a_lattice (a b c x : Interval T) :
    a.covers a = true ∧
    (a.covers b = true → b.covers c = true → a.covers c = true) ∧
    (a.covers b = true ∧ b.covers a = true ↔ (a == b) = true) ∧
    (a.covers x = true ∧ b.covers x = true ↔ (a.intersection? b).elim x.isEmpty (·.covers x) = true) ∧
    (a.intersection? b).isSome = a.overlaps b ∧
    (∀ v, (∃ k ∈ a.intersection? b, k.contains v = true) ↔ a.contains v = true ∧ b.contains v = true) ∧
    (x.covers a = true ∧ x.covers b = true ↔ x.covers (a.span b) = true) ∧
    a.intersection? b = b.intersection? a ∧
    a.overlaps b = b.overlaps a ∧
    a.isTouching b = b.isTouching a ∧
    (a.span b == b.span a) = true :=
  ⟨covers_refl a, covers_trans, covers_antisymm_iff, covers_intersection?_iff, isSome_intersection? a b,
    fun _ => contains_intersection?_iff, covers_span_iff, intersection?_comm a b, overlaps_comm a b,
    isTouching_comm a b, span_comm a b⟩

/-- Three intervals, each within the one before. -/
theorem form_a_lattice_nested :
    let a : Interval ℕ := ⟨.inclusive 0, .unbounded⟩
    let b : Interval ℕ := ⟨.exclusive 2, .inclusive 7⟩
    let c : Interval ℕ := ⟨.inclusive 3, .exclusive 7⟩
    a.covers b = true ∧ b.covers c = true ∧ a.covers c = true := by
  intro a b c
  have hab : a.covers b = true := by decide
  have hbc : b.covers c = true := by decide
  obtain ⟨-, htrans, -⟩ := form_a_lattice a b c c
  exact ⟨hab, hbc, htrans hab hbc⟩

end Interval

end CodeAtlas
