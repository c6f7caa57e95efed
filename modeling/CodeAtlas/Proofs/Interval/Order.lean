import CodeAtlas.Proofs.Interval.Cut

/-!
# One order of all ends

Lower bounds are compared in one way and upper bounds in another, and at equal values the two ways disagree; that
an upper bound ends before a lower one begins, or exactly there, is found out in yet other ways.  All of these are
comparisons in the one linear order of cuts.  So is what is said about the places of intervals: of two stretches of
cuts that hold something, either one ends before the other begins, or both hold a cut.

* `Bound.exists_complement?` — the complement of a bound makes the same cut from the other side;
* `Bound.Selects`, `Bound.selects_of_injective` — the later and the earlier of two bounds are among the two, as the
  later and the earlier of two cuts are;
* `Interval.isBefore_trans`, `Interval.isBefore_asymm`, `Interval.overlaps_eq_not_isBefore` — the order of
  intervals;
* `Interval.ends_are_ordered_as_cuts` — all this together.
-/

namespace CodeAtlas

universe u

namespace Bound

variable {T : Type u}

/-- A bound that limits has a complement, which makes the same cut from the other side. -/
theorem exists_complement? {x : Bound T} (hx : x.isUnbounded = false) :
    ∃ y ∈ x.complement?, y.upperCut = x.lowerCut ∧ y.lowerCut = x.upperCut := by
  cases x with
  | unbounded => cases hx
  | inclusive v => exact ⟨exclusive v, rfl, rfl, rfl⟩
  | exclusive v => exact ⟨inclusive v, rfl, rfl, rfl⟩

/-- A choice between two bounds takes one of them, and that the one whose cut is the best of the two. -/
def Selects (choose : Bound T → Bound T → Bound T) (cut : Bound T → Cut T) (best : Cut T → Cut T → Cut T) :
    Prop :=
  ∀ x y, (choose x y = x ∨ choose x y = y) ∧ cut (choose x y) = best (cut x) (cut y)

/-- The best of two cuts is one of them, and a bound can be told from its cut. -/
theorem selects_of_injective {choose : Bound T → Bound T → Bound T} {cut : Bound T → Cut T}
    {best : Cut T → Cut T → Cut T} (hcut : Function.Injective cut) (hbest : ∀ c d, best c d = c ∨ best c d = d)
    (h : ∀ x y, cut (choose x y) = best (cut x) (cut y)) : Selects choose cut best := by
  intro x y
  refine ⟨?_, h x y⟩
  rcases hbest (cut x) (cut y) with hleft | hright
  · exact Or.inl (hcut ((h x y).trans hleft))
  · exact Or.inr (hcut ((h x y).trans hright))

end Bound

variable {T : Type u} [LinearOrder T]

namespace Interval

variable {a b c : Interval T}

/-! ## Before and after -/

theorem isBefore_irrefl (a : Interval T) : ¬a.isBefore a = true := by
  rw [isBefore_iff]
  rintro ⟨hlt, -, hle⟩
  exact absurd hle (not_le.2 hlt)

/-- What comes before an interval comes before all that the interval comes before: the one in the middle is not
empty, so it ends after it begins. -/
theorem isBefore_trans (hab : a.isBefore b = true) (hbc : b.isBefore c = true) : a.isBefore c = true := by
  obtain ⟨ha, hb, hend⟩ := isBefore_iff.1 hab
  obtain ⟨-, hc, hend'⟩ := isBefore_iff.1 hbc
  refine isBefore_iff.2 ⟨ha, hc, ?_⟩
  calc
    a.up ≤ b.lo := hend
    _ ≤ b.up := hb.le
    _ ≤ c.lo := hend'

instance : IsStrictOrder (Interval T) fun a b => a.isBefore b = true where
  irrefl := isBefore_irrefl
  trans _ _ _ := isBefore_trans

theorem isBefore_asymm (hab : a.isBefore b = true) : b.isBefore a = false := by
  rw [← Bool.not_eq_true]
  intro hba
  exact isBefore_irrefl a (isBefore_trans hab hba)

/-- Intervals that are not empty overlap if neither ends before the other begins. -/
theorem overlaps_eq_not_isBefore (ha : a.isEmpty = false) (hb : b.isEmpty = false) :
    a.overlaps b = (!a.isBefore b && !b.isBefore a) := by
  rw [isEmpty_eq_false_iff] at ha hb
  rw [Bool.eq_iff_iff, overlaps_iff, Bool.and_eq_true, not_isBefore_iff_lt ha hb, not_isBefore_iff_lt hb ha]
  constructor
  · rintro ⟨-, -, hleft, hright⟩
    exact ⟨hright, hleft⟩
  · rintro ⟨hright, hleft⟩
    exact ⟨ha, hb, hleft, hright⟩

/-- Exactly one of the three holds: with overlapping said in terms of the other two, only these are left to tell
apart, and they exclude each other. -/
theorem isBefore_trichotomy (ha : a.isEmpty = false) (hb : b.isEmpty = false) :
    [a.isBefore b, b.isBefore a, a.overlaps b].count true = 1 := by
  rw [overlaps_eq_not_isBefore ha hb]
  cases hab : a.isBefore b with
  | true =>
    rw [isBefore_asymm hab]
    rfl
  | false => cases b.isBefore a <;> rfl

/-! ## All ends in one order -/

/-- **The ends of intervals are ordered as cuts.**  The cuts form a line from `bottom` to `top`, each value between
its own two.  A bound makes one cut as a lower and another as an upper bound.  Both comparisons of bounds compare
the cuts that they make; a lower bound leaves nothing below an upper one if its cut does not come before the cut of
that, and begins exactly where it ends if the cuts are equal; the complement of a bound makes the same cut from the
other side; the later and the earlier of two bounds are those with the later and the earlier cut.  Of two intervals
that are not empty, either one is before the other, or the other before it, or they overlap, and never two of
these; and being before is a strict order. -/
theorem ends_are_ordered_as_cuts :
    ((∀ c : Cut T, .bottom ≤ c ∧ c ≤ .top) ∧
      (∀ v : T, Cut.below v < .above v) ∧ ∀ v w : T, Cut.above v < .below w ↔ v < w) ∧
    ((∀ v : T, (Bound.inclusive v).lowerCut = .below v ∧ (Bound.exclusive v).lowerCut = .above v ∧
        (Bound.inclusive v).upperCut = .above v ∧ (Bound.exclusive v).upperCut = .below v) ∧
      (.unbounded : Bound T).lowerCut = .bottom ∧ (.unbounded : Bound T).upperCut = .top) ∧
    (∀ x y : Bound T, x.compareLower y = compare x.lowerCut y.lowerCut) ∧
    (∀ x y : Bound T, x.compareUpper y = compare x.upperCut y.upperCut) ∧
    (∀ l u : Bound T, l.lowerAfterUpper u = true ↔ u.upperCut ≤ l.lowerCut) ∧
    (∀ u l : Bound T, u.touching l = true ↔ u.upperCut = l.lowerCut) ∧
    (∀ x : Bound T, x.isUnbounded = false →
      ∃ y ∈ x.complement?, y.upperCut = x.lowerCut ∧ y.lowerCut = x.upperCut) ∧
    (Bound.Selects (T := T) Bound.maxLower Bound.lowerCut max ∧
      Bound.Selects (T := T) Bound.minLower Bound.lowerCut min ∧
      Bound.Selects (T := T) Bound.maxUpper Bound.upperCut max ∧
      Bound.Selects (T := T) Bound.minUpper Bound.upperCut min) ∧
    (∀ a b : Interval T, a.isEmpty = false → b.isEmpty = false →
      [a.isBefore b, b.isBefore a, a.overlaps b].count true = 1) ∧
    IsStrictOrder (Interval T) fun a b => a.isBefore b = true := by
  have hline : ∀ c : Cut T, .bottom ≤ c ∧ c ≤ .top := fun c => ⟨Cut.bottom_le c, Cut.le_top c⟩
  have hsides : ∀ v : T, Cut.below v < .above v := fun v => Cut.below_lt_above.2 (le_refl v)
  refine ⟨⟨hline, hsides, fun _ _ => Cut.above_lt_below⟩, ⟨fun _ => ⟨rfl, rfl, rfl, rfl⟩, rfl, rfl⟩,
    Bound.compareLower_eq, Bound.compareUpper_eq, fun _ _ => Bound.lowerAfterUpper_iff,
    fun _ _ => Bound.touching_iff, fun _ => Bound.exists_complement?, ⟨?_, ?_, ?_, ?_⟩,
    fun _ _ => isBefore_trichotomy, inferInstance⟩
  · exact Bound.selects_of_injective Bound.lowerCut_injective max_choice Bound.lowerCut_maxLower
  · exact Bound.selects_of_injective Bound.lowerCut_injective min_choice Bound.lowerCut_minLower
  · exact Bound.selects_of_injective Bound.upperCut_injective max_choice Bound.upperCut_maxUpper
  · exact Bound.selects_of_injective Bound.upperCut_injective min_choice Bound.upperCut_minUpper

/-- Two intervals that meet at a value which belongs to the first. -/
theorem ends_are_ordered_as_cuts_touchingIntervals :
    let a : Interval ℕ := ⟨.inclusive 1, .inclusive 5⟩
    let b : Interval ℕ := ⟨.exclusive 5, .unbounded⟩
    a.upper.isUnbounded = false ∧
      (∃ y ∈ a.upper.complement?, y.upperCut = a.upper.lowerCut ∧ y.lowerCut = a.upper.upperCut) ∧
      a.isEmpty = false ∧ b.isEmpty = false ∧ [a.isBefore b, b.isBefore a, a.overlaps b].count true = 1 := by
  intro a b
  have hupper : a.upper.isUnbounded = false := by decide
  have ha : a.isEmpty = false := by decide
  have hb : b.isEmpty = false := by decide
  obtain ⟨-, -, -, -, -, -, hcomplement, -, htrichotomy, -⟩ := ends_are_ordered_as_cuts (T := ℕ)
  exact ⟨hupper, hcomplement a.upper hupper, ha, hb, htrichotomy a b ha hb⟩

end Interval

end CodeAtlas
