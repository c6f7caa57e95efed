import CodeAtlas.Interval.Basic
import Mathlib.Data.Prod.Lex
import Mathlib.Order.Compare
import Mathlib.Order.MinMax
import Mathlib.Order.WithBot

/-!
# Cuts

A bound cuts the line of values in two.  The cuts, just below or just above a value or at an end of the line,
are linearly ordered, and all that is said about bounds and intervals is said about cuts: an interval is a
half-open stretch of them, from the cut of its lower bound up to the cut of its upper bound.

* `Cut` with its linear order, and the comparisons of its four kinds as `simp` rules;
* `Bound.lowerCut`, `Bound.upperCut` — the cut that a bound makes on either side;
* `Interval.lo`, `Interval.up`, `Interval.Holds` — the stretch of an interval;
* one lemma per operation on bounds and intervals that translates it (`isEmpty_iff`, `contains_iff`,
  `isBefore_iff`, `covers_iff`, `intersection?_eq_some`, …).

A value `v` is met at the cut `below v`: it belongs to an interval if that cut lies in the stretch.
-/

namespace CodeAtlas

universe u

/-- A place between values. -/
inductive Cut (T : Type u) where
  | bottom
  | below (v : T)
  | above (v : T)
  | top

namespace Cut

variable {T : Type u}

/-- Cuts as pairs of a value and a side, with two ends. -/
def key : Cut T → WithBot (WithTop (T ×ₗ Bool))
  | bottom => ⊥
  | below v => ((toLex (v, false) : T ×ₗ Bool) : WithTop (T ×ₗ Bool))
  | above v => ((toLex (v, true) : T ×ₗ Bool) : WithTop (T ×ₗ Bool))
  | top => (⊤ : WithTop (T ×ₗ Bool))

theorem key_injective : Function.Injective (key : Cut T → _) := by
  intro a b h
  cases a <;> cases b <;> first
    | rfl
    | (cases h; rfl)
    | cases h

variable [LinearOrder T]

instance : LinearOrder (Cut T) := LinearOrder.lift' key key_injective

theorem le_iff_key {a b : Cut T} : a ≤ b ↔ a.key ≤ b.key := Iff.rfl

@[simp] theorem bottom_le (c : Cut T) : bottom ≤ c := by
  rw [le_iff_key]
  exact bot_le

@[simp] theorem le_top (c : Cut T) : c ≤ top := by
  rw [le_iff_key]
  cases c <;> simp [key]

@[simp] theorem below_le_below {x y : T} : below x ≤ below y ↔ x ≤ y := by
  rw [le_iff_key, le_iff_lt_or_eq (a := x)]
  simp [key, Prod.Lex.le_iff]

@[simp] theorem above_le_above {x y : T} : above x ≤ above y ↔ x ≤ y := by
  rw [le_iff_key, le_iff_lt_or_eq (a := x)]
  simp [key, Prod.Lex.le_iff]

@[simp] theorem below_le_above {x y : T} : below x ≤ above y ↔ x ≤ y := by
  rw [le_iff_key, le_iff_lt_or_eq (a := x)]
  simp [key, Prod.Lex.le_iff]

@[simp] theorem above_le_below {x y : T} : above x ≤ below y ↔ x < y := by
  simp [le_iff_key, key, Prod.Lex.le_iff]

@[simp] theorem not_below_le_bottom {x : T} : ¬below x ≤ bottom := by
  simp [le_iff_key, key]

@[simp] theorem not_above_le_bottom {x : T} : ¬above x ≤ bottom := by
  simp [le_iff_key, key]

@[simp] theorem not_top_le_bottom : ¬(top : Cut T) ≤ bottom := by
  simp [le_iff_key, key]

@[simp] theorem not_top_le_below {x : T} : ¬top ≤ below x := by
  simp [le_iff_key, key]

@[simp] theorem not_top_le_above {x : T} : ¬top ≤ above x := by
  simp [le_iff_key, key]

@[simp] theorem below_lt_below {x y : T} : below x < below y ↔ x < y := by
  rw [← not_le, below_le_below, not_le]

@[simp] theorem above_lt_above {x y : T} : above x < above y ↔ x < y := by
  rw [← not_le, above_le_above, not_le]

@[simp] theorem below_lt_above {x y : T} : below x < above y ↔ x ≤ y := by
  rw [← not_le, above_le_below, not_lt]

@[simp] theorem above_lt_below {x y : T} : above x < below y ↔ x < y := by
  rw [← not_le, below_le_above, not_le]

@[simp] theorem bottom_lt_iff {c : Cut T} : bottom < c ↔ c ≠ bottom := by
  rw [← not_le]
  cases c <;> simp

@[simp] theorem lt_top_iff {c : Cut T} : c < top ↔ c ≠ top := by
  rw [← not_le]
  cases c <;> simp

@[simp] theorem not_lt_bottom {c : Cut T} : ¬c < bottom :=
  not_lt.2 (bottom_le c)

@[simp] theorem not_top_lt {c : Cut T} : ¬top < c :=
  not_lt.2 (le_top c)

end Cut

/-! ## Bounds -/

namespace Bound

variable {T : Type u}

/-- The cut from which on values lie above a lower bound. -/
def lowerCut : Bound T → Cut T
  | unbounded => .bottom
  | inclusive x => .below x
  | exclusive x => .above x

/-- The cut up to which values lie below an upper bound. -/
def upperCut : Bound T → Cut T
  | unbounded => .top
  | inclusive x => .above x
  | exclusive x => .below x

theorem lowerCut_injective : Function.Injective (lowerCut : Bound T → Cut T) := by
  intro x y h
  cases x <;> cases y <;> simp_all [lowerCut]

theorem upperCut_injective : Function.Injective (upperCut : Bound T → Cut T) := by
  intro x y h
  cases x <;> cases y <;> simp_all [upperCut]

theorem lowerCut_ne_top (b : Bound T) : b.lowerCut ≠ .top := by
  cases b <;> simp [lowerCut]

theorem upperCut_ne_bottom (b : Bound T) : b.upperCut ≠ .bottom := by
  cases b <;> simp [upperCut]

theorem isUnbounded_iff_lowerCut {b : Bound T} : b.isUnbounded = true ↔ b.lowerCut = .bottom := by
  cases b <;> simp [isUnbounded, lowerCut]

theorem isUnbounded_iff_upperCut {b : Bound T} : b.isUnbounded = true ↔ b.upperCut = .top := by
  cases b <;> simp [isUnbounded, upperCut]

/-- What comes before a lower bound, if anything, ends at its cut. -/
theorem lowerCut_cases (b : Bound T) :
    (b.complement? = none ∧ b.lowerCut = .bottom) ∨
      ∃ upper, b.complement? = some upper ∧ upper.upperCut = b.lowerCut := by
  cases b with
  | unbounded => exact Or.inl ⟨rfl, rfl⟩
  | inclusive x => exact Or.inr ⟨exclusive x, rfl, rfl⟩
  | exclusive x => exact Or.inr ⟨inclusive x, rfl, rfl⟩

/-- What follows an upper bound, if anything, begins at its cut. -/
theorem upperCut_cases (b : Bound T) :
    (b.complement? = none ∧ b.upperCut = .top) ∨
      ∃ lower, b.complement? = some lower ∧ lower.lowerCut = b.upperCut := by
  cases b with
  | unbounded => exact Or.inl ⟨rfl, rfl⟩
  | inclusive x => exact Or.inr ⟨exclusive x, rfl, rfl⟩
  | exclusive x => exact Or.inr ⟨inclusive x, rfl, rfl⟩

variable [LinearOrder T]

theorem lowerAfterUpper_iff {l u : Bound T} :
    lowerAfterUpper l u = true ↔ u.upperCut ≤ l.lowerCut := by
  cases l <;> cases u <;>
    simp [lowerAfterUpper, lowerCut, upperCut, Ordering.isGE_iff_ne_lt, compare_gt_iff_gt,
      compare_ge_iff_ge, Ordering.isGT_iff_eq_gt]

theorem touching_iff {u l : Bound T} : touching u l = true ↔ u.upperCut = l.lowerCut := by
  cases l <;> cases u <;> simp [touching, lowerCut, upperCut]

theorem compareLower_eq (x y : Bound T) : compareLower x y = compare x.lowerCut y.lowerCut := by
  symm
  rw [compare_iff]
  cases x <;> cases y <;> simp only [compareLower, lowerCut]
  case inclusive.inclusive a b | exclusive.exclusive a b | inclusive.exclusive a b
      | exclusive.inclusive a b =>
    rcases lt_trichotomy a b with h | h | h
    · simp [compare_lt_iff_lt.2 h, Ordering.Compares, h, h.le]
    · simp [Ordering.Compares, h]
    · simp [compare_gt_iff_gt.2 h, Ordering.Compares, h, h.le]
  all_goals simp [Ordering.Compares]

theorem compareUpper_eq (x y : Bound T) : compareUpper x y = compare x.upperCut y.upperCut := by
  symm
  rw [compare_iff]
  cases x <;> cases y <;> simp only [compareUpper, upperCut]
  case inclusive.inclusive a b | exclusive.exclusive a b | inclusive.exclusive a b
      | exclusive.inclusive a b =>
    rcases lt_trichotomy a b with h | h | h
    · simp [compare_lt_iff_lt.2 h, Ordering.Compares, h, h.le]
    · simp [Ordering.Compares, h]
    · simp [compare_gt_iff_gt.2 h, Ordering.Compares, h, h.le]
  all_goals simp [Ordering.Compares]

theorem isLE_compareUpper {x y : Bound T} :
    (compareUpper x y).isLE = true ↔ x.upperCut ≤ y.upperCut := by
  rw [compareUpper_eq, Ordering.isLE_iff_ne_gt, ← compare_le_iff_le]

@[simp] theorem lowerCut_maxLower (x y : Bound T) :
    (maxLower x y).lowerCut = max x.lowerCut y.lowerCut := by
  simp only [maxLower, compareLower_eq, Ordering.isLT_iff_eq_lt, compare_lt_iff_lt]
  split
  · next h => exact (max_eq_right h.le).symm
  · next h => exact (max_eq_left (not_lt.1 h)).symm

@[simp] theorem lowerCut_minLower (x y : Bound T) :
    (minLower x y).lowerCut = min x.lowerCut y.lowerCut := by
  simp only [minLower, compareLower_eq, Ordering.isGT_iff_eq_gt, compare_gt_iff_gt]
  split
  · next h => exact (min_eq_right h.le).symm
  · next h => exact (min_eq_left (not_lt.1 h)).symm

@[simp] theorem upperCut_maxUpper (x y : Bound T) :
    (maxUpper x y).upperCut = max x.upperCut y.upperCut := by
  simp only [maxUpper, compareUpper_eq, Ordering.isLT_iff_eq_lt, compare_lt_iff_lt]
  split
  · next h => exact (max_eq_right h.le).symm
  · next h => exact (max_eq_left (not_lt.1 h)).symm

@[simp] theorem upperCut_minUpper (x y : Bound T) :
    (minUpper x y).upperCut = min x.upperCut y.upperCut := by
  simp only [minUpper, compareUpper_eq, Ordering.isGT_iff_eq_gt, compare_gt_iff_gt]
  split
  · next h => exact (min_eq_right h.le).symm
  · next h => exact (min_eq_left (not_lt.1 h)).symm

end Bound

/-! ## Intervals -/

namespace Interval

variable {T : Type u}

/-- The cut at which an interval begins. -/
def lo (i : Interval T) : Cut T :=
  i.lower.lowerCut

/-- The cut at which an interval ends. -/
def up (i : Interval T) : Cut T :=
  i.upper.upperCut

theorem ext_cuts {i j : Interval T} (hlo : i.lo = j.lo) (hup : i.up = j.up) : i = j := by
  cases i
  cases j
  rw [mk.injEq]
  exact ⟨Bound.lowerCut_injective hlo, Bound.upperCut_injective hup⟩

@[simp] theorem lo_ne_top (i : Interval T) : i.lo ≠ .top :=
  i.lower.lowerCut_ne_top

@[simp] theorem up_ne_bottom (i : Interval T) : i.up ≠ .bottom :=
  i.upper.upperCut_ne_bottom

variable [LinearOrder T]

/-- The cut lies in the stretch of the interval. -/
def Holds (i : Interval T) (c : Cut T) : Prop :=
  i.lo ≤ c ∧ c < i.up

instance (i : Interval T) (c : Cut T) : Decidable (i.Holds c) :=
  inferInstanceAs (Decidable (_ ∧ _))

theorem isEmpty_iff {i : Interval T} : i.isEmpty = true ↔ i.up ≤ i.lo :=
  Bound.lowerAfterUpper_iff

theorem isEmpty_eq_false_iff {i : Interval T} : i.isEmpty = false ↔ i.lo < i.up := by
  rw [← not_le, ← isEmpty_iff, Bool.not_eq_true]

theorem lt_of_holds {i : Interval T} {c : Cut T} (h : i.Holds c) : i.lo < i.up :=
  lt_of_le_of_lt h.1 h.2

theorem not_holds_of_isEmpty {i : Interval T} (h : i.isEmpty = true) (c : Cut T) : ¬i.Holds c := by
  intro hc
  exact absurd (isEmpty_iff.1 h) (not_le.2 (lt_of_holds hc))

/-- An interval is empty if it holds no cut. -/
theorem isEmpty_iff_forall_not_holds {i : Interval T} : i.isEmpty = true ↔ ∀ c, ¬i.Holds c := by
  constructor
  · exact not_holds_of_isEmpty
  · intro h
    rw [isEmpty_iff]
    by_contra hlt
    exact h i.lo ⟨le_refl _, not_le.1 hlt⟩

/-- Where an interval ends can be told from the cuts that it holds. -/
theorem up_le_of_holds {i : Interval T} {d : Cut T} (hi : i.lo < i.up) (h : ∀ c, i.Holds c → c < d) :
    i.up ≤ d := by
  by_contra hd
  have hmax : max i.lo d < i.up := max_lt hi (not_le.1 hd)
  exact absurd (h _ ⟨le_max_left _ _, hmax⟩) (not_lt.2 (le_max_right _ _))

theorem contains_iff {i : Interval T} {v : T} : i.contains v = true ↔ i.Holds (.below v) := by
  have hstart : i.startsBy v = true ↔ i.lo ≤ .below v := by
    unfold startsBy lo
    cases i.lower <;> simp [Bound.lowerCut, Ordering.isLE_iff_ne_gt, compare_le_iff_le,
      Ordering.isLT_iff_eq_lt, compare_lt_iff_lt]
  have hend : i.endsFrom v = true ↔ .below v < i.up := by
    unfold endsFrom up
    cases i.upper <;> simp [Bound.upperCut, Ordering.isLE_iff_ne_gt, compare_le_iff_le,
      Ordering.isLT_iff_eq_lt, compare_lt_iff_lt]
  rw [contains, Bool.and_eq_true, hstart, hend]
  exact Iff.rfl

theorem endsBefore_iff {i : Interval T} {v : T} : i.endsBefore v = true ↔ i.up ≤ .below v := by
  unfold endsBefore up
  cases i.upper <;> simp [Bound.upperCut, Ordering.isLE_iff_ne_gt, compare_le_iff_le,
    Ordering.isLT_iff_eq_lt, compare_lt_iff_lt]

theorem isBefore_iff {i j : Interval T} :
    i.isBefore j = true ↔ i.lo < i.up ∧ j.lo < j.up ∧ i.up ≤ j.lo := by
  simp only [isBefore, Bool.and_eq_true, Bool.not_eq_true', isEmpty_eq_false_iff,
    Bound.lowerAfterUpper_iff, and_assoc]
  exact Iff.rfl

/-- Among intervals that are not empty, one comes before another if it ends before the other begins. -/
theorem isBefore_iff_le {i j : Interval T} (hi : i.lo < i.up) (hj : j.lo < j.up) :
    i.isBefore j = true ↔ i.up ≤ j.lo := by
  rw [isBefore_iff]
  exact ⟨fun h => h.2.2, fun hle => ⟨hi, hj, hle⟩⟩

theorem not_isBefore_iff_lt {i j : Interval T} (hi : i.lo < i.up) (hj : j.lo < j.up) :
    (!i.isBefore j) = true ↔ j.lo < i.up := by
  rw [Bool.not_eq_true', ← Bool.not_eq_true, isBefore_iff_le hi hj, not_le]

theorem isTouching_iff {i j : Interval T} :
    i.isTouching j = true ↔ i.lo < i.up ∧ j.lo < j.up ∧ (i.up = j.lo ∨ j.up = i.lo) := by
  simp only [isTouching, Bool.and_eq_true, Bool.or_eq_true, Bool.not_eq_true', isEmpty_eq_false_iff,
    Bound.touching_iff, and_assoc]
  exact Iff.rfl

/-- One interval ends strictly before another begins. -/
theorem isApart_iff {i j : Interval T} (hi : i.lo < i.up) (hj : j.lo < j.up) :
    (i.isBefore j && !i.isTouching j) = true ↔ i.up < j.lo := by
  rw [Bool.and_eq_true, Bool.not_eq_true', ← Bool.not_eq_true, isBefore_iff, isTouching_iff]
  constructor
  · rintro ⟨⟨-, -, hle⟩, hnot⟩
    exact lt_of_le_of_ne hle fun heq => hnot ⟨hi, hj, Or.inl heq⟩
  · intro hlt
    refine ⟨⟨hi, hj, hlt.le⟩, ?_⟩
    rintro ⟨-, -, heq | heq⟩
    · exact absurd heq (ne_of_lt hlt)
    · have hcross : i.lo < j.up := lt_trans (lt_trans hi hlt) hj
      exact absurd heq.symm (ne_of_lt hcross)

theorem not_isApart_iff {i j : Interval T} (hi : i.lo < i.up) (hj : j.lo < j.up) :
    (!(i.isBefore j && !i.isTouching j)) = true ↔ j.lo ≤ i.up := by
  rw [Bool.not_eq_true', ← Bool.not_eq_true, isApart_iff hi hj, not_lt]

theorem covers_iff {i j : Interval T} :
    i.covers j = true ↔ j.up ≤ j.lo ∨ i.lo < i.up ∧ i.lo ≤ j.lo ∧ j.up ≤ i.up := by
  simp only [covers, Bool.and_eq_true, Bool.or_eq_true, Bool.not_eq_true', isEmpty_eq_false_iff,
    isEmpty_iff, Bound.compareLower_eq, Bound.compareUpper_eq, Ordering.isLE_iff_ne_gt,
    Ordering.isGE_iff_ne_lt, compare_le_iff_le, compare_ge_iff_ge, and_assoc]
  exact Iff.rfl

/-- An interval lies within another if all cuts that it holds do. -/
theorem covers_iff_forall_holds {i j : Interval T} :
    i.covers j = true ↔ ∀ c, j.Holds c → i.Holds c := by
  rw [covers_iff]
  constructor
  · rintro (hempty | ⟨-, hlo, hup⟩) c hc
    · exact absurd (lt_of_holds hc) (not_lt.2 hempty)
    · exact ⟨le_trans hlo hc.1, lt_of_lt_of_le hc.2 hup⟩
  · intro h
    by_cases hj : j.lo < j.up
    · have hstart : i.Holds j.lo := h j.lo ⟨le_refl _, hj⟩
      exact Or.inr ⟨lt_of_holds hstart, hstart.1, up_le_of_holds hj fun c hc => (h c hc).2⟩
    · exact Or.inl (not_lt.1 hj)

theorem covers_refl (i : Interval T) : i.covers i = true :=
  covers_iff_forall_holds.2 fun _ hc => hc

theorem overlaps_iff {i j : Interval T} :
    i.overlaps j = true ↔ i.lo < i.up ∧ j.lo < j.up ∧ i.lo < j.up ∧ j.lo < i.up := by
  have hcross : Bound.lowerAfterUpper (Bound.maxLower i.lower j.lower) (Bound.minUpper i.upper j.upper)
      = false ↔ max i.lo j.lo < min i.up j.up := by
    rw [← Bool.not_eq_true, Bound.lowerAfterUpper_iff, Bound.lowerCut_maxLower,
      Bound.upperCut_minUpper, not_le]
    exact Iff.rfl
  simp only [overlaps, Bool.and_eq_true, Bool.not_eq_true', isEmpty_eq_false_iff, hcross,
    max_lt_iff, lt_min_iff]
  tauto

/-- Intervals overlap if they hold a cut in common. -/
theorem overlaps_iff_exists_holds {i j : Interval T} :
    i.overlaps j = true ↔ ∃ c, i.Holds c ∧ j.Holds c := by
  rw [overlaps_iff]
  constructor
  · intro hover
    obtain ⟨hi, hj, hij, hji⟩ := hover
    exact ⟨max i.lo j.lo, ⟨le_max_left _ _, max_lt hi hji⟩, ⟨le_max_right _ _, max_lt hij hj⟩⟩
  · intro hcommon
    obtain ⟨c, hi, hj⟩ := hcommon
    exact ⟨lt_of_holds hi, lt_of_holds hj, lt_of_le_of_lt hi.1 hj.2, lt_of_le_of_lt hj.1 hi.2⟩

theorem intersection?_eq_some {i j k : Interval T} (h : i.intersection? j = some k) :
    k.lo = max i.lo j.lo ∧ k.up = min i.up j.up ∧ k.lo < k.up := by
  unfold intersection? at h
  split at h
  · next hover =>
    obtain ⟨hi, hj, hij, hji⟩ := overlaps_iff.1 hover
    cases h
    have hlo : (⟨Bound.maxLower i.lower j.lower, Bound.minUpper i.upper j.upper⟩ : Interval T).lo
        = max i.lo j.lo := Bound.lowerCut_maxLower _ _
    have hup : (⟨Bound.maxLower i.lower j.lower, Bound.minUpper i.upper j.upper⟩ : Interval T).up
        = min i.up j.up := Bound.upperCut_minUpper _ _
    refine ⟨hlo, hup, ?_⟩
    rw [hlo, hup, max_lt_iff, lt_min_iff, lt_min_iff]
    exact ⟨⟨hi, hij⟩, ⟨hji, hj⟩⟩
  · cases h

/-- What two intervals have in common is what both hold. -/
theorem holds_intersection? {i j : Interval T} {c : Cut T} :
    (∃ k ∈ i.intersection? j, k.Holds c) ↔ i.Holds c ∧ j.Holds c := by
  unfold intersection?
  split
  · next h =>
    simp only [Option.mem_def, Option.some.injEq, exists_eq_left', Holds, lo, up,
      Bound.lowerCut_maxLower, Bound.upperCut_minUpper, max_le_iff, lt_min_iff]
    tauto
  · next h =>
    simp only [Option.mem_def, reduceCtorEq, false_and, exists_false, false_iff]
    exact fun hboth => h (overlaps_iff_exists_holds.2 ⟨c, hboth⟩)

/-- What lies between a lower bound and the beginning of something. -/
theorem until?_eq_some {lower next : Bound T} {k : Interval T} (h : until? lower next = some k) :
    k.lo = lower.lowerCut ∧ k.up = next.lowerCut ∧ k.lo < k.up := by
  unfold until? at h
  rcases next.lowerCut_cases with ⟨hc, -⟩ | ⟨upper, hc, hcut⟩
  · rw [hc] at h
    cases h
  · rw [hc] at h
    by_cases hempty : (⟨lower, upper⟩ : Interval T).isEmpty = true
    · simp [hempty] at h
    · rw [Bool.not_eq_true] at hempty
      simp only [Option.bind_some, hempty, Bool.false_eq_true, if_false, Option.some.injEq] at h
      subst h
      exact ⟨rfl, hcut, isEmpty_eq_false_iff.1 hempty⟩

theorem holds_until? {lower next : Bound T} {c : Cut T} :
    (∃ k ∈ until? lower next, k.Holds c) ↔ lower.lowerCut ≤ c ∧ c < next.lowerCut := by
  unfold until?
  rcases next.lowerCut_cases with ⟨hc, hcut⟩ | ⟨upper, hc, hcut⟩
  · simp [hc, hcut]
  · rw [hc, ← hcut]
    by_cases hempty : (⟨lower, upper⟩ : Interval T).isEmpty = true
    · have hnone : ¬(lower.lowerCut ≤ c ∧ c < upper.upperCut) := not_holds_of_isEmpty hempty c
      simpa [hempty] using hnone
    · simp [hempty, Holds, lo, up]

/-- What lies between the end of something and an upper bound. -/
theorem after?_eq_some {previous upper : Bound T} {k : Interval T} (h : after? previous upper = some k) :
    k.lo = previous.upperCut ∧ k.up = upper.upperCut ∧ k.lo < k.up := by
  unfold after? at h
  rcases previous.upperCut_cases with ⟨hc, -⟩ | ⟨lower, hc, hcut⟩
  · rw [hc] at h
    cases h
  · rw [hc] at h
    by_cases hempty : (⟨lower, upper⟩ : Interval T).isEmpty = true
    · simp [hempty] at h
    · rw [Bool.not_eq_true] at hempty
      simp only [Option.bind_some, hempty, Bool.false_eq_true, if_false, Option.some.injEq] at h
      subst h
      exact ⟨hcut, rfl, isEmpty_eq_false_iff.1 hempty⟩

theorem holds_after? {previous upper : Bound T} {c : Cut T} :
    (∃ k ∈ after? previous upper, k.Holds c) ↔ previous.upperCut ≤ c ∧ c < upper.upperCut := by
  unfold after?
  rcases previous.upperCut_cases with ⟨hc, hcut⟩ | ⟨lower, hc, hcut⟩
  · simp only [hc, hcut, Option.bind_none, Option.mem_def, reduceCtorEq, false_and, exists_false, false_iff,
      not_and, not_lt]
    intro htop
    exact le_trans (Cut.le_top _) htop
  · rw [hc, ← hcut]
    by_cases hempty : (⟨lower, upper⟩ : Interval T).isEmpty = true
    · have hnone : ¬(lower.lowerCut ≤ c ∧ c < upper.upperCut) := not_holds_of_isEmpty hempty c
      simpa [hempty] using hnone
    · simp [hempty, Holds, lo, up]

end Interval

end CodeAtlas
