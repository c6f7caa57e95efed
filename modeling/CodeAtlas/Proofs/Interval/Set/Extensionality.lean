import CodeAtlas.Proofs.Interval.Set.Canonical
import Mathlib.Algebra.Order.Field.Basic
import Mathlib.Algebra.Order.Field.Rat

/-!
# What tells interval sets apart

Two interval sets are the same if they store the same intervals.  That can be seen from outside: they are the
same exactly when they cover the same intervals, over every ordered type.  Values see less, since an interval
such as `(1;2)` of whole numbers is stored though it holds none.  Over a dense order without ends every stretch
between two cuts holds a value, and then values tell sets apart as well as intervals do.

* `IntervalSet.covers_iff` — covering by bisection is covering cut by cut;
* `IntervalSet.covers_iff_forall_contains` — over a dense order without ends, covering value by value;
* `IntervalSet.History.same_iff_covers_and_contains` — sameness, seen from outside.
-/

namespace CodeAtlas

universe u

variable {T : Type u} [LinearOrder T]

/-! ## Sameness of stored intervals -/

/-- Intervals that are not empty are the same only if their bounds are. -/
theorem Interval.eq_of_beq {i j : Interval T} (hi : i.lo < i.up) (h : (i == j) = true) : i = j := by
  rcases beq_iff.1 h with heq | ⟨hempty, -⟩
  · exact heq
  · exact absurd (isEmpty_iff.1 hempty) (not_le.2 hi)

/-- A row without empty intervals is the same as another only if it is equal to it. -/
theorem Separated.eq_of_beq {l m : List (Interval T)} (hl : Separated l) (h : (l == m) = true) : l = m := by
  induction l generalizing m with
  | nil =>
    cases m with
    | nil => rfl
    | cons j m => cases h
  | cons i l ih =>
    cases m with
    | nil => cases h
    | cons j m =>
      obtain ⟨hi, -, hrest⟩ := Row.spaced_cons.1 hl
      rw [List.cons_beq_cons, Bool.and_eq_true] at h
      rw [Interval.eq_of_beq hi h.1, ih hrest h.2]

/-! ## Covering -/

/-- Where an interval of a row ends, nothing is covered. -/
theorem not_covered_up_of_mem {l : List (Interval T)} {k : Interval T} (h : Separated l) (hk : k ∈ l) :
    ¬Covered l k.up := by
  induction l with
  | nil => cases hk
  | cons i l ih =>
    obtain ⟨-, hrest, hsep⟩ := Row.spaced_cons.1 h
    rcases List.mem_cons.1 hk with rfl | hk
    · exact not_covered_up h
    · have hlate : i.up < k.up := lt_trans (hrest k hk) (hsep.nonempty k hk)
      rw [covered_cons]
      intro hcov
      rcases hcov with hcov | hcov
      · exact absurd hcov.2 (not_lt.2 hlate.le)
      · exact ih hsep hk hcov

/-- A cut that is not covered is followed by a stretch that is not covered. -/
theorem exists_bare_stretch {l : List (Interval T)} {c : Cut T} (hc : c ≠ .top) (h : ¬Covered l c) :
    ∃ d, c < d ∧ ∀ e, c ≤ e → e < d → ¬Covered l e := by
  induction l with
  | nil => exact ⟨.top, Cut.lt_top_iff.2 hc, fun e _ _ => covered_nil e⟩
  | cons i l ih =>
    rw [covered_cons, not_or] at h
    obtain ⟨d, hd, hbare⟩ := ih h.2
    by_cases hlo : i.lo ≤ c
    · -- `i` has ended by then
      have hup : i.up ≤ c := not_lt.1 fun hlt => h.1 ⟨hlo, hlt⟩
      refine ⟨d, hd, ?_⟩
      intro e hce hed
      rw [covered_cons, not_or]
      exact ⟨fun hold => absurd hold.2 (not_lt.2 (le_trans hup hce)), hbare e hce hed⟩
    · refine ⟨min d i.lo, lt_min hd (not_le.1 hlo), ?_⟩
      intro e hce hed
      rw [lt_min_iff] at hed
      rw [covered_cons, not_or]
      exact ⟨fun hold => absurd hold.1 (not_le.2 hed.2), hbare e hce hed.1⟩

namespace IntervalSet

/-- The first interval that does not lie before `j` is the one that holds the cut where `j` begins. -/
theorem place_of_holds {s : IntervalSet T} (h : Separated s.toList) {j k : Interval T} (hj : j.lo < j.up)
    (hk : k ∈ s.toList) (hold : k.Holds j.lo) :
    s.intervals[Row.partitionPoint s.intervals fun i => i.isBefore j]? = some k := by
  obtain ⟨before, after, hrow⟩ := List.append_of_mem hk
  have hsep := h
  rw [hrow] at hsep
  obtain ⟨-, htail, hbefore⟩ := Row.spaced_append.1 hsep
  obtain ⟨-, hafter, -⟩ := Row.spaced_cons.1 htail
  have hplace : Row.partitionPoint s.intervals (fun i => i.isBefore j) = before.length := by
    refine Row.partitionPoint_eq hrow ?_ ?_
    · intro a ha
      have hmem : a ∈ s.toList := by
        rw [hrow]
        exact List.mem_append_left _ ha
      have hle : a.up ≤ j.lo := le_trans (hbefore a ha k List.mem_cons_self).le hold.1
      exact Interval.isBefore_iff.2 ⟨h.nonempty a hmem, hj, hle⟩
    · intro b hb
      have hlate : j.lo < b.up := by
        rcases List.mem_cons.1 hb with rfl | hb'
        · exact hold.2
        · calc
            j.lo < k.up := hold.2
            _ < b.lo := hafter b hb'
            _ < b.up := htail.nonempty b hb
      rw [← Bool.not_eq_true, Interval.isBefore_iff]
      intro hle
      exact absurd hle.2.2 (not_le.2 hlate)
  rw [hplace, ← Array.getElem?_toList]
  show s.toList[before.length]? = some k
  rw [hrow, List.getElem?_append_right (Nat.le_refl _), Nat.sub_self, List.getElem?_cons_zero]

/-- **Covering by bisection is covering cut by cut.** -/
theorem covers_iff {s : IntervalSet T} (h : Separated s.toList) {j : Interval T} :
    s.covers j = true ↔ ∀ c, j.Holds c → Covered s.toList c := by
  cases hj : j.isEmpty with
  | true =>
    have hnone := Interval.not_holds_of_isEmpty hj
    simp [covers, hj, hnone]
  | false =>
    have hlt : j.lo < j.up := Interval.isEmpty_eq_false_iff.1 hj
    rw [covers, hj, Bool.false_or, Option.any_eq_true]
    constructor
    · intro hcov c hc
      obtain ⟨k, hk, hkj⟩ := hcov
      obtain ⟨-, hlo, hup⟩ := (Interval.covers_iff.1 hkj).resolve_left (not_le.2 hlt)
      have hmem : k ∈ s.toList := by
        rw [← Array.getElem?_toList] at hk
        exact List.mem_of_getElem? hk
      exact ⟨k, hmem, le_trans hlo hc.1, lt_of_lt_of_le hc.2 hup⟩
    · intro hall
      obtain ⟨k, hk, hold⟩ := hall j.lo ⟨le_refl _, hlt⟩
      refine ⟨k, place_of_holds h hlt hk hold, Interval.covers_iff.2 (Or.inr ⟨?_, hold.1, ?_⟩)⟩
      · exact h.nonempty k hk
      · -- if `j` went on, the cut where `k` ends would be covered
        by_contra hon
        exact not_covered_up_of_mem h hk (hall k.up ⟨hold.2.le, not_le.1 hon⟩)

/-- Sets that cover the same intervals cover the same cuts. -/
theorem covered_of_covers {s t : IntervalSet T} (hs : Separated s.toList) (ht : Separated t.toList)
    (h : ∀ i, s.covers i = true → t.covers i = true) {c : Cut T} (hc : Covered s.toList c) :
    Covered t.toList c := by
  obtain ⟨k, hk, hold⟩ := hc
  have hself : s.covers k = true := (covers_iff hs).2 fun d hd => ⟨k, hk, hd⟩
  exact (covers_iff ht).1 (h k hself) c hold

end IntervalSet

/-! ## Values of a dense order without ends -/

section Dense

variable [Nonempty T] [DenselyOrdered T] [NoMinOrder T] [NoMaxOrder T]

/-- Between two cuts there is a value. -/
theorem Cut.exists_value {c d : Cut T} (h : c < d) : ∃ v, c ≤ below v ∧ below v < d := by
  cases c with
  | top => exact absurd h not_top_lt
  | below x => exact ⟨x, le_refl _, h⟩
  | bottom =>
    cases d with
    | bottom => exact absurd h not_lt_bottom
    | below y =>
      obtain ⟨v, hv⟩ := exists_lt y
      exact ⟨v, bottom_le _, below_lt_below.2 hv⟩
    | above y => exact ⟨y, bottom_le _, below_lt_above.2 (le_refl y)⟩
    | top =>
      obtain ⟨v⟩ := ‹Nonempty T›
      exact ⟨v, bottom_le _, lt_top_iff.2 (by simp)⟩
  | above x =>
    cases d with
    | bottom => exact absurd h not_lt_bottom
    | below y =>
      obtain ⟨v, hxv, hvy⟩ := exists_between (above_lt_below.1 h)
      exact ⟨v, above_le_below.2 hxv, below_lt_below.2 hvy⟩
    | above y =>
      have hxy : x < y := above_lt_above.1 h
      exact ⟨y, above_le_below.2 hxy, below_lt_above.2 (le_refl y)⟩
    | top =>
      obtain ⟨v, hv⟩ := exists_gt x
      exact ⟨v, above_le_below.2 hv, lt_top_iff.2 (by simp)⟩

namespace IntervalSet

/-- **Over a dense order without ends, covering is containing every value.** -/
theorem covers_iff_forall_contains {s : IntervalSet T} (h : Separated s.toList) {j : Interval T} :
    s.covers j = true ↔ ∀ v, j.contains v = true → s.contains v = true := by
  rw [covers_iff h]
  constructor
  · intro hall v hv
    exact (contains_iff h).2 (hall _ (Interval.contains_iff.1 hv))
  · intro hall c hc
    by_contra hbare
    -- a stretch of `j` from `c` on is not covered, and some value lies in it
    obtain ⟨d, hd, hnone⟩ := exists_bare_stretch (Cut.lt_top_iff.1 (lt_of_lt_of_le hc.2 (Cut.le_top _))) hbare
    obtain ⟨v, hcv, hvd⟩ := Cut.exists_value (lt_min hd hc.2)
    rw [lt_min_iff] at hvd
    have hin : s.contains v = true := hall v (Interval.contains_iff.2 ⟨le_trans hc.1 hcv, hvd.2⟩)
    exact hnone _ hcv hvd.1 ((contains_iff h).1 hin)

/-- Over such an order a set without values stores nothing. -/
theorem isEmpty_iff_forall_contains {s : IntervalSet T} (h : Separated s.toList) :
    s.isEmpty = true ↔ ∀ v, s.contains v = false := by
  rw [isEmpty_iff_toList_eq_nil]
  constructor
  · intro hnil v
    rw [← Bool.not_eq_true, contains_iff h, hnil]
    exact covered_nil _
  · intro hnone
    cases hl : s.toList with
    | nil => rfl
    | cons i l =>
      have hi : i ∈ s.toList := by
        rw [hl]
        exact List.mem_cons_self
      obtain ⟨v, hlo, hup⟩ := Cut.exists_value (h.nonempty i hi)
      have hv : s.contains v = true := (contains_iff h).2 ⟨i, hi, hlo, hup⟩
      rw [hnone v] at hv
      cases hv

end IntervalSet

end Dense

/-! ## Sets however they came about -/

namespace IntervalSet.History

theorem same_iff_toList_eq {a b : History T} : Same a b ↔ a.result.toList = b.result.toList := by
  constructor
  · intro h
    exact a.separated_result.eq_of_beq h
  · intro h
    show (a.result.toList == b.result.toList) = true
    rw [h]
    exact BEq.rfl

theorem same_iff_covers {a b : History T} :
    Same a b ↔ ∀ i, a.result.covers i = b.result.covers i := by
  constructor
  · intro h i
    rw [Bool.eq_iff_iff, covers_iff a.separated_result, covers_iff b.separated_result,
      same_iff_toList_eq.1 h]
  · intro h
    refine same_iff_toList_eq.2 (eq_of_covered_iff a.separated_result b.separated_result fun c => ⟨?_, ?_⟩)
    · exact covered_of_covers a.separated_result b.separated_result fun i hi => by rw [← h i, hi]
    · exact covered_of_covers b.separated_result a.separated_result fun i hi => by rw [h i, hi]

/-- **Sameness, seen from outside.**  Sets however they came about are the same exactly when they cover the
same intervals.  Over a dense order without ends they are the same exactly when they contain the same values;
a set is empty exactly when it contains none, and covers an interval exactly when it contains every value of
it. -/
theorem same_iff_covers_and_contains (a b : History T) :
    (Same a b ↔ ∀ i, a.result.covers i = b.result.covers i) ∧
    (Nonempty T → DenselyOrdered T → NoMinOrder T → NoMaxOrder T →
      (Same a b ↔ ∀ v, a.result.contains v = b.result.contains v) ∧
      (a.result.isEmpty = true ↔ ∀ v, a.result.contains v = false) ∧
      ∀ i, a.result.covers i = true ↔ ∀ v, i.contains v = true → a.result.contains v = true) := by
  refine ⟨same_iff_covers, ?_⟩
  intro _ _ _ _
  have ha := a.separated_result
  have hb := b.separated_result
  refine ⟨⟨?_, ?_⟩, isEmpty_iff_forall_contains ha, fun i => covers_iff_forall_contains ha⟩
  · intro h v
    rw [Bool.eq_iff_iff, contains_iff ha, contains_iff hb, same_iff_toList_eq.1 h]
  · intro h
    rw [same_iff_covers]
    intro i
    rw [Bool.eq_iff_iff, covers_iff_forall_contains ha, covers_iff_forall_contains hb]
    simp only [h]

/-- Two halves that touch and the whole are the same set of rational numbers, so they contain the same ones;
and all that lies between the ends is contained. -/
theorem same_iff_covers_and_contains_halves :
    let a : History ℚ := ofList [⟨.inclusive 1, .inclusive 2⟩, ⟨.inclusive 0, .exclusive 1⟩]
    let b : History ℚ := ofList [⟨.inclusive 0, .inclusive 2⟩]
    Same a b ∧ (∀ v, a.result.contains v = b.result.contains v) ∧
      ∀ v, (⟨.exclusive 0, .exclusive 2⟩ : Interval ℚ).contains v = true → a.result.contains v = true := by
  intro a b
  have hsame : (a.result == b.result) = true := by decide +kernel
  have hcovers : a.result.covers ⟨.exclusive 0, .exclusive 2⟩ = true := by decide +kernel
  obtain ⟨-, hdense⟩ := same_iff_covers_and_contains a b
  obtain ⟨hcontains, -, hvalues⟩ := hdense inferInstance inferInstance inferInstance inferInstance
  exact ⟨hsame, hcontains.1 hsame, (hvalues _).1 hcovers⟩

end IntervalSet.History

end CodeAtlas
