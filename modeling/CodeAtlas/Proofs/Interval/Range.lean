import CodeAtlas.Interval.Map
import CodeAtlas.Proofs.Interval.Order
import CodeAtlas.Proofs.Interval.Row

/-!
# Ranges found by bisection

The stretch of a row that a change is about has two ends, and each is looked for by a bisection of its own.  What
lies before the place that a bisection finds satisfies its predicate and what lies from there on does not, provided
that the predicate turns false at most once along the row.  Of a row of intervals in order this is true of every
predicate that is used: each says of an interval that it begins, or that it ends, before some cut.  So the range
holds exactly the places between the two, which are those of the intervals that the change meets.

* `Row.InOrder`, `Row.InOrder.ascending` — rows of intervals, each of which comes before the next;
* `Row.TurnsOnce.lt_partitionPoint_iff` — what a bisection says about every place of the row;
* `Row.ExactRange`, `Row.exactRange_of_turnsOnce` — a range between two bisections;
* `Row.exactRange_overlapping`, `Row.exactRange_touching` — the two ranges that are looked for;
* `Row.ranges_are_exact` — the ranges of sets and maps.
-/

namespace CodeAtlas.Row

universe u v w

variable {α : Type v} {T : Type u} [LinearOrder T] {key : α → Interval T}

/-! ## Rows in order -/

/-- Items with non-empty intervals, each of which comes before the next.  They may touch. -/
structure InOrder (key : α → Interval T) (l : List α) : Prop where
  nonempty : ∀ a ∈ l, (key a).isEmpty = false
  before : l.IsChain fun a b => (key a).isBefore (key b) = true

/-- Each item comes before all later ones, not only before the next. -/
theorem InOrder.ascending {l : List α} (h : InOrder key l) : Ascending key l := by
  have : Trans (fun a b => (key a).isBefore (key b) = true) (fun a b => (key a).isBefore (key b) = true)
      (fun a b => (key a).isBefore (key b) = true) := ⟨Interval.isBefore_trans⟩
  refine ⟨fun a ha => Interval.isEmpty_eq_false_iff.1 (h.nonempty a ha), ?_⟩
  exact h.before.pairwise.imp fun hab => (Interval.isBefore_iff.1 hab).2.2

/-! ## Predicates that turn once -/

section Predicates

variable {l : List α} {j : Interval T}

theorem Spaced.turnsOnce_isBefore (h : Ascending key l) (hj : j.lo < j.up) :
    TurnsOnce (fun e => (key e).isBefore j) l :=
  h.turnsOnce_up (P := (· ≤ j.lo)) (fun e he => Interval.isBefore_iff_le (h.nonempty e he) hj) le_trans

theorem Spaced.turnsOnce_not_isBefore (h : Ascending key l) (hj : j.lo < j.up) :
    TurnsOnce (fun e => !j.isBefore (key e)) l :=
  h.turnsOnce_lo (Q := (· < j.up)) (fun e he => Interval.not_isBefore_iff_lt hj (h.nonempty e he)) lt_of_le_of_lt

theorem Spaced.turnsOnce_isApart (h : Ascending key l) (hj : j.lo < j.up) :
    TurnsOnce (fun e => (key e).isBefore j && !(key e).isTouching j) l :=
  h.turnsOnce_up (P := (· < j.lo)) (fun e he => Interval.isApart_iff (h.nonempty e he) hj) lt_of_le_of_lt

theorem Spaced.turnsOnce_not_isApart (h : Ascending key l) (hj : j.lo < j.up) :
    TurnsOnce (fun e => !(j.isBefore (key e) && !j.isTouching (key e))) l :=
  h.turnsOnce_lo (Q := (· ≤ j.up)) (fun e he => Interval.not_isApart_iff hj (h.nonempty e he)) le_trans

end Predicates

/-! ## Places -/

/-- **What a bisection says about a place**: it lies before the place that is found exactly if its item satisfies
the predicate. -/
theorem TurnsOnce.lt_partitionPoint_iff {row : Array α} {p : α → Bool} (h : TurnsOnce p row.toList) {k : Nat}
    {a : α} (ha : row.toList[k]? = some a) : k < partitionPoint row p ↔ p a = true := by
  obtain ⟨A, B, hrow, hA, hB⟩ := exists_cut h
  rw [partitionPoint_eq hrow hA hB]
  rw [hrow] at ha
  by_cases hk : k < A.length
  · rw [List.getElem?_append_left hk] at ha
    exact iff_of_true hk (hA a (List.mem_of_getElem? ha))
  · rw [List.getElem?_append_right (Nat.le_of_not_lt hk)] at ha
    have hpa : p a = false := hB a (List.mem_of_getElem? ha)
    rw [hpa]
    exact iff_of_false hk Bool.false_ne_true

theorem TurnsOnce.partitionPoint_le {row : Array α} {p : α → Bool} (h : TurnsOnce p row.toList) :
    partitionPoint row p ≤ row.toList.length := by
  obtain ⟨A, B, hrow, hA, hB⟩ := exists_cut h
  rw [partitionPoint_eq hrow hA hB, hrow, List.length_append]
  exact Nat.le_add_right _ _

/-! ## Ranges -/

/-- The range lies within the row and holds exactly the places of the items that meet an interval.  Every item
before it has an interval that comes before, and every item after it has one that comes after; so where nothing is
met, the place of the range is the one where the interval belongs. -/
structure ExactRange (key : α → Interval T) (meets : α → Bool) (j : Interval T) (l : List α)
    (range : Nat × Nat) : Prop where
  ordered : range.1 ≤ range.2
  within : range.2 ≤ l.length
  places : ∀ k a, l[k]? = some a → (range.1 ≤ k ∧ k < range.2 ↔ meets a = true)
  before : ∀ a ∈ l.take range.1, (key a).isBefore j = true
  after : ∀ a ∈ l.drop range.2, j.isBefore (key a) = true

/-- **A range between two bisections**, the first of which leaves behind what comes before the interval and the
second all but what comes after it. -/
theorem exactRange_of_turnsOnce {row : Array α} {p q meets : α → Bool} {j : Interval T}
    (hp : TurnsOnce p row.toList) (hq : TurnsOnce q row.toList)
    (hmeets : ∀ a ∈ row.toList, meets a = true ↔ ¬p a = true ∧ q a = true)
    (hbefore : ∀ a ∈ row.toList, p a = true → (key a).isBefore j = true)
    (hafter : ∀ a ∈ row.toList, ¬q a = true → j.isBefore (key a) = true) :
    ExactRange key meets j row.toList
      (partitionPoint row p, max (partitionPoint row q) (partitionPoint row p)) where
  ordered := Nat.le_max_right _ _
  within := Nat.max_le.2 ⟨hq.partitionPoint_le, hp.partitionPoint_le⟩
  places := by
    intro k a ha
    have hstart := hp.lt_partitionPoint_iff ha
    have hstop := hq.lt_partitionPoint_iff ha
    rw [hmeets a (List.mem_of_getElem? ha), ← hstart, ← hstop]
    show partitionPoint row p ≤ k ∧ k < max (partitionPoint row q) (partitionPoint row p) ↔ _
    -- which of the two places is the greater does not matter: none lies from the start on and before it
    omega
  before := by
    intro a ha
    obtain ⟨k, hk⟩ := List.mem_iff_getElem?.1 ha
    rw [List.getElem?_take] at hk
    split at hk
    case isTrue hlt => exact hbefore a (List.mem_of_getElem? hk) ((hp.lt_partitionPoint_iff hk).1 hlt)
    case isFalse => cases hk
  after := by
    intro a ha
    obtain ⟨k, hk⟩ := List.mem_iff_getElem?.1 ha
    rw [List.getElem?_drop] at hk
    refine hafter a (List.mem_of_getElem? hk) ?_
    rw [← hq.lt_partitionPoint_iff hk]
    show ¬max (partitionPoint row q) (partitionPoint row p) + k < partitionPoint row q
    omega

/-- The range of what overlaps an interval. -/
theorem exactRange_overlapping {row : Array α} (h : Ascending key row.toList) {j : Interval T} (hj : j.lo < j.up) :
    ExactRange key (fun e => (key e).overlaps j) j row.toList
      (partitionPoint row fun e => (key e).isBefore j,
        max (partitionPoint row fun e => !j.isBefore (key e)) (partitionPoint row fun e => (key e).isBefore j)) := by
  refine exactRange_of_turnsOnce (h.turnsOnce_isBefore hj) (h.turnsOnce_not_isBefore hj) ?_ ?_ ?_
  · intro a ha
    have hne := h.nonempty a ha
    rw [Interval.overlaps_iff, Interval.isBefore_iff_le hne hj, Interval.not_isBefore_iff_lt hj hne, not_le]
    exact ⟨fun hover => ⟨hover.2.2.2, hover.2.2.1⟩, fun hover => ⟨hne, hj, hover.2, hover.1⟩⟩
  · exact fun a _ hbefore => hbefore
  · intro a _ hafter
    simpa using hafter

/-- The range of what overlaps or touches an interval. -/
theorem exactRange_touching {row : Array α} (h : Ascending key row.toList) {j : Interval T} (hj : j.lo < j.up) :
    ExactRange key (fun e => (key e).overlaps j || (key e).isTouching j) j row.toList
      (partitionPoint row fun e => (key e).isBefore j && !(key e).isTouching j,
        max (partitionPoint row fun e => !(j.isBefore (key e) && !j.isTouching (key e)))
          (partitionPoint row fun e => (key e).isBefore j && !(key e).isTouching j)) := by
  refine exactRange_of_turnsOnce (h.turnsOnce_isApart hj) (h.turnsOnce_not_isApart hj) ?_ ?_ ?_
  · intro a ha
    have hne := h.nonempty a ha
    rw [Bool.or_eq_true, Interval.overlaps_iff, Interval.isTouching_iff, Interval.isApart_iff hne hj,
      Interval.not_isApart_iff hj hne, not_lt]
    constructor
    · rintro (⟨-, -, hbegin, hend⟩ | ⟨-, -, htouch | htouch⟩)
      · exact ⟨hend.le, hbegin.le⟩
      · exact ⟨htouch.ge, le_trans hne.le (le_trans htouch.le hj.le)⟩
      · exact ⟨le_trans hj.le (le_trans htouch.le hne.le), htouch.ge⟩
    · rintro ⟨hend, hbegin⟩
      rcases eq_or_lt_of_le hend with htouch | hend
      · exact Or.inr ⟨hne, hj, Or.inl htouch.symm⟩
      · rcases eq_or_lt_of_le hbegin with htouch | hbegin
        · exact Or.inr ⟨hne, hj, Or.inr htouch.symm⟩
        · exact Or.inl ⟨hne, hj, hbegin, hend⟩
  · intro a _ hbefore
    rw [Bool.and_eq_true] at hbefore
    exact hbefore.1
  · intro a _ hafter
    rw [Bool.not_eq_true, Bool.not_eq_false', Bool.and_eq_true] at hafter
    exact hafter.1

/-! ## Sets and maps -/

/-- **The ranges are exact.**  Take a map and a set whose stored intervals are in order, touching or not, and an
interval that is not empty.  The ranges that are looked for in them lie within the row and hold exactly the places
of what overlaps the interval, or of what overlaps or touches it.  All that stands before the range comes before the
interval, and the interval comes before all that stands after the range, so that an empty range is the place where
the interval belongs.  Every predicate by which a place is looked for, that of a value included, turns false at most
once along the row. -/
theorem ranges_are_exact {V : Type w} (m : IntervalMap T V) (s : IntervalSet T) (j : Interval T)
    (hm : InOrder Prod.fst m.toList) (hs : InOrder (fun i => i) s.toList) (hj : j.isEmpty = false) :
    ExactRange Prod.fst (fun e => e.1.overlaps j) j m.toList (m.overlappingRange j) ∧
    ExactRange (fun i => i) (fun i => i.overlaps j) j s.toList (s.overlappingRange j) ∧
    ExactRange (fun i => i) (fun i => i.overlaps j || i.isTouching j) j s.toList (s.touchingRange j) ∧
    (TurnsOnce (fun e => e.1.isBefore j) m.toList ∧ TurnsOnce (fun e => !j.isBefore e.1) m.toList ∧
      ∀ v, TurnsOnce (fun e => e.1.endsBefore v) m.toList) ∧
    TurnsOnce (fun i => i.isBefore j) s.toList ∧ TurnsOnce (fun i => !j.isBefore i) s.toList ∧
    TurnsOnce (fun i => i.isBefore j && !i.isTouching j) s.toList ∧
    TurnsOnce (fun i => !(j.isBefore i && !j.isTouching i)) s.toList ∧
    ∀ v, TurnsOnce (fun i => i.endsBefore v) s.toList := by
  have hlt := Interval.isEmpty_eq_false_iff.1 hj
  have hmap := hm.ascending
  have hset := hs.ascending
  refine ⟨?_, ?_, exactRange_touching hset hlt, ⟨hmap.turnsOnce_isBefore hlt, hmap.turnsOnce_not_isBefore hlt,
    hmap.turnsOnce_endsBefore⟩, hset.turnsOnce_isBefore hlt, hset.turnsOnce_not_isBefore hlt,
    hset.turnsOnce_isApart hlt, hset.turnsOnce_not_isApart hlt, hset.turnsOnce_endsBefore⟩
  · rw [IntervalMap.overlappingRange, hj, if_neg Bool.false_ne_true]
    exact exactRange_overlapping hmap hlt
  · rw [IntervalSet.overlappingRange, hj, if_neg Bool.false_ne_true]
    exact exactRange_overlapping hset hlt

/-- An interval that touches the second of three stored ones and overlaps none: as a place among what it overlaps
it is the one after the second, and among what it touches the second is found. -/
theorem ranges_are_exact_touchingSecond :
    let m : IntervalMap ℕ Bool := ⟨#[(⟨.unbounded, .inclusive 6⟩, true), (⟨.exclusive 6, .unbounded⟩, false)]⟩
    let s : IntervalSet ℕ :=
      ⟨#[⟨.inclusive 0, .inclusive 1⟩, ⟨.inclusive 4, .exclusive 6⟩, ⟨.inclusive 9, .inclusive 9⟩]⟩
    let j : Interval ℕ := ⟨.inclusive 6, .exclusive 8⟩
    InOrder Prod.fst m.toList ∧ InOrder (fun i => i) s.toList ∧ j.isEmpty = false ∧
      (∀ e ∈ m.toList, e.1.overlaps j = true) ∧
      s.overlappingRange j = (2, 2) ∧ (∀ i ∈ s.toList.take 2, i.isBefore j = true) ∧
      s.touchingRange j = (1, 2) ∧ ∀ i ∈ s.toList.drop 2, j.isBefore i = true := by
  intro m s j
  have hm : InOrder Prod.fst m.toList := ⟨by decide, by decide⟩
  have hs : InOrder (fun i => i) s.toList := ⟨by decide, by decide⟩
  have hj : j.isEmpty = false := by decide
  have hmeets : m.overlappingRange j = (0, 2) := by decide +kernel
  have hover : s.overlappingRange j = (2, 2) := by decide +kernel
  have htouch : s.touchingRange j = (1, 2) := by decide +kernel
  obtain ⟨hexact, hexact', hexact'', -⟩ := ranges_are_exact m s j hm hs hj
  rw [hmeets] at hexact
  rw [hover] at hexact'
  rw [htouch] at hexact''
  refine ⟨hm, hs, hj, ?_, hover, hexact'.before, htouch, hexact''.after⟩
  intro e he
  obtain ⟨k, hk⟩ := List.mem_iff_getElem?.1 he
  have hlen : k < 2 := (List.getElem?_eq_some_iff.1 hk).1
  exact (hexact.places k e hk).1 ⟨Nat.zero_le k, hlen⟩

end CodeAtlas.Row
