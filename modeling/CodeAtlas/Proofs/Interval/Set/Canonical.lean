import CodeAtlas.Proofs.Interval.Sameness
import CodeAtlas.Proofs.Interval.Set.Algebra
import Mathlib.Order.BooleanAlgebra.Set

/-!
# Interval sets form a Boolean algebra

A separated row is the only one of its kind that covers what it covers: the place where an interval begins
and the place where it ends can be read off the covered cuts.  Over whole numbers, where `(1;2)` holds no
value, values alone would not tell sets apart, but cuts do.  So the sets that operations lead to are as good
as the sets of cuts that they cover, and the operations are those of a Boolean algebra.

* `eq_of_covered_iff`, `ext_covered` — separated rows that cover the same cuts are equal, and so are their sets;
* `Canonical` — interval sets with a separated row, and `Canonical.cuts`, which turns each operation into
  the one on sets of cuts;
* the instance of `BooleanAlgebra` on them;
* `History.boolean_laws` — the laws for sets however they came about, as sameness of the stored intervals.
-/

namespace CodeAtlas

universe u

variable {T : Type u} [LinearOrder T]

/-! ## Rows are determined by what they cover -/

/-- The first interval begins where the covered cuts begin. -/
theorem lo_le_of_covered {i : Interval T} {l : List (Interval T)} {c : Cut T} (h : Separated (i :: l))
    (hc : Covered (i :: l) c) : i.lo ≤ c := by
  obtain ⟨k, hk, hge, -⟩ := hc
  exact le_trans (h.ascending.head_le rfl k hk) hge

/-- Where the first interval ends, nothing is covered. -/
theorem not_covered_up {i : Interval T} {l : List (Interval T)} (h : Separated (i :: l)) :
    ¬Covered (i :: l) i.up := by
  obtain ⟨-, hrest, -⟩ := Row.spaced_cons.1 h
  rintro ⟨k, hk, hge, hlt⟩
  rcases List.mem_cons.1 hk with rfl | hk
  · exact lt_irrefl _ hlt
  · exact absurd (lt_of_lt_of_le (hrest k hk) hge) (lt_irrefl _)

/-- What the rest of a row covers is what the row covers and the first interval does not hold. -/
theorem covered_tail_iff {i : Interval T} {l : List (Interval T)} {c : Cut T} (h : Separated (i :: l)) :
    Covered l c ↔ Covered (i :: l) c ∧ ¬i.Holds c := by
  obtain ⟨-, hrest, -⟩ := Row.spaced_cons.1 h
  constructor
  · rintro ⟨k, hk, hge, hlt⟩
    refine ⟨⟨k, List.mem_cons_of_mem _ hk, hge, hlt⟩, ?_⟩
    rintro ⟨-, hbefore⟩
    exact absurd (lt_trans hbefore (hrest k hk)) (not_lt.2 hge)
  · rintro ⟨hcov, hnot⟩
    exact (covered_cons.1 hcov).resolve_left hnot

/-- The first intervals of two rows that cover the same cuts do not end apart. -/
theorem up_le_of_covered {i j : Interval T} {l m : List (Interval T)} (hm : Separated (j :: m))
    (hlo : i.lo = j.lo) (h : ∀ c, Covered (i :: l) c ↔ Covered (j :: m) c) : i.up ≤ j.up := by
  by_contra hlt
  -- otherwise the cut where `j` ends would still lie in `i`
  have hj : j.lo < j.up := hm.nonempty j List.mem_cons_self
  have hcov : Covered (i :: l) j.up :=
    ⟨i, List.mem_cons_self, by rw [hlo]; exact hj.le, not_le.1 hlt⟩
  exact not_covered_up hm ((h _).1 hcov)

/-- **Separated rows that cover the same cuts are equal.** -/
theorem eq_of_covered_iff {l m : List (Interval T)} (hl : Separated l) (hm : Separated m)
    (h : ∀ c, Covered l c ↔ Covered m c) : l = m := by
  induction l generalizing m with
  | nil =>
    cases m with
    | nil => rfl
    | cons j m =>
      have hj : Covered (j :: m) j.lo :=
        ⟨j, List.mem_cons_self, le_refl _, hm.nonempty j List.mem_cons_self⟩
      exact absurd ((h _).2 hj) (covered_nil _)
  | cons i l ih =>
    have hi : Covered (i :: l) i.lo :=
      ⟨i, List.mem_cons_self, le_refl _, hl.nonempty i List.mem_cons_self⟩
    cases m with
    | nil => exact absurd ((h _).1 hi) (covered_nil _)
    | cons j m =>
      have hj : Covered (j :: m) j.lo :=
        ⟨j, List.mem_cons_self, le_refl _, hm.nonempty j List.mem_cons_self⟩
      have hlo : i.lo = j.lo :=
        le_antisymm (lo_le_of_covered hl ((h _).2 hj)) (lo_le_of_covered hm ((h _).1 hi))
      have hup : i.up = j.up := le_antisymm (up_le_of_covered hm hlo h)
        (up_le_of_covered hl hlo.symm fun c => (h c).symm)
      obtain rfl : i = j := Interval.ext_cuts hlo hup
      have htail : ∀ c, Covered l c ↔ Covered m c := by
        intro c
        rw [covered_tail_iff hl, covered_tail_iff hm, h c]
      rw [ih (Row.spaced_cons.1 hl).2.2 (Row.spaced_cons.1 hm).2.2 htail]

/-! ## What the operations cover -/

namespace IntervalSet

/-- Sets with separated rows that cover the same cuts are equal. -/
theorem ext_covered {s t : IntervalSet T} (hs : Separated s.toList) (ht : Separated t.toList)
    (h : ∀ c, Covered s.toList c ↔ Covered t.toList c) : s = t := by
  have hrow : s.toList = t.toList := eq_of_covered_iff hs ht h
  obtain ⟨row⟩ := s
  obtain ⟨row'⟩ := t
  exact congrArg IntervalSet.mk (Array.toList_inj.1 hrow)

theorem covered_union {s : IntervalSet T} (h : Separated s.toList) (t : IntervalSet T) (c : Cut T) :
    Covered (s.union t).toList c ↔ Covered s.toList c ∨ Covered t.toList c :=
  covered_insertAll h t.toList c

theorem covered_diff {s : IntervalSet T} (h : Separated s.toList) (t : IntervalSet T) (c : Cut T) :
    Covered (s.diff t).toList c ↔ Covered s.toList c ∧ ¬Covered t.toList c :=
  covered_eraseAll h t.toList c

theorem covered_inter {s t : IntervalSet T} (hs : Separated s.toList) (ht : Separated t.toList)
    (c : Cut T) : Covered (s.inter t).toList c ↔ Covered s.toList c ∧ Covered t.toList c :=
  (covered_ofList (shared s.toList t.toList) c).trans (covered_shared hs ht c)

/-- No interval reaches the cut at the end of the line. -/
theorem not_covered_top (l : List (Interval T)) : ¬Covered l .top := by
  rintro ⟨k, -, -, hlt⟩
  exact Cut.not_top_lt hlt

/-! ## The algebra -/

/-- An interval set whose row is separated. -/
structure Canonical (T : Type u) [LinearOrder T] where
  set : IntervalSet T
  separated : Separated set.toList

namespace Canonical

/-- The cuts that a set covers, among those before the end of the line. -/
def cuts (s : Canonical T) : Set {c : Cut T // c ≠ .top} :=
  {c | Covered s.set.toList c}

theorem cuts_injective : Function.Injective (cuts : Canonical T → _) := by
  intro s t h
  have hset : s.set = t.set := by
    refine ext_covered s.separated t.separated fun c => ?_
    by_cases hc : c = .top
    · subst hc
      exact iff_of_false (not_covered_top _) (not_covered_top _)
    · exact Set.ext_iff.1 h ⟨c, hc⟩
  cases s
  cases t
  cases hset
  rfl

instance : Max (Canonical T) where
  max s t := ⟨s.set.union t.set, separated_applyAll s.separated _⟩

instance : Min (Canonical T) where
  min s t := ⟨s.set.inter t.set, separated_applyAll separated_empty _⟩

instance : Top (Canonical T) where
  top := ⟨full, separated_full⟩

instance : Bot (Canonical T) where
  bot := ⟨empty, separated_empty⟩

instance : Compl (Canonical T) where
  compl s := ⟨s.set.compl, separated_compl s.separated⟩

instance : SDiff (Canonical T) where
  sdiff s t := ⟨s.set.diff t.set, separated_applyAll s.separated _⟩

instance : HImp (Canonical T) where
  himp s t := t ⊔ sᶜ

instance : LE (Canonical T) where
  le s t := s.cuts ⊆ t.cuts

instance : LT (Canonical T) where
  lt s t := s ≤ t ∧ ¬t ≤ s

theorem cuts_sup (s t : Canonical T) : (s ⊔ t).cuts = s.cuts ∪ t.cuts :=
  Set.ext fun c => covered_union s.separated t.set c

theorem cuts_inf (s t : Canonical T) : (s ⊓ t).cuts = s.cuts ∩ t.cuts :=
  Set.ext fun c => covered_inter s.separated t.separated c

theorem cuts_top : (⊤ : Canonical T).cuts = Set.univ :=
  Set.ext fun c => iff_of_true (covered_full.2 c.2) trivial

theorem cuts_bot : (⊥ : Canonical T).cuts = ∅ :=
  Set.ext fun _ => iff_of_false (covered_nil _) id

theorem cuts_compl (s : Canonical T) : sᶜ.cuts = s.cutsᶜ :=
  Set.ext fun c => (covered_compl s.separated c).trans (and_iff_right c.2)

theorem cuts_sdiff (s t : Canonical T) : (s \ t).cuts = s.cuts \ t.cuts :=
  Set.ext fun c => covered_diff s.separated t.set c

/-- **The operations of interval sets are those of a Boolean algebra**, since they are so on the cuts. -/
instance : BooleanAlgebra (Canonical T) :=
  cuts_injective.booleanAlgebra cuts Iff.rfl Iff.rfl cuts_sup cuts_inf cuts_top cuts_bot cuts_compl
    cuts_sdiff fun s t => by
      show (t ⊔ sᶜ).cuts = s.cuts ⇨ t.cuts
      rw [cuts_sup, cuts_compl, himp_eq]
      rfl

end Canonical

/-! ## Sets however they came about -/

namespace History

/-- The set that comes about, with its separated row. -/
def canonical (e : History T) : Canonical T :=
  ⟨e.result, e.separated_result⟩

/-- Two histories lead to sets that store the same intervals. -/
def Same (e f : History T) : Prop :=
  (e.result == f.result) = true

theorem same_of_canonical_eq {e f : History T} (h : e.canonical = f.canonical) : Same e f := by
  have hresult : e.result = f.result := congrArg Canonical.set h
  show (e.result.toList == f.result.toList) = true
  rw [hresult]
  exact BEq.rfl

/-- The order of the intervals that a set is collected from does not matter. -/
theorem canonical_ofList_perm {is js : List (Interval T)} (h : is.Perm js) :
    (ofList is).canonical = (ofList js).canonical := by
  apply Canonical.cuts_injective
  ext c
  show Covered (IntervalSet.ofList is).toList c ↔ Covered (IntervalSet.ofList js).toList c
  rw [covered_ofList, covered_ofList]
  exact exists_congr fun i => and_congr_left' h.mem_iff

/-- **The laws of Boolean algebra** hold of sets however they came about, as sameness of the stored
intervals; and a set does not depend on the order of the intervals that it is collected from. -/
theorem boolean_laws (a b c : History T) :
    Same (a.union b) (b.union a) ∧
    Same (a.inter b) (b.inter a) ∧
    Same ((a.union b).union c) (a.union (b.union c)) ∧
    Same ((a.inter b).inter c) (a.inter (b.inter c)) ∧
    Same (a.union a) a ∧
    Same (a.inter a) a ∧
    Same (a.union (b.inter c)) ((a.union b).inter (a.union c)) ∧
    Same (a.inter (b.union c)) ((a.inter b).union (a.inter c)) ∧
    Same (a.union (a.inter b)) a ∧
    Same (a.inter (a.union b)) a ∧
    Same a.compl.compl a ∧
    Same (a.union b).compl (a.compl.inter b.compl) ∧
    Same (a.inter b).compl (a.compl.union b.compl) ∧
    Same (a.diff b) (a.inter b.compl) ∧
    Same (a.union a.compl) full ∧
    Same (a.inter a.compl) empty ∧
    ∀ is js : List (Interval T), is.Perm js → Same (ofList is) (ofList js) := by
  let A := a.canonical
  let B := b.canonical
  let C := c.canonical
  exact ⟨same_of_canonical_eq (sup_comm A B),
    same_of_canonical_eq (inf_comm A B),
    same_of_canonical_eq (sup_assoc A B C),
    same_of_canonical_eq (inf_assoc A B C),
    same_of_canonical_eq (sup_idem A),
    same_of_canonical_eq (inf_idem A),
    same_of_canonical_eq (sup_inf_left A B C),
    same_of_canonical_eq (inf_sup_left A B C),
    same_of_canonical_eq (sup_inf_self : A ⊔ A ⊓ B = A),
    same_of_canonical_eq (inf_sup_self : A ⊓ (A ⊔ B) = A),
    same_of_canonical_eq (compl_compl A),
    same_of_canonical_eq (compl_sup : (A ⊔ B)ᶜ = Aᶜ ⊓ Bᶜ),
    same_of_canonical_eq (compl_inf : (A ⊓ B)ᶜ = Aᶜ ⊔ Bᶜ),
    same_of_canonical_eq (sdiff_eq : A \ B = A ⊓ Bᶜ),
    same_of_canonical_eq (sup_compl_eq_top : A ⊔ Aᶜ = ⊤),
    same_of_canonical_eq (inf_compl_eq_bot : A ⊓ Aᶜ = ⊥),
    fun _ _ h => same_of_canonical_eq (canonical_ofList_perm h)⟩

/-- Over whole numbers too an interval that holds no value is stored, and merges what it touches, in any
order. -/
theorem boolean_laws_reversed :
    Same (T := ℕ)
      (ofList [⟨.exclusive 1, .exclusive 2⟩, ⟨.inclusive 2, .unbounded⟩, ⟨.inclusive 0, .exclusive 1⟩])
      (ofList [⟨.inclusive 0, .exclusive 1⟩, ⟨.inclusive 2, .unbounded⟩, ⟨.exclusive 1, .exclusive 2⟩]) := by
  obtain ⟨-, -, -, -, -, -, -, -, -, -, -, -, -, -, -, -, hperm⟩ :=
    boolean_laws (empty : History ℕ) empty empty
  exact hperm _ _ (List.reverse_perm _).symm

end History

end IntervalSet

end CodeAtlas
