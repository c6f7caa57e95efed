import CodeAtlas.Proofs.Interval.Map.Run
import CodeAtlas.Proofs.Interval.Sameness
import CodeAtlas.Proofs.Interval.Set.Change

/-!
# Sameness of intervals is a congruence

Nothing that is done with intervals, sets and maps tells intervals apart that are the same.  Each operation is
guarded: what it makes of an empty interval does not depend on where the bounds of that interval lie.

* `IntervalSet.guarded_insert`, `IntervalSet.guarded_erase`, … — the operations on sets;
* `IntervalMap.guarded_addWith`, `IntervalMap.guarded_erase`, … — the operations on maps;
* `Interval.sameness_is_a_congruence` — all operations together.
-/

namespace CodeAtlas

universe u v

variable {T : Type u} [LinearOrder T]

namespace IntervalSet

theorem guarded_insert (s : IntervalSet T) : Interval.Guarded s.insert :=
  ⟨s, fun _ hi => insert_of_isEmpty hi⟩

theorem guarded_erase (s : IntervalSet T) : Interval.Guarded s.erase :=
  ⟨s, fun _ hi => erase_of_isEmpty hi⟩

theorem guarded_isChanged_insert (s : IntervalSet T) : Interval.Guarded fun i => s.isChanged (.insert i) :=
  ⟨false, fun i hi => by simp [isChanged, edit?, insertion?, hi]⟩

theorem guarded_isChanged_erase (s : IntervalSet T) : Interval.Guarded fun i => s.isChanged (.erase i) :=
  ⟨false, fun i hi => by simp [isChanged, edit?, erasure?, overlappingRange, hi]⟩

theorem guarded_covers (s : IntervalSet T) : Interval.Guarded s.covers :=
  ⟨true, fun i hi => by simp [covers, hi]⟩

end IntervalSet

namespace IntervalMap

variable {V : Type v}

theorem guarded_addWith (m : IntervalMap T V) (combine : V → V → V) (value : V) :
    Interval.Guarded fun keys => m.addWith combine keys value :=
  ⟨m, fun _ hkeys => addWith_of_isEmpty hkeys⟩

theorem guarded_erase (m : IntervalMap T V) : Interval.Guarded m.erase :=
  ⟨m, fun _ hkeys => erase_of_isEmpty hkeys⟩

theorem guarded_erasure? (m : IntervalMap T V) : Interval.Guarded m.erasure? :=
  ⟨none, fun keys hkeys => by simp [erasure?, overlappingRange, hkeys]⟩

end IntervalMap

namespace Interval

/-- **Sameness is a congruence.**  It is an equivalence of intervals.  Intervals that are the same give the same to
a hash; they contain the same values, and each may stand for the other on either side of covering, overlapping,
being disjoint, being before and touching, without changing the answer.  What they have in common with others and
their spans are the same.  Inserting, erasing and looking for either of them in a set gives the same answer and
leaves the same set, and adding and erasing either of them in a map leaves the same map. -/
theorem sameness_is_a_congruence :
    (Equivalence fun i j : Interval T => (i == j) = true) ∧
    ∀ i i' j j' : Interval T, (i == i') = true → (j == j') = true →
      (i.key = i'.key ∧ ∀ [Hashable T], hash i = hash i') ∧
      (∀ v, i.contains v = i'.contains v) ∧
      i.covers j = i'.covers j' ∧
      i.overlaps j = i'.overlaps j' ∧
      i.isDisjoint j = i'.isDisjoint j' ∧
      i.isBefore j = i'.isBefore j' ∧
      i.isTouching j = i'.isTouching j' ∧
      (i.intersection? j == i'.intersection? j') = true ∧
      (i.span j == i'.span j') = true ∧
      (∀ s : IntervalSet T,
        s.isChanged (.insert i) = s.isChanged (.insert i') ∧ s.insert i = s.insert i' ∧
        s.isChanged (.erase i) = s.isChanged (.erase i') ∧ s.erase i = s.erase i' ∧
        s.covers i = s.covers i') ∧
      ∀ (V : Type v) (m : IntervalMap T V) (combine : V → V → V) (value : V),
        m.addWith combine i value = m.addWith combine i' value ∧
        (m.erasure? i).isSome = (m.erasure? i').isSome ∧ m.erase i = m.erase i' := by
  refine ⟨⟨fun _ => BEq.rfl, BEq.symm, BEq.trans⟩, ?_⟩
  intro i i' j j' hi hj
  have hoverlaps : i.overlaps j = i'.overlaps j' := congr_of_guarded false overlaps_of_isEmpty hi hj
  have hcommon : i.intersection? j = i'.intersection? j' :=
    congr_of_guarded none intersection?_of_isEmpty hi hj
  refine ⟨⟨beq_iff_key.1 hi, hash_eq hi⟩, fun v => (guarded_contains v).congr hi, covers_congr hi hj, hoverlaps,
    ?_, congr_of_guarded false isBefore_of_isEmpty hi hj, congr_of_guarded false isTouching_of_isEmpty hi hj, ?_,
    span_congr hi hj, ?_, ?_⟩
  · rw [isDisjoint, isDisjoint, hoverlaps]
  · rw [hcommon]
    exact BEq.rfl
  · intro s
    exact ⟨s.guarded_isChanged_insert.congr hi, s.guarded_insert.congr hi, s.guarded_isChanged_erase.congr hi,
      s.guarded_erase.congr hi, s.guarded_covers.congr hi⟩
  · intro V m combine value
    exact ⟨(m.guarded_addWith combine value).congr hi, congrArg Option.isSome (m.guarded_erasure?.congr hi),
      m.guarded_erase.congr hi⟩

/-- Two empty intervals on either side of an interval, with bounds that would overlap it and touch it. -/
theorem sameness_is_a_congruence_emptyIntervals :
    let i : Interval ℕ := ⟨.inclusive 9, .inclusive 3⟩
    let i' : Interval ℕ := ⟨.exclusive 7, .exclusive 7⟩
    let j : Interval ℕ := ⟨.inclusive 4, .inclusive 7⟩
    (i == i') = true ∧ (j == j) = true ∧ i.overlaps j = i'.overlaps j ∧ i.isTouching j = i'.isTouching j ∧
      hash i = hash i' := by
  intro i i' j
  have hi : (i == i') = true := by decide
  have hj : (j == j) = true := by decide
  obtain ⟨-, hcongr⟩ := sameness_is_a_congruence.{0, 0} (T := ℕ)
  obtain ⟨⟨-, hhash⟩, -, -, hoverlaps, -, -, htouching, -⟩ := hcongr i i' j j hi hj
  exact ⟨hi, hj, hoverlaps, htouching, hhash⟩

end Interval

end CodeAtlas
