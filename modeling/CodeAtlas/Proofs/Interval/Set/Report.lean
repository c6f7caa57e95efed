import CodeAtlas.Proofs.Interval.Set.Extensionality

/-!
# What a change of an interval set reports

Inserting or erasing an interval reports whether it did anything.  The report is decided on a stretch of the row
that bisection finds, before the row is touched.  It says the same as a look at the row before and after, and the
same as what is covered: an interval that a stored one covers is not inserted again, and one that no stored
interval overlaps is not erased.

* `covers_iff_exists_mem` — the set covers an interval if a single stored one does;
* `exists_covers_iff` — the stretch of the row that decides an insertion;
* `isChanged_insert_iff`, `isChanged_erase_iff` — when a change is reported;
* `isChanged_iff_toList_ne` — a change that is reported shows at some cut, and no other change is made;
* `History.changes_are_reported` — all this about every set, and about a change that is made twice.
-/

namespace CodeAtlas.IntervalSet

universe u

variable {T : Type u} [LinearOrder T]

/-! ## Covering by a single interval -/

/-- **Single intervals.**  A set covers an interval that is not empty only if one of the stored intervals does:
two stored intervals always leave something uncovered between them. -/
theorem covers_iff_exists_mem {s : IntervalSet T} (h : Separated s.toList) {j : Interval T} :
    s.covers j = true ↔ j.isEmpty = true ∨ ∃ k ∈ s.toList, k.covers j = true := by
  constructor
  · intro hcov
    rw [covers, Bool.or_eq_true, Option.any_eq_true] at hcov
    rcases hcov with hempty | ⟨k, hk, hkj⟩
    · exact Or.inl hempty
    · rw [← Array.getElem?_toList] at hk
      exact Or.inr ⟨k, List.mem_of_getElem? hk, hkj⟩
  · intro hcov
    rcases hcov with hempty | ⟨k, hk, hkj⟩
    · rw [covers, hempty, Bool.true_or]
    · exact (covers_iff h).2 fun c hc => ⟨k, hk, Interval.covers_iff_forall_holds.1 hkj c hc⟩

/-! ## Changes that are made -/

theorem apply_of_not_isChanged {s : IntervalSet T} {c : Change T} (h : s.isChanged c = false) :
    s.apply c = s := by
  have hnone : s.edit? c = none := by simpa [isChanged] using h
  simp only [apply, hnone]

/-- If every change that is reported shows at some cut, then the changes reported are those of the row. -/
theorem isChanged_iff_toList_ne {s : IntervalSet T} {c : Change T}
    (h : s.isChanged c = true → ∃ x, ¬(Covered (s.apply c).toList x ↔ Covered s.toList x)) :
    s.isChanged c = true ↔ (s.apply c).toList ≠ s.toList := by
  constructor
  · intro hchanged hsame
    obtain ⟨x, hx⟩ := h hchanged
    rw [hsame] at hx
    exact hx Iff.rfl
  · intro hne
    by_contra hidle
    rw [Bool.not_eq_true] at hidle
    exact hne (by rw [apply_of_not_isChanged hidle])

/-! ## Inserting -/

/-- Of the stored intervals that an interval meets, one that covers it is the only one. -/
theorem eq_singleton_of_covers {M : List (Interval T)} {k j : Interval T} (hM : Separated M) (hj : j.lo < j.up)
    (hmeet : ∀ m ∈ M, j.lo ≤ m.up ∧ m.lo ≤ j.up) (hk : k ∈ M) (hcov : k.covers j = true) : M = [k] := by
  obtain ⟨-, hlo, hup⟩ := (Interval.covers_iff.1 hcov).resolve_left (not_le.2 hj)
  obtain ⟨before, after, rfl⟩ := List.append_of_mem hk
  obtain ⟨-, htail, hbefore⟩ := Row.spaced_append.1 hM
  obtain ⟨-, hafter, -⟩ := Row.spaced_cons.1 htail
  -- whatever stands before `k` ends before `j` begins, and whatever stands after it begins after `j` ends
  have hnilBefore : before = [] := by
    rw [List.eq_nil_iff_forall_not_mem]
    intro m hm
    have hend : m.up < j.lo := lt_of_lt_of_le (hbefore m hm k List.mem_cons_self) hlo
    exact absurd (hmeet m (List.mem_append_left _ hm)).1 (not_le.2 hend)
  have hnilAfter : after = [] := by
    rw [List.eq_nil_iff_forall_not_mem]
    intro m hm
    have hstart : j.up < m.lo := lt_of_le_of_lt hup (hafter m hm)
    exact absurd (hmeet m (by simp [hm])).2 (not_le.2 hstart)
  rw [hnilBefore, hnilAfter, List.nil_append]

/-- A stored interval that covers `j` is the only one that meets it. -/
theorem exists_covers_iff {A M B : List (Interval T)} {j : Interval T} (h : Separated (A ++ M ++ B))
    (hj : j.lo < j.up) (hA : ∀ a ∈ A, a.up < j.lo) (hmeet : ∀ m ∈ M, j.lo ≤ m.up ∧ m.lo ≤ j.up)
    (hB : ∀ b ∈ B, j.up < b.lo) :
    (∃ k ∈ A ++ M ++ B, k.covers j = true) ↔ ∃ k, M = [k] ∧ k.covers j = true := by
  constructor
  · intro hcovered
    obtain ⟨k, hk, hcov⟩ := hcovered
    obtain ⟨-, hlo, hup⟩ := (Interval.covers_iff.1 hcov).resolve_left (not_le.2 hj)
    have hkM : k ∈ M := by
      rw [List.mem_append, List.mem_append] at hk
      rcases hk with (hk | hk) | hk
      · exact absurd (lt_trans (hA k hk) (lt_of_lt_of_le hj hup)) (lt_irrefl _)
      · exact hk
      · exact absurd (lt_of_lt_of_le (lt_trans hj (hB k hk)) hlo) (lt_irrefl _)
    exact ⟨k, eq_singleton_of_covers h.middle.1 hj hmeet hkM hcov, hcov⟩
  · intro hcovered
    obtain ⟨k, rfl, hcov⟩ := hcovered
    exact ⟨k, List.mem_append_left _ (List.mem_append_right _ List.mem_cons_self), hcov⟩

/-- **An insertion is reported** exactly if the interval was not covered before. -/
theorem isChanged_insert_iff {s : IntervalSet T} (h : Separated s.toList) (j : Interval T) :
    s.isChanged (.insert j) = true ↔ s.covers j = false := by
  rw [← Bool.not_eq_true, covers_iff_exists_mem h]
  show (s.insertion? j).isSome = true ↔ _
  cases hempty : j.isEmpty with
  | true => simp [insertion?, hempty]
  | false =>
    have hj : j.lo < j.up := Interval.isEmpty_eq_false_iff.1 hempty
    obtain ⟨A, M, B, hrow, hrange, hA, hmeet, hB⟩ := touchingRange_split h hj
    rw [hrow] at h ⊢
    rw [exists_covers_iff h hj hA hmeet hB]
    -- nothing meets `j`, or one interval that may cover it, or several
    cases M with
    | nil => simp [insertion?, hempty, hrange]
    | cons k more =>
      obtain ⟨first, last, hfirst, -, hgetFirst, hgetLast⟩ := Row.exists_ends hrow (List.cons_ne_nil _ _)
      cases hfirst
      simp only [insertion?, hempty, hrange, hgetFirst, hgetLast]
      cases more with
      | nil => cases hcov : k.covers j <;> simp [hcov]
      | cons m more => simp

/-- What is inserted is covered afterwards. -/
theorem covers_insert_self {s : IntervalSet T} (h : Separated s.toList) (j : Interval T) :
    (s.insert j).covers j = true :=
  (covers_iff (separated_insert h j)).2 fun c hc => (covered_insert h j c).2 (Or.inr hc)

/-- What was covered stays covered. -/
theorem covers_insert {s : IntervalSet T} (h : Separated s.toList) (j : Interval T) {k : Interval T}
    (hk : s.covers k = true) : (s.insert j).covers k = true :=
  (covers_iff (separated_insert h j)).2 fun c hc => (covered_insert h j c).2 (Or.inl ((covers_iff h).1 hk c hc))

/-! ## Erasing -/

/-- **An erasure is reported** exactly if a stored interval overlaps the erased one. -/
theorem isChanged_erase_iff {s : IntervalSet T} (h : Separated s.toList) (j : Interval T) :
    s.isChanged (.erase j) = true ↔ ∃ k ∈ s.toList, k.overlaps j = true := by
  show (s.erasure? j).isSome = true ↔ _
  cases hempty : j.isEmpty with
  | true => simp [erasure?, overlappingRange, hempty, Interval.overlaps]
  | false =>
    have hj : j.lo < j.up := Interval.isEmpty_eq_false_iff.1 hempty
    obtain ⟨A, M, B, hrow, hstart, hstop, hA, hmeet, hB⟩ := Row.overlap_split h.ascending hj
    replace hrow : s.toList = A ++ M ++ B := hrow
    have hrange : s.overlappingRange j = (A.length, A.length + M.length) := by
      simp [overlappingRange, hempty, hstart, hstop]
    rw [hrow] at h ⊢
    rw [Row.exists_overlaps_iff h.ascending hj hA hmeet hB]
    by_cases hM : M = []
    · simp [erasure?, hrange, hM]
    · obtain ⟨first, last, -, -, hgetFirst, hgetLast⟩ := Row.exists_ends hrow hM
      have hlen : 0 < M.length := List.length_pos_of_ne_nil hM
      simp [erasure?, hrange, hgetFirst, hgetLast, hlen, hM]

/-- Nothing that is stored overlaps what was erased. -/
theorem not_overlaps_erase {s : IntervalSet T} (h : Separated s.toList) (j : Interval T) {k : Interval T}
    (hk : k ∈ (s.erase j).toList) : k.overlaps j = false := by
  rw [← Bool.not_eq_true, Interval.overlaps_iff_exists_holds]
  intro hcommon
  obtain ⟨c, hkc, hjc⟩ := hcommon
  exact ((covered_erase h j c).1 ⟨k, hk, hkc⟩).2 hjc

/-! ## Reports -/

/-- A reported insertion shows at a cut that was not covered. -/
theorem isChanged_insert_iff_toList_ne {s : IntervalSet T} (h : Separated s.toList) (j : Interval T) :
    s.isChanged (.insert j) = true ↔ (s.insert j).toList ≠ s.toList := by
  refine isChanged_iff_toList_ne fun hchanged => ?_
  rw [isChanged_insert_iff h, ← Bool.not_eq_true, covers_iff h] at hchanged
  push Not at hchanged
  obtain ⟨c, hc, hbare⟩ := hchanged
  exact ⟨c, fun hsame => hbare (hsame.1 ((covered_insert h j c).2 (Or.inr hc)))⟩

/-- A reported erasure shows at a cut that was covered. -/
theorem isChanged_erase_iff_toList_ne {s : IntervalSet T} (h : Separated s.toList) (j : Interval T) :
    s.isChanged (.erase j) = true ↔ (s.erase j).toList ≠ s.toList := by
  refine isChanged_iff_toList_ne fun hchanged => ?_
  obtain ⟨k, hk, hover⟩ := (isChanged_erase_iff h j).1 hchanged
  obtain ⟨c, hkc, hjc⟩ := Interval.overlaps_iff_exists_holds.1 hover
  exact ⟨c, fun hsame => ((covered_erase h j c).1 (hsame.2 ⟨k, hk, hkc⟩)).2 hjc⟩

/-- **Changes are reported.**  Take a set however it came about, and any interval.  The set covers the interval
exactly if it is empty or a single stored interval covers it.  Inserting it is reported exactly if it was not
covered, which is exactly if the row changes; afterwards it is covered and so is all that was covered before, and
inserting it again is not reported and changes nothing.  Erasing it is reported exactly if a stored interval
overlaps it, which is exactly if the row changes; afterwards no stored interval overlaps it, and erasing it again
is not reported and changes nothing. -/
theorem History.changes_are_reported (e : History T) (i : Interval T) :
    let s := e.result
    (s.covers i = true ↔ i.isEmpty = true ∨ ∃ k ∈ s.toList, k.covers i = true) ∧
    (s.isChanged (.insert i) = true ↔ s.covers i = false) ∧
    (s.isChanged (.insert i) = true ↔ (s.insert i).toList ≠ s.toList) ∧
    (s.insert i).covers i = true ∧
    (∀ k, s.covers k = true → (s.insert i).covers k = true) ∧
    (s.insert i).isChanged (.insert i) = false ∧ (s.insert i).insert i = s.insert i ∧
    (s.isChanged (.erase i) = true ↔ ∃ k ∈ s.toList, k.overlaps i = true) ∧
    (s.isChanged (.erase i) = true ↔ (s.erase i).toList ≠ s.toList) ∧
    (∀ k ∈ (s.erase i).toList, k.overlaps i = false) ∧
    (s.erase i).isChanged (.erase i) = false ∧ (s.erase i).erase i = s.erase i := by
  intro s
  have h : Separated s.toList := e.separated_result
  have hself := covers_insert_self h i
  have hinserted : (s.insert i).isChanged (.insert i) = false := by
    rw [← Bool.not_eq_true, isChanged_insert_iff (separated_insert h i), hself]
    exact Bool.noConfusion
  have herased : (s.erase i).isChanged (.erase i) = false := by
    rw [← Bool.not_eq_true, isChanged_erase_iff (separated_erase h i)]
    intro hover
    obtain ⟨k, hk, hki⟩ := hover
    rw [not_overlaps_erase h i hk] at hki
    cases hki
  exact ⟨covers_iff_exists_mem h, isChanged_insert_iff h i, isChanged_insert_iff_toList_ne h i, hself,
    fun k => covers_insert h i, hinserted, apply_of_not_isChanged hinserted, isChanged_erase_iff h i,
    isChanged_erase_iff_toList_ne h i, fun k => not_overlaps_erase h i, herased, apply_of_not_isChanged herased⟩

end CodeAtlas.IntervalSet
