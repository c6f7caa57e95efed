import CodeAtlas.Interval.Set
import CodeAtlas.Proofs.Interval.Row

/-!
# Inserting and erasing one interval

The stored intervals of a set are separated: none is empty, and each ends strictly before the next begins.
Every change finds its place by bisection, which is right only on separated rows, and leaves a separated row
behind.  What a set contains is read off at the cuts, so that the same statements serve dense and discrete
values.

* `Separated`, `Covered` — the invariant, and the cuts that a row of intervals covers;
* `contains_iff` — membership by bisection is membership in some stored interval;
* `separated_insert`, `covered_insert` — inserting;
* `separated_erase`, `covered_erase` — erasing.
-/

namespace CodeAtlas

universe u

variable {T : Type u} [LinearOrder T]

/-! ## Separated rows -/

/-- Non-empty intervals in ascending order, no two of which overlap or touch. -/
abbrev Separated : List (Interval T) → Prop :=
  Row.Spaced (· < ·) fun i => i

/-- The cut lies in one of the intervals. -/
def Covered (l : List (Interval T)) (c : Cut T) : Prop :=
  ∃ i ∈ l, i.Holds c

@[simp] theorem covered_nil (c : Cut T) : ¬Covered [] c := by
  simp [Covered]

@[simp] theorem covered_cons {i : Interval T} {l : List (Interval T)} {c : Cut T} :
    Covered (i :: l) c ↔ i.Holds c ∨ Covered l c := by
  simp [Covered]

@[simp] theorem covered_append {l m : List (Interval T)} {c : Cut T} :
    Covered (l ++ m) c ↔ Covered l c ∨ Covered m c := by
  simp [Covered, or_and_right, exists_or]

@[simp] theorem covered_toList {o : Option (Interval T)} {c : Cut T} :
    Covered o.toList c ↔ ∃ k ∈ o, k.Holds c := by
  simp [Covered]

theorem Separated.ascending {l : List (Interval T)} (h : Separated l) : Row.Ascending (fun i => i) l :=
  Row.Spaced.ascending (fun hlt => le_of_lt hlt) h

namespace IntervalSet

/-- Membership by bisection is membership in some stored interval. -/
theorem contains_iff {s : IntervalSet T} (h : Separated s.toList) {v : T} :
    s.contains v = true ↔ Covered s.toList (.below v) := by
  have hlookup : s.toList.find? (fun i => i.contains v) =
      s.intervals[Row.partitionPoint s.intervals fun i => i.endsBefore v]?.filter
        fun i => i.contains v := Row.find?_eq_lookup h.ascending v
  have hany : s.contains v = (s.toList.find? fun i => i.contains v).isSome := by
    rw [hlookup, contains]
    cases s.intervals[Row.partitionPoint s.intervals fun i => i.endsBefore v]? with
    | none => rfl
    | some i => cases hc : i.contains v <;> simp [Option.filter, hc]
  rw [hany, List.find?_isSome]
  simp only [Interval.contains_iff]
  exact Iff.rfl

/-! ## Inserting -/

/-- The three parts of a set around an interval: what ends strictly before it, what it overlaps or touches,
and what begins strictly after it. -/
theorem touchingRange_split {s : IntervalSet T} (h : Separated s.toList) {j : Interval T}
    (hj : j.lo < j.up) :
    ∃ A M B, s.toList = A ++ M ++ B ∧ s.touchingRange j = (A.length, A.length + M.length) ∧
      (∀ a ∈ A, a.up < j.lo) ∧ (∀ m ∈ M, j.lo ≤ m.up ∧ m.lo ≤ j.up) ∧ ∀ b ∈ B, j.up < b.lo := by
  have hbefore : ∀ i ∈ s.toList, (i.isBefore j && !i.isTouching j) = true ↔ i.up < j.lo :=
    fun i hi => Interval.isApart_iff (h.nonempty i hi) hj
  have hafter : ∀ i ∈ s.toList, (!(j.isBefore i && !j.isTouching i)) = true ↔ i.lo ≤ j.up :=
    fun i hi => Interval.not_isApart_iff hj (h.nonempty i hi)
  obtain ⟨A, M, B, hrow, hstart, hstop, hA, hM, hB⟩ :=
    h.ascending.split (P := (· < j.lo)) (Q := (· ≤ j.up)) hbefore hafter lt_of_le_of_lt le_trans
      fun hlt => le_trans (le_of_lt hlt) hj.le
  refine ⟨A, M, B, hrow, ?_, hA, ?_, ?_⟩
  · simp only [touchingRange, hstart, hstop, Nat.max_eq_left (Nat.le_add_right _ _)]
  · exact fun m hm => ⟨not_lt.1 (hM m hm).1, (hM m hm).2⟩
  · exact fun b hb => not_le.1 (hB b hb)

/-- An interval joined with intervals that it meets holds what they hold, since no room is left in between:
where it has not begun yet the first of them reaches up to it, and where it has ended the last of them
carries on. -/
theorem holds_joined {M : List (Interval T)} {first last j k : Interval T} (hM : Separated M)
    (hfirst : M.head? = some first) (hlast : M.getLast? = some last)
    (hmeet : ∀ m ∈ M, j.lo ≤ m.up ∧ m.lo ≤ j.up) (hlo : k.lo = min first.lo j.lo)
    (hup : k.up = max last.up j.up) (c : Cut T) : k.Holds c ↔ j.Holds c ∨ Covered M c := by
  have hfirstM : first ∈ M := List.mem_of_mem_head? hfirst
  have hlastM : last ∈ M := List.mem_of_mem_getLast? hlast
  rw [Interval.Holds, hlo, hup, min_le_iff, lt_max_iff]
  constructor
  · rintro ⟨hge, hlt⟩
    by_cases hstart : j.lo ≤ c
    · by_cases hend : c < j.up
      · exact Or.inl ⟨hstart, hend⟩
      · have hc : last.lo ≤ c := le_trans (hmeet last hlastM).2 (not_lt.1 hend)
        exact Or.inr ⟨last, hlastM, hc, hlt.resolve_right hend⟩
    · have hc : c < first.up := lt_of_lt_of_le (not_le.1 hstart) (hmeet first hfirstM).1
      exact Or.inr ⟨first, hfirstM, hge.resolve_right hstart, hc⟩
  · rintro (⟨hge, hlt⟩ | ⟨m, hm, hge, hlt⟩)
    · exact ⟨Or.inr hge, Or.inr hlt⟩
    · exact ⟨Or.inl (le_trans (hM.ascending.head_le hfirst m hm) hge),
        Or.inl (lt_of_lt_of_le hlt (hM.ascending.le_getLast hlast m hm))⟩

/-- Where the new interval meets stored ones, one interval around all of them takes their place. -/
theorem insert_meeting {s : IntervalSet T} {A M B : List (Interval T)} {j : Interval T} (hj : j.lo < j.up)
    (hrow : s.toList = A ++ M ++ B) (hrange : s.touchingRange j = (A.length, A.length + M.length))
    (hM : M ≠ []) :
    ∃ first last k, M.head? = some first ∧ M.getLast? = some last ∧
      (s.insert j).toList = A ++ [k] ++ B ∧ k.lo = min first.lo j.lo ∧ k.up = max last.up j.up := by
  have hne : j.isEmpty = false := Interval.isEmpty_eq_false_iff.2 hj
  have hlen : 0 < M.length := List.length_pos_of_ne_nil hM
  obtain ⟨first, last, hfirst, hlast, hgetFirst, hgetLast⟩ := Row.exists_ends hrow hM
  by_cases hcovers : M.length = 1 ∧ first.covers j
  · -- the one interval that is met holds the new one already
    obtain ⟨hone, hcov⟩ := hcovers
    obtain ⟨m, rfl⟩ := List.length_eq_one_iff.1 hone
    obtain rfl : m = first := by simpa using hfirst
    obtain rfl : m = last := by simpa using hlast
    have hinsert : s.insert j = s := by
      simp [insert, apply, edit?, insertion?, hne, hrange, hgetFirst, hcov]
    obtain ⟨-, hcovlo, hcovup⟩ := (Interval.covers_iff.1 hcov).resolve_left (not_le.2 hj)
    exact ⟨m, m, m, rfl, rfl, by rw [hinsert, hrow], (min_eq_left hcovlo).symm,
      (max_eq_left hcovup).symm⟩
  · refine ⟨first, last, ⟨Bound.minLower first.lower j.lower, Bound.maxUpper last.upper j.upper⟩,
      hfirst, hlast, ?_, Bound.lowerCut_minLower _ _, Bound.upperCut_maxUpper _ _⟩
    have hinsert : s.insertion? j = some ⟨A.length, A.length + M.length,
        [⟨Bound.minLower first.lower j.lower, Bound.maxUpper last.upper j.upper⟩]⟩ := by
      simp [insertion?, hne, hrange, hlen, hgetFirst, hgetLast, hcovers]
    simp only [insert, apply, edit?, hinsert]
    exact Row.Edit.apply_of_split hrow

/-- What inserting does to the row: the stored intervals that the new one meets give way to one that holds
what they and the new one hold. -/
theorem insert_split {s : IntervalSet T} (h : Separated s.toList) {j : Interval T} (hj : j.lo < j.up) :
    ∃ A M B k, s.toList = A ++ M ++ B ∧ (s.insert j).toList = A ++ [k] ++ B ∧
      (∀ a ∈ A, a.up < k.lo) ∧ (∀ b ∈ B, k.up < b.lo) ∧ k.lo < k.up ∧
      ∀ c, k.Holds c ↔ j.Holds c ∨ Covered M c := by
  obtain ⟨A, M, B, hrow, hrange, hA, hM, hB⟩ := touchingRange_split h hj
  by_cases hMne : M = []
  · subst hMne
    refine ⟨A, [], B, j, hrow, ?_, hA, hB, hj, by simp⟩
    have hne : j.isEmpty = false := Interval.isEmpty_eq_false_iff.2 hj
    have hinsert : s.insertion? j = some ⟨A.length, A.length, [j]⟩ := by
      simp [insertion?, hne, hrange]
    simp only [insert, apply, edit?, hinsert]
    exact Row.Edit.apply_of_split (M := []) hrow
  · obtain ⟨first, last, k, hfirst, hlast, hinsert, hlo, hup⟩ := insert_meeting hj hrow hrange hMne
    rw [hrow] at h
    obtain ⟨hsep, hAM, hMB⟩ := h.middle
    refine ⟨A, M, B, k, hrow, hinsert, ?_, ?_, ?_, holds_joined hsep hfirst hlast hM hlo hup⟩
    · intro a ha
      rw [hlo, lt_min_iff]
      exact ⟨hAM a ha first (List.mem_of_mem_head? hfirst), hA a ha⟩
    · intro b hb
      rw [hup, max_lt_iff]
      exact ⟨hMB last (List.mem_of_mem_getLast? hlast) b hb, hB b hb⟩
    · rw [hlo, hup, min_lt_iff, lt_max_iff, lt_max_iff]
      exact Or.inr (Or.inr hj)

theorem insert_of_isEmpty {s : IntervalSet T} {j : Interval T} (hj : j.isEmpty = true) :
    s.insert j = s := by
  simp [insert, apply, edit?, insertion?, hj]

theorem separated_insert {s : IntervalSet T} (h : Separated s.toList) (j : Interval T) :
    Separated (s.insert j).toList := by
  cases hj : j.isEmpty with
  | true => rwa [insert_of_isEmpty hj]
  | false =>
    obtain ⟨A, M, B, k, hrow, hinsert, hA, hB, hk, -⟩ :=
      insert_split h (Interval.isEmpty_eq_false_iff.1 hj)
    rw [hrow] at h
    rw [hinsert]
    exact h.replace (Row.spaced_singleton hk) (by simpa using hA) (by simpa using hB)

theorem covered_insert {s : IntervalSet T} (h : Separated s.toList) (j : Interval T) (c : Cut T) :
    Covered (s.insert j).toList c ↔ Covered s.toList c ∨ j.Holds c := by
  cases hj : j.isEmpty with
  | true => simp [insert_of_isEmpty hj, Interval.not_holds_of_isEmpty hj c]
  | false =>
    obtain ⟨A, M, B, k, hrow, hinsert, -, -, -, hk⟩ :=
      insert_split h (Interval.isEmpty_eq_false_iff.1 hj)
    rw [hrow, hinsert]
    simp only [covered_append, covered_cons, covered_nil, or_false, hk c]
    tauto

/-! ## Erasing -/

/-- What is left of intervals that an erased one overlaps: a piece of the first before it and a piece of the
last after it. -/
theorem covered_remnants {M : List (Interval T)} {first last j : Interval T} (hM : Separated M)
    (hfirst : M.head? = some first) (hlast : M.getLast? = some last)
    (hmeet : ∀ m ∈ M, j.lo < m.up ∧ m.lo < j.up) (c : Cut T) :
    Covered ((Interval.until? first.lower j.lower).toList ++
      (Interval.after? j.upper last.upper).toList) c ↔ Covered M c ∧ ¬j.Holds c := by
  have hfirstM : first ∈ M := List.mem_of_mem_head? hfirst
  have hlastM : last ∈ M := List.mem_of_mem_getLast? hlast
  rw [covered_append, covered_toList, covered_toList, Interval.holds_until?, Interval.holds_after?]
  constructor
  · rintro (⟨hge, hlt⟩ | ⟨hge, hlt⟩)
    · exact ⟨⟨first, hfirstM, hge, lt_trans hlt (hmeet first hfirstM).1⟩,
        fun hold => absurd hold.1 (not_le.2 hlt)⟩
    · exact ⟨⟨last, hlastM, le_trans (hmeet last hlastM).2.le hge, hlt⟩,
        fun hold => absurd hold.2 (not_lt.2 hge)⟩
  · rintro ⟨⟨m, hm, hge, hlt⟩, hnot⟩
    by_cases hstart : c < j.lo
    · exact Or.inl ⟨le_trans (hM.ascending.head_le hfirst m hm) hge, hstart⟩
    · have hend : j.up ≤ c := not_lt.1 fun hend => hnot ⟨not_lt.1 hstart, hend⟩
      exact Or.inr ⟨hend, lt_of_lt_of_le hlt (hM.ascending.le_getLast hlast m hm)⟩

theorem separated_remnants {lower upper : Bound T} {j : Interval T} (hj : j.lo < j.up) :
    Separated ((Interval.until? lower j.lower).toList ++ (Interval.after? j.upper upper).toList) := by
  refine Row.spaced_append.2 ⟨?_, ?_, ?_⟩
  · cases hl : Interval.until? lower j.lower with
    | none => exact Row.spaced_nil
    | some k => exact Row.spaced_singleton (Interval.until?_eq_some hl).2.2
  · cases hr : Interval.after? j.upper upper with
    | none => exact Row.spaced_nil
    | some k => exact Row.spaced_singleton (Interval.after?_eq_some hr).2.2
  · intro l hl r hr
    have hl' := Interval.until?_eq_some (Option.mem_toList.1 hl)
    have hr' := Interval.after?_eq_some (Option.mem_toList.1 hr)
    rw [hl'.2.1, hr'.1]
    exact hj

/-- What erasing does to the row: the stored intervals that the erased one overlaps give way to what is left
of them. -/
theorem erase_split {s : IntervalSet T} (h : Separated s.toList) {j : Interval T} (hj : j.lo < j.up) :
    ∃ A M B N, s.toList = A ++ M ++ B ∧ (s.erase j).toList = A ++ N ++ B ∧ Separated N ∧
      (∀ a ∈ A, a.up ≤ j.lo ∧ ∀ n ∈ N, a.up < n.lo) ∧ (∀ b ∈ B, j.up ≤ b.lo ∧ ∀ n ∈ N, n.up < b.lo) ∧
      ∀ c, Covered N c ↔ Covered M c ∧ ¬j.Holds c := by
  obtain ⟨A, M, B, hrow, hstart, hstop, hA, hM, hB⟩ := Row.overlap_split h.ascending hj
  replace hrow : s.toList = A ++ M ++ B := hrow
  have hne : j.isEmpty = false := Interval.isEmpty_eq_false_iff.2 hj
  have hrange : s.overlappingRange j = (A.length, A.length + M.length) := by
    simp [overlappingRange, hne, hstart, hstop]
  by_cases hMne : M = []
  · subst hMne
    have herase : s.erasure? j = none := by simp [erasure?, hrange]
    refine ⟨A, [], B, [], hrow, ?_, Row.spaced_nil, by simpa using hA, by simpa using hB, by simp⟩
    simpa [erase, apply, edit?, herase] using hrow
  · have hlen : 0 < M.length := List.length_pos_of_ne_nil hMne
    obtain ⟨first, last, hfirst, hlast, hgetFirst, hgetLast⟩ := Row.exists_ends hrow hMne
    have herase : s.erasure? j = some ⟨A.length, A.length + M.length,
        (Interval.until? first.lower j.lower).toList ++
          (Interval.after? j.upper last.upper).toList⟩ := by
      simp [erasure?, hrange, hlen, hgetFirst, hgetLast]
    rw [hrow] at h
    obtain ⟨hsep, hAM, hMB⟩ := h.middle
    refine ⟨A, M, B, _, hrow, ?_, separated_remnants hj, ?_, ?_, covered_remnants hsep hfirst hlast hM⟩
    · simp only [erase, apply, edit?, herase]
      exact Row.Edit.apply_of_split hrow
    · intro a ha
      refine ⟨hA a ha, ?_⟩
      intro n hn
      rcases List.mem_append.1 hn with hn | hn
      · rw [(Interval.until?_eq_some (Option.mem_toList.1 hn)).1]
        exact hAM a ha first (List.mem_of_mem_head? hfirst)
      · rw [(Interval.after?_eq_some (Option.mem_toList.1 hn)).1]
        exact lt_of_le_of_lt (hA a ha) hj
    · intro b hb
      refine ⟨hB b hb, ?_⟩
      intro n hn
      rcases List.mem_append.1 hn with hn | hn
      · rw [(Interval.until?_eq_some (Option.mem_toList.1 hn)).2.1]
        exact lt_of_lt_of_le hj (hB b hb)
      · rw [(Interval.after?_eq_some (Option.mem_toList.1 hn)).2.1]
        exact hMB last (List.mem_of_mem_getLast? hlast) b hb

theorem erase_of_isEmpty {s : IntervalSet T} {j : Interval T} (hj : j.isEmpty = true) :
    s.erase j = s := by
  simp [erase, apply, edit?, erasure?, overlappingRange, hj]

theorem separated_erase {s : IntervalSet T} (h : Separated s.toList) (j : Interval T) :
    Separated (s.erase j).toList := by
  cases hj : j.isEmpty with
  | true => rwa [erase_of_isEmpty hj]
  | false =>
    obtain ⟨A, M, B, N, hrow, herase, hN, hA, hB, -⟩ :=
      erase_split h (Interval.isEmpty_eq_false_iff.1 hj)
    rw [hrow] at h
    rw [herase]
    exact h.replace hN (fun a ha => (hA a ha).2) (fun n hn b hb => (hB b hb).2 n hn)

theorem covered_erase {s : IntervalSet T} (h : Separated s.toList) (j : Interval T) (c : Cut T) :
    Covered (s.erase j).toList c ↔ Covered s.toList c ∧ ¬j.Holds c := by
  cases hj : j.isEmpty with
  | true => simp [erase_of_isEmpty hj, Interval.not_holds_of_isEmpty hj c]
  | false =>
    obtain ⟨A, M, B, N, hrow, herase, -, hA, hB, hN⟩ :=
      erase_split h (Interval.isEmpty_eq_false_iff.1 hj)
    -- what stands outside of the overlap has nothing in common with the erased interval
    have hbefore : Covered A c → ¬j.Holds c := by
      rintro ⟨a, ha, -, hlt⟩ hold
      exact absurd hold.1 (not_le.2 (lt_of_lt_of_le hlt (hA a ha).1))
    have hafter : Covered B c → ¬j.Holds c := by
      rintro ⟨b, hb, hge, -⟩ hold
      exact absurd hold.2 (not_lt.2 (le_trans (hB b hb).1 hge))
    rw [hrow, herase]
    simp only [covered_append, hN c]
    tauto

end IntervalSet

end CodeAtlas
