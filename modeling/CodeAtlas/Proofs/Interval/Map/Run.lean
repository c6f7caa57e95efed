import CodeAtlas.Proofs.Interval.Map.Overlay

/-!
# Runs of interval maps

A map that is built from nothing by adding, inserting and erasing has non-empty keys in ascending order, and
its value at a point is found by following the operations at that point alone.

* `get?_eq_some_iff` — looking up by bisection finds the entry that holds the point;
* `ascending_addWith`, `get?_addWith` — adding, and with it inserting;
* `ascending_erase`, `get?_erase` — erasing;
* `Operation`, `run` — whole runs, with the rule that an operation follows at a point (`Operation.rule`);
* `run_ordered_and_pointwise` — every run is ordered and follows the rule at every point.
-/

namespace CodeAtlas.IntervalMap

universe u v

variable {K : Type u} {V : Type v} [LinearOrder K] {m : IntervalMap K V} {keys : Interval K}

/-! ## Looking up -/

/-- Looking up by bisection finds the entry that holds the point. -/
theorem get?_eq_some_iff (h : Row.Ascending Prod.fst m.toList) {p : K} {y : V} :
    m.get? p = some y ↔ Maps m.toList (.below p) y := by
  have hfind : m.get? p = (m.toList.find? fun e => e.1.contains p).map Prod.snd := by
    have hlookup : m.toList.find? (fun e => e.1.contains p) =
        m.entries[Row.partitionPoint m.entries fun e => e.1.endsBefore p]?.filter
          fun e => e.1.contains p := Row.find?_eq_lookup h p
    rw [hlookup, get?]
    cases m.entries[Row.partitionPoint m.entries fun e => e.1.endsBefore p]? with
    | none => rfl
    | some e => cases hc : e.1.contains p <;> simp [Option.filter, hc]
  rw [hfind, Option.map_eq_some_iff]
  constructor
  · rintro ⟨e, he, rfl⟩
    have hc : e.1.contains p = true := by simpa using List.find?_some he
    exact ⟨e, List.mem_of_find?_eq_some he, Interval.contains_iff.1 hc, rfl⟩
  · rintro ⟨e, he, hold, rfl⟩
    have hsome : (m.toList.find? fun e => e.1.contains p).isSome :=
      List.find?_isSome.2 ⟨e, he, Interval.contains_iff.2 hold⟩
    obtain ⟨d, hd⟩ := Option.isSome_iff_exists.1 hsome
    have hc : d.1.contains p = true := by simpa using List.find?_some hd
    obtain rfl : d = e :=
      h.eq_of_holds (List.mem_of_find?_eq_some hd) he (Interval.contains_iff.1 hc) hold
    exact ⟨d, hd, rfl⟩

/-! ## The entries around the keys -/

/-- The three parts of a map around an interval, of which the middle one is what the interval overlaps. -/
theorem overlapping_split (h : Row.Ascending Prod.fst m.toList) (hkeys : keys.lo < keys.up) :
    ∃ A M B, m.toList = A ++ M ++ B ∧ m.overlappingRange keys = (A.length, A.length + M.length) ∧
      m.overlapping keys = M ∧ (∀ a ∈ A, a.1.up ≤ keys.lo) ∧
      (∀ e ∈ M, keys.lo < e.1.up ∧ e.1.lo < keys.up) ∧ ∀ b ∈ B, keys.up ≤ b.1.lo := by
  obtain ⟨A, M, B, hrow, hstart, hstop, hA, hM, hB⟩ := Row.overlap_split h hkeys
  replace hrow : m.toList = A ++ M ++ B := hrow
  have hne : keys.isEmpty = false := Interval.isEmpty_eq_false_iff.2 hkeys
  have hrange : m.overlappingRange keys = (A.length, A.length + M.length) := by
    simp [overlappingRange, hne, hstart, hstop]
  refine ⟨A, M, B, hrow, hrange, ?_, hA, hM, hB⟩
  have hentries : m.entries.toList = A ++ M ++ B := hrow
  simp [overlapping, hrange, hentries, List.extract_eq_take_drop]

/-- Entries that take the place of overlapped ones fit in if they hold no more than those and the keys. -/
theorem ascending_replace {A M B N : List (Interval K × V)} (h : Row.Ascending Prod.fst (A ++ M ++ B))
    (hA : ∀ a ∈ A, a.1.up ≤ keys.lo) (hB : ∀ b ∈ B, keys.up ≤ b.1.lo) (hN : Row.Ascending Prod.fst N)
    (hwithin : ∀ n ∈ N, ∀ c, n.1.Holds c → keys.Holds c ∨ ∃ e ∈ M, e.1.Holds c) :
    Row.Ascending Prod.fst (A ++ N ++ B) := by
  obtain ⟨-, hAM, hMB⟩ := h.middle
  refine h.replace hN ?_ ?_
  · intro a ha n hn
    rcases hwithin n hn n.1.lo ⟨le_refl _, hN.nonempty n hn⟩ with hold | ⟨e, he, hold⟩
    · exact le_trans (hA a ha) hold.1
    · exact le_trans (hAM a ha e he) hold.1
  · intro n hn b hb
    refine Interval.up_le_of_holds (hN.nonempty n hn) ?_
    intro c hc
    rcases hwithin n hn c hc with hold | ⟨e, he, hold⟩
    · exact lt_of_lt_of_le hold.2 (hB b hb)
    · exact lt_of_lt_of_le hold.2 (hMB e he b hb)

theorem not_maps_before {A : List (Interval K × V)} (hA : ∀ a ∈ A, a.1.up ≤ keys.lo) {c : Cut K}
    (hin : keys.Holds c) (y : V) : ¬Maps A c y := by
  rintro ⟨a, ha, hold, -⟩
  exact absurd (lt_of_lt_of_le hold.2 (hA a ha)) (not_lt.2 hin.1)

theorem not_maps_after {B : List (Interval K × V)} (hB : ∀ b ∈ B, keys.up ≤ b.1.lo) {c : Cut K}
    (hin : keys.Holds c) (y : V) : ¬Maps B c y := by
  rintro ⟨b, hb, hold, -⟩
  exact absurd (lt_of_lt_of_le hin.2 (hB b hb)) (not_lt.2 hold.1)

/-! ## Adding -/

section Adding

variable {combine : V → V → V} {value : V}

theorem addWith_of_isEmpty (hkeys : keys.isEmpty = true) : m.addWith combine keys value = m := by
  simp [addWith, addition?, hkeys]

/-- What adding does to the row: the keys are laid over the entries that they overlap. -/
theorem addWith_split (h : Row.Ascending Prod.fst m.toList) (combine : V → V → V)
    (hkeys : keys.lo < keys.up) (value : V) :
    ∃ A M B, m.toList = A ++ M ++ B ∧
      (m.addWith combine keys value).toList =
        A ++ overlay combine keys value (some keys.lower) M ++ B ∧
      (∀ a ∈ A, a.1.up ≤ keys.lo) ∧ (∀ e ∈ M, keys.lo < e.1.up ∧ e.1.lo < keys.up) ∧
      ∀ b ∈ B, keys.up ≤ b.1.lo := by
  obtain ⟨A, M, B, hrow, hrange, hover, hA, hM, hB⟩ := overlapping_split h hkeys
  have hne : keys.isEmpty = false := Interval.isEmpty_eq_false_iff.2 hkeys
  refine ⟨A, M, B, hrow, ?_, hA, hM, hB⟩
  have hadd : m.addition? combine keys value =
      some ⟨A.length, A.length + M.length, overlay combine keys value (some keys.lower) M⟩ := by
    cases M with
    -- where nothing is met, the keys as a whole are what is not covered yet
    | nil => simp [addition?, hne, hrange, overlay]
    | cons e rest => simp [addition?, hne, hrange, hover]
  simp only [addWith, hadd]
  exact Row.Edit.apply_of_split hrow

theorem ascending_addWith (h : Row.Ascending Prod.fst m.toList) (combine : V → V → V)
    (keys : Interval K) (value : V) : Row.Ascending Prod.fst (m.addWith combine keys value).toList := by
  cases hempty : keys.isEmpty with
  | true => rwa [addWith_of_isEmpty hempty]
  | false =>
    have hkeys := Interval.isEmpty_eq_false_iff.1 hempty
    obtain ⟨A, M, B, hrow, hadd, hA, hM, hB⟩ := addWith_split h combine hkeys value
    rw [hrow] at h
    obtain ⟨hasc, -, -⟩ := h.middle
    rw [hadd]
    refine ascending_replace h hA hB (ascending_overlay hkeys hasc hM (le_refl _)) ?_
    intro n hn c hc
    rcases (maps_overlay_keys hasc hM c n.2).1 ⟨n, hn, hc, rfl⟩ with ⟨x, ⟨e, he, hold, -⟩, -⟩ | ⟨hold, -⟩
    · exact Or.inr ⟨e, he, hold⟩
    · exact Or.inl hold

theorem maps_addWith (h : Row.Ascending Prod.fst m.toList) (combine : V → V → V) (keys : Interval K)
    (value : V) (c : Cut K) (y : V) :
    Maps (m.addWith combine keys value).toList c y ↔
      (∃ x, Maps m.toList c x ∧ y = if keys.Holds c then combine x value else x) ∨
        keys.Holds c ∧ (∀ x, ¬Maps m.toList c x) ∧ y = value := by
  cases hempty : keys.isEmpty with
  | true =>
    have hnot := Interval.not_holds_of_isEmpty hempty c
    simp [addWith_of_isEmpty hempty, hnot]
  | false =>
    have hkeys := Interval.isEmpty_eq_false_iff.1 hempty
    obtain ⟨A, M, B, hrow, hadd, hA, hM, hB⟩ := addWith_split h combine hkeys value
    rw [hrow] at h
    obtain ⟨hasc, -, -⟩ := h.middle
    rw [hrow, hadd, maps_append, maps_append, maps_overlay_keys hasc hM]
    by_cases hin : keys.Holds c
    · simp only [maps_append, not_maps_before hA hin, not_maps_after hB hin, false_or, or_false]
    · simp [hin, or_assoc]

/-- **Adding at a point** combines with the value there, or puts the new one where there is none. -/
theorem get?_addWith (h : Row.Ascending Prod.fst m.toList) (combine : V → V → V) (keys : Interval K)
    (value : V) (p : K) :
    (m.addWith combine keys value).get? p =
      if keys.contains p then some ((m.get? p).elim value (combine · value)) else m.get? p := by
  ext y
  rw [get?_eq_some_iff (ascending_addWith h combine keys value), maps_addWith h]
  simp only [← get?_eq_some_iff h, ← Interval.contains_iff]
  cases hin : keys.contains p with
  | false => simp
  | true =>
    cases m.get? p with
    | none => simp [eq_comm]
    | some x => simp [eq_comm]

end Adding

/-! ## Erasing -/

theorem erase_of_isEmpty (hkeys : keys.isEmpty = true) : m.erase keys = m := by
  simp [erase, erasure?, overlappingRange, hkeys]

/-- What erasing does to the row: of the entries that the keys overlap the outer parts are left. -/
theorem erase_split (h : Row.Ascending Prod.fst m.toList) (hkeys : keys.lo < keys.up) :
    ∃ A M B, m.toList = A ++ M ++ B ∧
      (m.erase keys).toList = A ++ (M.flatMap fun e => leftPart keys e ++ rightPart keys e) ++ B ∧
      (∀ a ∈ A, a.1.up ≤ keys.lo) ∧ (∀ e ∈ M, keys.lo < e.1.up ∧ e.1.lo < keys.up) ∧
      ∀ b ∈ B, keys.up ≤ b.1.lo := by
  obtain ⟨A, M, B, hrow, hrange, hover, hA, hM, hB⟩ := overlapping_split h hkeys
  refine ⟨A, M, B, hrow, ?_, hA, hM, hB⟩
  cases M with
  | nil =>
    have herase : m.erasure? keys = none := by simp [erasure?, hrange]
    simpa [erase, herase] using hrow
  | cons e rest =>
    have herase : m.erasure? keys = some ⟨A.length, A.length + (e :: rest).length,
        (e :: rest).flatMap fun e => leftPart keys e ++ rightPart keys e⟩ := by
      simp [erasure?, hrange, hover]
    simp only [erase, herase]
    exact Row.Edit.apply_of_split hrow

theorem ascending_erase (h : Row.Ascending Prod.fst m.toList) (keys : Interval K) :
    Row.Ascending Prod.fst (m.erase keys).toList := by
  cases hempty : keys.isEmpty with
  | true => rwa [erase_of_isEmpty hempty]
  | false =>
    have hkeys := Interval.isEmpty_eq_false_iff.1 hempty
    obtain ⟨A, M, B, hrow, herase, hA, hM, hB⟩ := erase_split h hkeys
    rw [hrow] at h
    obtain ⟨hasc, -, -⟩ := h.middle
    rw [herase]
    refine ascending_replace h hA hB (ascending_remnants hkeys hasc hM) ?_
    intro n hn c hc
    obtain ⟨⟨e, he, hold, -⟩, -⟩ := (maps_remnants hM c n.2).1 ⟨n, hn, hc, rfl⟩
    exact Or.inr ⟨e, he, hold⟩

theorem maps_erase (h : Row.Ascending Prod.fst m.toList) (keys : Interval K) (c : Cut K) (y : V) :
    Maps (m.erase keys).toList c y ↔ Maps m.toList c y ∧ ¬keys.Holds c := by
  cases hempty : keys.isEmpty with
  | true =>
    have hnot := Interval.not_holds_of_isEmpty hempty c
    simp [erase_of_isEmpty hempty, hnot]
  | false =>
    have hkeys := Interval.isEmpty_eq_false_iff.1 hempty
    obtain ⟨A, M, B, hrow, herase, hA, hM, hB⟩ := erase_split h hkeys
    rw [hrow, herase, maps_append, maps_append, maps_remnants hM]
    by_cases hin : keys.Holds c
    · simp only [not_maps_before hA hin, not_maps_after hB hin, hin, not_true, and_false, or_false]
    · simp only [hin, not_false_iff, and_true, maps_append]

/-- **Erasing at a point** leaves no value there. -/
theorem get?_erase (h : Row.Ascending Prod.fst m.toList) (keys : Interval K) (p : K) :
    (m.erase keys).get? p = if keys.contains p then none else m.get? p := by
  ext y
  rw [get?_eq_some_iff (ascending_erase h keys), maps_erase h, ← get?_eq_some_iff h,
    ← Interval.contains_iff]
  cases keys.contains p <;> simp

/-! ## Runs -/

/-- A change of a map. -/
inductive Operation (K : Type u) (V : Type v) where
  | add (combine : V → V → V) (keys : Interval K) (value : V)
  | insert (keys : Interval K) (value : V)
  | erase (keys : Interval K)

namespace Operation

/-- Makes the change. -/
def apply (m : IntervalMap K V) : Operation K V → IntervalMap K V
  | add combine keys value => m.addWith combine keys value
  | insert keys value => m.insert keys value
  | erase keys => m.erase keys

/-- What the change means at a point, given the value there before. -/
def rule (p : K) (old : Option V) : Operation K V → Option V
  | add combine keys value =>
    if keys.contains p then
      match old with
      | none => some value
      | some x => some (combine x value)
    else old
  | insert keys value => if keys.contains p then some value else old
  | erase keys => if keys.contains p then none else old

theorem ascending_apply (h : Row.Ascending Prod.fst m.toList) (o : Operation K V) :
    Row.Ascending Prod.fst (apply m o).toList := by
  cases o with
  | add combine keys value => exact ascending_addWith h combine keys value
  | insert keys value => exact ascending_addWith h _ keys value
  | erase keys => exact ascending_erase h keys

theorem get?_apply (h : Row.Ascending Prod.fst m.toList) (o : Operation K V) (p : K) :
    (apply m o).get? p = rule p (m.get? p) o := by
  cases o with
  | add combine keys value =>
    rw [apply, get?_addWith h]
    cases m.get? p <;> rfl
  | insert keys value =>
    rw [apply, IntervalMap.insert, get?_addWith h]
    cases m.get? p <;> rfl
  | erase keys => exact get?_erase h keys p

end Operation

/-- The map that comes about by operations on the empty one. -/
def run (os : List (Operation K V)) : IntervalMap K V :=
  os.foldl Operation.apply empty

/-- From any ordered map on, a run keeps the order and follows the rule at every point. -/
theorem foldl_apply_spec (os : List (Operation K V)) (h : Row.Ascending Prod.fst m.toList) :
    Row.Ascending Prod.fst (os.foldl Operation.apply m).toList ∧
      ∀ p, (os.foldl Operation.apply m).get? p = os.foldl (Operation.rule p) (m.get? p) := by
  induction os generalizing m with
  | nil => exact ⟨h, fun p => rfl⟩
  | cons o os ih =>
    have hstep := ih (Operation.ascending_apply h o)
    refine ⟨hstep.1, ?_⟩
    intro p
    rw [List.foldl_cons, List.foldl_cons, hstep.2 p, Operation.get?_apply h]

/-- **Every run is ordered and pointwise**: no key is empty, each comes before the next, and the value at a
point is what the operations, one after the other, make of it there. -/
theorem run_ordered_and_pointwise (os : List (Operation K V)) :
    (∀ e ∈ (run os).toList, e.1.isEmpty = false) ∧
      ((run os).toList.IsChain fun d e => d.1.isBefore e.1 = true) ∧
      ∀ p, (run os).get? p = os.foldl (Operation.rule p) none := by
  obtain ⟨hasc, hget⟩ := foldl_apply_spec os (m := empty) Row.spaced_nil
  refine ⟨?_, ?_, hget⟩
  · intro e he
    exact Interval.isEmpty_eq_false_iff.2 (hasc.nonempty e he)
  · apply List.Pairwise.isChain
    refine hasc.sorted.imp_of_mem fun hd he hde => ?_
    exact Interval.isBefore_iff.2 ⟨hasc.nonempty _ hd, hasc.nonempty _ he, hde⟩

end CodeAtlas.IntervalMap
