import CodeAtlas.Proofs.Interval.Map.Run
import CodeAtlas.Proofs.Interval.Set.Canonical

/-!
# What an update of an interval map leaves alone

An update takes the entries that its keys overlap apart and leaves all others where they are.  What it puts in
their place lies inside the keys, or is a part of one of those entries outside of the keys.  The set of points that
have a value changes by the keys alone, and that is sameness of the stored intervals, however the entries were cut.

* `covered_addWith`, `covered_erase` — the set of points that have a value;
* `Placed`, `placed_overlay`, `placed_remnants` — where the new entries lie;
* `Frame`, `frame_addWith`, `frame_erase` — what is kept, and where the entries lie afterwards;
* `isSome_erasure?_iff`, `isSome_erasure?_iff_toList_ne` — when an erasure is reported;
* `updates_are_framed` — all this about every map and every update.
-/

namespace CodeAtlas.IntervalMap

universe u v

variable {K : Type u} {V : Type v} [LinearOrder K] {m n : IntervalMap K V} {keys : Interval K}

/-! ## The points that have a value -/

theorem separated_covered (m : IntervalMap K V) : Separated m.covered.toList :=
  IntervalSet.separated_applyAll IntervalSet.separated_empty _

/-- A cut is covered if it has a value. -/
theorem covered_covered_iff {c : Cut K} : Covered m.covered.toList c ↔ ∃ x, Maps m.toList c x := by
  rw [covered, IntervalSet.covered_ofList]
  constructor
  · rintro ⟨i, hi, hold⟩
    obtain ⟨e, he, rfl⟩ := List.mem_map.1 hi
    exact ⟨e.2, e, he, hold, rfl⟩
  · rintro ⟨-, e, he, hold, -⟩
    exact ⟨e.1, List.mem_map_of_mem he, hold⟩

/-- **Adding covers the keys**, and nothing else that was not covered. -/
theorem covered_addWith (h : Row.Ascending Prod.fst m.toList) (combine : V → V → V) (keys : Interval K)
    (value : V) : (m.addWith combine keys value).covered = m.covered.insert keys := by
  refine IntervalSet.ext_covered (separated_covered _) (IntervalSet.separated_insert (separated_covered m) keys) ?_
  intro c
  rw [IntervalSet.covered_insert (separated_covered m), covered_covered_iff, covered_covered_iff]
  simp only [maps_addWith h]
  constructor
  · rintro ⟨y, ⟨x, hx, -⟩ | ⟨hkeys, -⟩⟩
    · exact Or.inl ⟨x, hx⟩
    · exact Or.inr hkeys
  · intro hcov
    by_cases hold : ∃ x, Maps m.toList c x
    · obtain ⟨x, hx⟩ := hold
      exact ⟨_, Or.inl ⟨x, hx, rfl⟩⟩
    · exact ⟨value, Or.inr ⟨hcov.resolve_left hold, not_exists.1 hold, rfl⟩⟩

/-- **Erasing uncovers the keys**, and nothing else that was covered. -/
theorem covered_erase (h : Row.Ascending Prod.fst m.toList) (keys : Interval K) :
    (m.erase keys).covered = m.covered.erase keys := by
  refine IntervalSet.ext_covered (separated_covered _) (IntervalSet.separated_erase (separated_covered m) keys) ?_
  intro c
  rw [IntervalSet.covered_erase (separated_covered m), covered_covered_iff, covered_covered_iff]
  simp only [maps_erase h, exists_and_right]

/-! ## Where the new entries lie -/

theorem covers_of_cuts {i j : Interval K} (hi : i.lo < i.up) (hlo : i.lo ≤ j.lo) (hup : j.up ≤ i.up) :
    i.covers j = true :=
  Interval.covers_iff.2 (Or.inr ⟨hi, hlo, hup⟩)

theorem not_overlaps_of_cuts {i : Interval K} (h : i.up ≤ keys.lo ∨ keys.up ≤ i.lo) :
    i.overlaps keys = false := by
  rw [← Bool.not_eq_true, Interval.overlaps_iff]
  rintro ⟨-, -, hbegin, hend⟩
  rcases h with h | h
  · exact absurd h (not_le.2 hend)
  · exact absurd h (not_le.2 hbegin)

/-- An entry lies inside the keys, or it lies inside an entry of the row and outside of the keys. -/
def Placed (keys : Interval K) (l : List (Interval K × V)) (n : Interval K × V) : Prop :=
  keys.covers n.1 = true ∨ (∃ e ∈ l, e.1.covers n.1 = true) ∧ n.1.overlaps keys = false

theorem Placed.mono {l l' : List (Interval K × V)} (hl : l ⊆ l') {n : Interval K × V} (h : Placed keys l n) :
    Placed keys l' n :=
  h.imp_right fun ⟨⟨e, he, hcov⟩, hout⟩ => ⟨⟨e, hl he, hcov⟩, hout⟩

/-- The outer parts of an entry that the keys overlap. -/
theorem placed_outer {l : List (Interval K × V)} {e n : Interval K × V} (he : e ∈ l) (hne : e.1.lo < e.1.up)
    (hover : keys.lo < e.1.up ∧ e.1.lo < keys.up) (hn : n ∈ leftPart keys e ∨ n ∈ rightPart keys e) :
    Placed keys l n := by
  rcases hn with hn | hn
  · obtain ⟨hlo, hup, -⟩ := mem_leftPart hn
    refine Or.inr ⟨⟨e, he, covers_of_cuts hne hlo.ge ?_⟩, not_overlaps_of_cuts (Or.inl hup.le)⟩
    rw [hup]
    exact hover.1.le
  · obtain ⟨hlo, hup, -⟩ := mem_rightPart hn
    refine Or.inr ⟨⟨e, he, covers_of_cuts hne ?_ hup.le⟩, not_overlaps_of_cuts (Or.inr hlo.ge)⟩
    rw [hlo]
    exact hover.2.le

/-- The pieces of an entry: the outer parts, and what lies inside the keys. -/
theorem placed_pieces {combine : V → V → V} {value : V} {uncovered : Option (Bound K)}
    {l : List (Interval K × V)} {e n : Interval K × V} (hkeys : keys.lo < keys.up) (he : e ∈ l)
    (hne : e.1.lo < e.1.up) (hover : keys.lo < e.1.up ∧ e.1.lo < keys.up)
    (hcut : keys.lo ≤ uncoveredCut uncovered) (hn : n ∈ pieces combine keys value uncovered e) :
    Placed keys l n := by
  simp only [pieces, List.mem_append] at hn
  rcases hn with ((hn | hn) | hn) | hn
  · exact placed_outer he hne hover (Or.inl hn)
  · obtain ⟨hlo, hup, -⟩ := mem_gap (fst_mem_of_mem_piece hn)
    refine Or.inl (covers_of_cuts hkeys ?_ ?_)
    · rw [hlo]
      exact hcut
    · rw [hup]
      exact hover.2.le
  · obtain ⟨hlo, hup, -⟩ := Interval.intersection?_eq_some (fst_mem_of_mem_piece hn)
    refine Or.inl (covers_of_cuts hkeys ?_ ?_)
    · rw [hlo]
      exact le_max_right _ _
    · rw [hup]
      exact min_le_right _ _
  · exact placed_outer he hne hover (Or.inr hn)

/-- What is laid over the entries.  The part of the keys that is not covered yet begins inside of them all along,
since every entry that is met ends after they begin. -/
theorem placed_overlay {combine : V → V → V} {value : V} {uncovered : Option (Bound K)}
    {M : List (Interval K × V)} (hkeys : keys.lo < keys.up) (hM : Row.Ascending Prod.fst M)
    (hover : ∀ e ∈ M, keys.lo < e.1.up ∧ e.1.lo < keys.up) (hcut : keys.lo ≤ uncoveredCut uncovered)
    {n : Interval K × V} (hn : n ∈ overlay combine keys value uncovered M) : Placed keys M n := by
  induction M generalizing uncovered with
  | nil =>
    cases uncovered with
    | none => cases hn
    | some lower =>
      cases hempty : (⟨lower, keys.upper⟩ : Interval K).isEmpty with
      | true => simp [overlay, hempty] at hn
      | false =>
        obtain rfl : n = (⟨lower, keys.upper⟩, value) := by simpa [overlay, hempty] using hn
        exact Or.inl (covers_of_cuts hkeys hcut (le_refl keys.up))
  | cons e rest ih =>
    obtain ⟨he, -, hasc⟩ := Row.spaced_cons.1 hM
    obtain ⟨hovere, hoverRest⟩ := List.forall_mem_cons.1 hover
    rw [overlay_cons, List.mem_append] at hn
    rcases hn with hn | hn
    · exact placed_pieces hkeys List.mem_cons_self he hovere hcut hn
    · have hcutNext : keys.lo ≤ uncoveredCut e.1.upper.complement? := by
        rw [uncoveredCut_complement?]
        exact hovere.1.le
      exact (ih hasc hoverRest hcutNext hn).mono (List.subset_cons_self e rest)

/-- What is left of the entries when the keys are erased. -/
theorem placed_remnants {M : List (Interval K × V)} (hM : Row.Ascending Prod.fst M)
    (hover : ∀ e ∈ M, keys.lo < e.1.up ∧ e.1.lo < keys.up) {n : Interval K × V}
    (hn : n ∈ M.flatMap fun e => leftPart keys e ++ rightPart keys e) : Placed keys M n := by
  obtain ⟨e, he, hn⟩ := List.mem_flatMap.1 hn
  exact placed_outer he (hM.nonempty e he) (hover e he) (List.mem_append.1 hn)

/-! ## What is kept -/

/-- What an update of a map at `keys` may do: entries that do not overlap the keys are still stored, and afterwards
every entry lies inside the keys, or inside an entry that was stored before and outside of the keys. -/
structure Frame (keys : Interval K) (m n : IntervalMap K V) : Prop where
  kept : ∀ e ∈ m.toList, e.1.overlaps keys = false → e ∈ n.toList
  placed : ∀ e ∈ n.toList, Placed keys m.toList e

/-- Nothing happens where nothing is overlapped. -/
theorem frame_refl (hkeys : keys.isEmpty = true) : Frame keys m m where
  kept _ he _ := he
  placed e he := by
    refine Or.inr ⟨⟨e, he, e.1.covers_refl⟩, ?_⟩
    simp [Interval.overlaps, hkeys]

/-- The entries that the keys overlap give way to others. -/
theorem frame_replace {A M B N : List (Interval K × V)} (h : Row.Ascending Prod.fst m.toList)
    (hkeys : keys.lo < keys.up) (hm : m.toList = A ++ M ++ B) (hn : n.toList = A ++ N ++ B)
    (hA : ∀ a ∈ A, a.1.up ≤ keys.lo) (hM : ∀ e ∈ M, keys.lo < e.1.up ∧ e.1.lo < keys.up)
    (hB : ∀ b ∈ B, keys.up ≤ b.1.lo) (hN : ∀ e ∈ N, Placed keys M e) : Frame keys m n where
  kept e he hout := by
    rw [hm, List.mem_append, List.mem_append] at he
    rw [hn, List.mem_append, List.mem_append]
    rcases he with (he | he) | he
    · exact Or.inl (Or.inl he)
    · have hmem : e ∈ m.toList := by
        rw [hm]
        exact List.mem_append_left _ (List.mem_append_right _ he)
      have hover : e.1.overlaps keys = true :=
        Interval.overlaps_iff.2 ⟨h.nonempty e hmem, hkeys, (hM e he).2, (hM e he).1⟩
      rw [hout] at hover
      cases hover
    · exact Or.inr he
  placed e he := by
    have hold : e ∈ m.toList → (e.1.up ≤ keys.lo ∨ keys.up ≤ e.1.lo) → Placed keys m.toList e :=
      fun hmem hcuts => Or.inr ⟨⟨e, hmem, e.1.covers_refl⟩, not_overlaps_of_cuts hcuts⟩
    rw [hn, List.mem_append, List.mem_append] at he
    rcases he with (he | he) | he
    · exact hold (by rw [hm]; simp [he]) (Or.inl (hA e he))
    · refine (hN e he).mono ?_
      rw [hm]
      exact fun x hx => List.mem_append_left _ (List.mem_append_right _ hx)
    · exact hold (by rw [hm]; simp [he]) (Or.inr (hB e he))

theorem frame_addWith (h : Row.Ascending Prod.fst m.toList) (combine : V → V → V) (keys : Interval K)
    (value : V) : Frame keys m (m.addWith combine keys value) := by
  cases hempty : keys.isEmpty with
  | true =>
    rw [addWith_of_isEmpty hempty]
    exact frame_refl hempty
  | false =>
    have hkeys := Interval.isEmpty_eq_false_iff.1 hempty
    obtain ⟨A, M, B, hrow, hadd, hA, hM, hB⟩ := addWith_split h combine hkeys value
    have hasc : Row.Ascending Prod.fst M := by
      rw [hrow] at h
      exact h.middle.1
    exact frame_replace h hkeys hrow hadd hA hM hB fun e he => placed_overlay hkeys hasc hM (le_refl _) he

theorem frame_erase (h : Row.Ascending Prod.fst m.toList) (keys : Interval K) : Frame keys m (m.erase keys) := by
  cases hempty : keys.isEmpty with
  | true =>
    rw [erase_of_isEmpty hempty]
    exact frame_refl hempty
  | false =>
    have hkeys := Interval.isEmpty_eq_false_iff.1 hempty
    obtain ⟨A, M, B, hrow, herase, hA, hM, hB⟩ := erase_split h hkeys
    have hasc : Row.Ascending Prod.fst M := by
      rw [hrow] at h
      exact h.middle.1
    exact frame_replace h hkeys hrow herase hA hM hB fun e he => placed_remnants hasc hM he

/-! ## What erasing reports -/

/-- **An erasure is reported** exactly if a stored key overlaps the erased ones. -/
theorem isSome_erasure?_iff (h : Row.Ascending Prod.fst m.toList) (keys : Interval K) :
    (m.erasure? keys).isSome = true ↔ ∃ e ∈ m.toList, e.1.overlaps keys = true := by
  cases hempty : keys.isEmpty with
  | true => simp [erasure?, overlappingRange, hempty, Interval.overlaps]
  | false =>
    have hkeys := Interval.isEmpty_eq_false_iff.1 hempty
    obtain ⟨A, M, B, hrow, hrange, -, hA, hM, hB⟩ := overlapping_split h hkeys
    rw [hrow] at h ⊢
    rw [Row.exists_overlaps_iff h hkeys hA hM hB]
    cases M with
    | nil => simp [erasure?, hrange]
    | cons e rest => simp [erasure?, hrange]

/-- A reported erasure shows: somewhere in the keys there was a value, and there is none afterwards. -/
theorem isSome_erasure?_iff_toList_ne (h : Row.Ascending Prod.fst m.toList) (keys : Interval K) :
    (m.erasure? keys).isSome = true ↔ (m.erase keys).toList ≠ m.toList := by
  constructor
  · intro hsome hsame
    obtain ⟨e, he, hover⟩ := (isSome_erasure?_iff h keys).1 hsome
    obtain ⟨c, hec, hkeysc⟩ := Interval.overlaps_iff_exists_holds.1 hover
    have hmaps : Maps (m.erase keys).toList c e.2 := by
      rw [hsame]
      exact ⟨e, he, hec, rfl⟩
    exact ((maps_erase h keys c e.2).1 hmaps).2 hkeysc
  · intro hne
    by_contra hnone
    rw [Option.not_isSome_iff_eq_none] at hnone
    exact hne (by simp [erase, hnone])

/-! ## Runs -/

namespace Operation

/-- The keys that an operation is about. -/
def scope : Operation K V → Interval K
  | add _ keys _ => keys
  | insert keys _ => keys
  | erase keys => keys

/-- What an operation means for the set of points that have a value. -/
def coverage (s : IntervalSet K) : Operation K V → IntervalSet K
  | add _ keys _ => s.insert keys
  | insert keys _ => s.insert keys
  | erase keys => s.erase keys

theorem covered_apply (h : Row.Ascending Prod.fst m.toList) (o : Operation K V) :
    (o.apply m).covered = o.coverage m.covered := by
  cases o with
  | add combine keys value => exact covered_addWith h combine keys value
  | insert keys value => exact covered_addWith h _ keys value
  | erase keys => exact covered_erase h keys

theorem frame_apply (h : Row.Ascending Prod.fst m.toList) (o : Operation K V) : Frame o.scope m (o.apply m) := by
  cases o with
  | add combine keys value => exact frame_addWith h combine keys value
  | insert keys value => exact frame_addWith h _ keys value
  | erase keys => exact frame_erase h keys

theorem apply_of_isEmpty {o : Operation K V} (hkeys : o.scope.isEmpty = true) : o.apply m = m := by
  cases o with
  | add combine keys value => exact addWith_of_isEmpty hkeys
  | insert keys value => exact addWith_of_isEmpty hkeys
  | erase keys => exact erase_of_isEmpty hkeys

end Operation

/-- **Updates are framed.**  Take a map however it came about, and add, insert or erase at any keys.  The set of
points that have a value is the one before with the keys inserted or erased.  Every entry that does not overlap the
keys is still stored, and every entry that is stored now lies inside the keys, or inside an entry that was stored
before and outside of the keys, so none reaches over an end of them.  Keys that are empty change nothing.  Erasing is
reported exactly if a stored key overlaps the erased ones, which is exactly if the entries change. -/
theorem updates_are_framed (os : List (Operation K V)) (o : Operation K V) (keys : Interval K) :
    let m := run os
    (o.apply m).covered = o.coverage m.covered ∧
    Frame o.scope m (o.apply m) ∧
    (o.scope.isEmpty = true → o.apply m = m) ∧
    ((m.erasure? keys).isSome = true ↔ ∃ e ∈ m.toList, e.1.overlaps keys = true) ∧
    ((m.erasure? keys).isSome = true ↔ (m.erase keys).toList ≠ m.toList) := by
  intro m
  have h : Row.Ascending Prod.fst m.toList := (foldl_apply_spec os (m := empty) Row.spaced_nil).1
  exact ⟨Operation.covered_apply h o, Operation.frame_apply h o, Operation.apply_of_isEmpty,
    isSome_erasure?_iff h keys, isSome_erasure?_iff_toList_ne h keys⟩

/-- Two entries that touch, both of which are cut; and keys between equal ends, which are empty. -/
theorem updates_are_framed_touchingEntries :
    let os : List (Operation ℕ ℕ) :=
      [.insert ⟨.inclusive 0, .inclusive 5⟩ 1, .insert ⟨.exclusive 5, .unbounded⟩ 2]
    let nothing : Interval ℕ := ⟨.inclusive 3, .exclusive 3⟩
    let middle : Interval ℕ := ⟨.inclusive 3, .exclusive 7⟩
    nothing.isEmpty = true ∧ (Operation.erase nothing).apply (run os) = run os ∧
      ((run os).erasure? middle).isSome = true ∧ ((run os).erase middle).toList ≠ (run os).toList := by
  intro os nothing middle
  have hempty : nothing.isEmpty = true := by decide
  have hsome : ((run os).erasure? middle).isSome = true := by decide +kernel
  obtain ⟨-, -, hsame, -, hchanged⟩ := updates_are_framed os (.erase nothing) middle
  exact ⟨hempty, hsame hempty, hsome, hchanged.1 hsome⟩

end CodeAtlas.IntervalMap
