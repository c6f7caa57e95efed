import CodeAtlas.Interval.Map
import CodeAtlas.Proofs.Interval.Row

/-!
# Laying an interval over entries

Adding to a map takes the entries that the new keys overlap apart and puts them together again: what lies
before the keys and after them keeps its value, what lies inside has the values combined, and the stretches
between the entries take the new value.  The loop carries along where the part of the keys begins that no
entry has met yet.

* `Maps` — the cut has the value in a row of entries;
* `pieces` — what one entry contributes, with `maps_pieces` and `ascending_pieces`;
* `maps_overlay`, `ascending_overlay` — the whole row;
* `maps_remnants`, `ascending_remnants` — the same for erasing, where only the outer parts are kept.
-/

namespace CodeAtlas

universe u v

variable {K : Type u} {V : Type v}

/-! ## Rows of entries -/

theorem fst_mem_of_mem_piece {o : Option (Interval K)} {x : V} {n : Interval K × V}
    (hn : n ∈ o.toList.map fun i => (i, x)) : n.1 ∈ o := by
  cases o with
  | none => simp at hn
  | some k => simp_all

/-- Where the part of the keys begins that no entry has met. -/
def IntervalMap.uncoveredCut : Option (Bound K) → Cut K
  | none => .top
  | some lower => lower.lowerCut

theorem IntervalMap.uncoveredCut_complement? (upper : Bound K) :
    uncoveredCut upper.complement? = upper.upperCut := by
  cases upper <;> rfl

variable [LinearOrder K]

/-- Some entry holds the cut and has the value. -/
def Maps (l : List (Interval K × V)) (c : Cut K) (y : V) : Prop :=
  ∃ e ∈ l, e.1.Holds c ∧ y = e.2

@[simp] theorem maps_nil (c : Cut K) (y : V) : ¬Maps [] c y := by
  simp [Maps]

@[simp] theorem maps_cons {e : Interval K × V} {l : List (Interval K × V)} {c : Cut K} {y : V} :
    Maps (e :: l) c y ↔ e.1.Holds c ∧ y = e.2 ∨ Maps l c y := by
  simp [Maps]

@[simp] theorem maps_append {l m : List (Interval K × V)} {c : Cut K} {y : V} :
    Maps (l ++ m) c y ↔ Maps l c y ∨ Maps m c y := by
  simp [Maps, or_and_right, exists_or]

theorem exists_maps {l : List (Interval K × V)} {c : Cut K} {P : V → Prop} :
    (∃ x, Maps l c x ∧ P x) ↔ ∃ e ∈ l, e.1.Holds c ∧ P e.2 := by
  constructor
  · rintro ⟨x, ⟨e, he, hold, rfl⟩, hx⟩
    exact ⟨e, he, hold, hx⟩
  · rintro ⟨e, he, hold, hx⟩
    exact ⟨e.2, ⟨e, he, hold, rfl⟩, hx⟩

/-- One piece, if there is one. -/
@[simp] theorem maps_piece {o : Option (Interval K)} {x y : V} {c : Cut K} :
    Maps (o.toList.map fun i => (i, x)) c y ↔ (∃ k ∈ o, k.Holds c) ∧ y = x := by
  cases o <;> simp [Maps]

theorem ascending_piece {o : Option (Interval K)} {x : V} (h : ∀ k ∈ o, k.lo < k.up) :
    Row.Ascending Prod.fst (o.toList.map fun i => (i, x)) := by
  cases o with
  | none => exact Row.spaced_nil
  | some k => exact Row.spaced_singleton (h k rfl)

namespace IntervalMap

/-! ## The outer parts of an entry -/

section Outer

variable {keys : Interval K} {e n : Interval K × V}

theorem mem_leftPart (hn : n ∈ leftPart keys e) : n.1.lo = e.1.lo ∧ n.1.up = keys.lo ∧ n.1.lo < n.1.up :=
  Interval.until?_eq_some (fst_mem_of_mem_piece hn)

theorem mem_rightPart (hn : n ∈ rightPart keys e) : n.1.lo = keys.up ∧ n.1.up = e.1.up ∧ n.1.lo < n.1.up :=
  Interval.after?_eq_some (fst_mem_of_mem_piece hn)

theorem maps_leftPart {c : Cut K} {y : V} :
    Maps (leftPart keys e) c y ↔ (e.1.lo ≤ c ∧ c < keys.lo) ∧ y = e.2 := by
  rw [leftPart, maps_piece, Interval.holds_until?]
  exact Iff.rfl

theorem maps_rightPart {c : Cut K} {y : V} :
    Maps (rightPart keys e) c y ↔ (keys.up ≤ c ∧ c < e.1.up) ∧ y = e.2 := by
  rw [rightPart, maps_piece, Interval.holds_after?]
  exact Iff.rfl

theorem ascending_leftPart : Row.Ascending Prod.fst (leftPart keys e) :=
  ascending_piece fun _ hk => (Interval.until?_eq_some hk).2.2

theorem ascending_rightPart : Row.Ascending Prod.fst (rightPart keys e) :=
  ascending_piece fun _ hk => (Interval.after?_eq_some hk).2.2

/-- Outside of the keys an overlapped entry holds what lies before them and what lies after them. -/
theorem holds_outside (hover : keys.lo < e.1.up ∧ e.1.lo < keys.up) {c : Cut K} :
    e.1.Holds c ∧ ¬keys.Holds c ↔ e.1.lo ≤ c ∧ c < keys.lo ∨ keys.up ≤ c ∧ c < e.1.up := by
  constructor
  · rintro ⟨⟨hge, hlt⟩, hnot⟩
    by_cases hstart : c < keys.lo
    · exact Or.inl ⟨hge, hstart⟩
    · exact Or.inr ⟨not_lt.1 fun hend => hnot ⟨not_lt.1 hstart, hend⟩, hlt⟩
  · rintro (⟨hge, hlt⟩ | ⟨hge, hlt⟩)
    · exact ⟨⟨hge, lt_trans hlt hover.1⟩, fun hold => absurd hold.1 (not_le.2 hlt)⟩
    · exact ⟨⟨le_trans hover.2.le hge, hlt⟩, fun hold => absurd hold.2 (not_lt.2 hge)⟩

end Outer

/-! ## Adding -/

section Adding

variable {combine : V → V → V} {keys : Interval K} {value : V} {uncovered : Option (Bound K)}

/-- What one entry contributes. -/
def pieces (combine : V → V → V) (keys : Interval K) (value : V) (uncovered : Option (Bound K))
    (e : Interval K × V) : List (Interval K × V) :=
  leftPart keys e ++ ((uncovered.bind fun lower => Interval.until? lower e.1.lower).toList.map
    fun i => (i, value)) ++ corePart combine keys value e ++ rightPart keys e

theorem overlay_cons (e : Interval K × V) (rest : List (Interval K × V)) :
    overlay combine keys value uncovered (e :: rest) = pieces combine keys value uncovered e ++
      overlay combine keys value e.1.upper.complement? rest := by
  cases uncovered <;> rfl

theorem holds_gap {next : Bound K} {c : Cut K} :
    (∃ k ∈ uncovered.bind fun lower => Interval.until? lower next, k.Holds c) ↔
      uncoveredCut uncovered ≤ c ∧ c < next.lowerCut := by
  cases uncovered with
  | none =>
    simp only [Option.bind_none, Option.mem_def, reduceCtorEq, false_and, exists_false, false_iff, not_and]
    intro htop
    exact not_lt.2 (le_trans (Cut.le_top _) htop)
  | some lower => exact Interval.holds_until?

theorem mem_gap {next : Bound K} {k : Interval K}
    (hk : k ∈ uncovered.bind fun lower => Interval.until? lower next) :
    k.lo = uncoveredCut uncovered ∧ k.up = next.lowerCut ∧ k.lo < k.up := by
  cases uncovered with
  | none => cases hk
  | some lower => exact Interval.until?_eq_some hk

/-- An entry that the keys overlap keeps what lies outside of them, has its value combined inside, and the
stretch before it takes the new value. -/
theorem maps_pieces {e : Interval K × V} (hover : keys.lo < e.1.up ∧ e.1.lo < keys.up) {c : Cut K} {y : V} :
    Maps (pieces combine keys value uncovered e) c y ↔
      e.1.Holds c ∧ y = (if keys.Holds c then combine e.2 value else e.2) ∨
        (uncoveredCut uncovered ≤ c ∧ c < e.1.lo) ∧ y = value := by
  have hgap : (∃ k ∈ uncovered.bind fun lower => Interval.until? lower e.1.lower, k.Holds c) ↔
      uncoveredCut uncovered ≤ c ∧ c < e.1.lo := holds_gap
  simp only [pieces, corePart, maps_append, maps_leftPart, maps_rightPart, maps_piece, hgap,
    Interval.holds_intersection?]
  by_cases hkeys : keys.Holds c
  · have hout : ¬(e.1.lo ≤ c ∧ c < keys.lo ∨ keys.up ≤ c ∧ c < e.1.up) := fun h => ((holds_outside hover).2 h).2 hkeys
    rw [not_or] at hout
    simp only [hkeys, hout, and_true, if_true, false_and, or_false, false_or]
    exact or_comm
  · have hout : e.1.Holds c ↔ e.1.lo ≤ c ∧ c < keys.lo ∨ keys.up ≤ c ∧ c < e.1.up := by
      rw [← holds_outside hover]
      exact ⟨fun h => ⟨h, hkeys⟩, fun h => h.1⟩
    simp only [hkeys, hout, and_false, if_false, false_and, or_false, or_and_right]
    exact or_right_comm

/-- The pieces of an entry come in ascending order, since the uncovered part begins inside the keys. -/
theorem ascending_pieces {e : Interval K × V} (hkeys : keys.lo < keys.up)
    (hover : keys.lo < e.1.up ∧ e.1.lo < keys.up) (hcut : keys.lo ≤ uncoveredCut uncovered) :
    Row.Ascending Prod.fst (pieces combine keys value uncovered e) := by
  have hgap : ∀ n ∈ (uncovered.bind fun lower => Interval.until? lower e.1.lower).toList.map
      (fun i => (i, value)), n.1.lo = uncoveredCut uncovered ∧ n.1.up = e.1.lo ∧ n.1.lo < n.1.up :=
    fun n hn => mem_gap (fst_mem_of_mem_piece hn)
  have hcore : ∀ n ∈ corePart combine keys value e,
      n.1.lo = max e.1.lo keys.lo ∧ n.1.up = min e.1.up keys.up ∧ n.1.lo < n.1.up :=
    fun n hn => Interval.intersection?_eq_some (fst_mem_of_mem_piece hn)
  refine Row.spaced_append.2 ⟨Row.spaced_append.2 ⟨Row.spaced_append.2 ⟨ascending_leftPart, ?_, ?_⟩,
    ?_, ?_⟩, ascending_rightPart, ?_⟩
  · exact ascending_piece fun k hk => (mem_gap hk).2.2
  · intro a ha b hb
    rw [(mem_leftPart ha).2.1, (hgap b hb).1]
    exact hcut
  · exact ascending_piece fun k hk => (Interval.intersection?_eq_some hk).2.2
  · intro a ha b hb
    rw [(hcore b hb).1]
    rcases List.mem_append.1 ha with ha | ha
    · rw [(mem_leftPart ha).2.1]
      exact le_max_right _ _
    · rw [(hgap a ha).2.1]
      exact le_max_left _ _
  · intro a ha b hb
    rw [(mem_rightPart hb).1]
    rcases List.mem_append.1 ha with ha | ha
    · rcases List.mem_append.1 ha with ha | ha
      · rw [(mem_leftPart ha).2.1]
        exact hkeys.le
      · rw [(hgap a ha).2.1]
        exact hover.2.le
    · rw [(hcore a ha).2.1]
      exact min_le_right _ _

/-- Where an entry is met the values are combined, and on the rest of what is not covered yet the new value is
taken. -/
theorem maps_overlay {M : List (Interval K × V)} (hM : Row.Ascending Prod.fst M)
    (hover : ∀ e ∈ M, keys.lo < e.1.up ∧ e.1.lo < keys.up) (hcut : keys.lo ≤ uncoveredCut uncovered)
    (hends : ∀ e ∈ M, uncoveredCut uncovered ≤ e.1.up) (c : Cut K) (y : V) :
    Maps (overlay combine keys value uncovered M) c y ↔
      (∃ e ∈ M, e.1.Holds c ∧ y = if keys.Holds c then combine e.2 value else e.2) ∨
        (uncoveredCut uncovered ≤ c ∧ c < keys.up) ∧ (∀ e ∈ M, ¬e.1.Holds c) ∧ y = value := by
  induction M generalizing uncovered with
  | nil =>
    cases uncovered with
    | none =>
      have htop : ¬(Cut.top ≤ c ∧ c < keys.up) := by
        rintro ⟨hge, hlt⟩
        exact absurd (le_trans (Cut.le_top _) hge) (not_le.2 hlt)
      simpa [overlay, uncoveredCut] using fun hge hlt => absurd ⟨hge, hlt⟩ htop
    | some lower =>
      have htail : (⟨lower, keys.upper⟩ : Interval K).Holds c ↔ lower.lowerCut ≤ c ∧ c < keys.up := Iff.rfl
      cases hempty : (⟨lower, keys.upper⟩ : Interval K).isEmpty with
      | true =>
        have hnot := Interval.not_holds_of_isEmpty hempty c
        rw [htail] at hnot
        simp [overlay, hempty, uncoveredCut, hnot]
      | false => simp [overlay, hempty, uncoveredCut, htail]
  | cons e rest ih =>
    obtain ⟨he, hrest, hasc⟩ := Row.spaced_cons.1 hM
    have hnext : uncoveredCut e.1.upper.complement? = e.1.up := uncoveredCut_complement? _
    obtain ⟨hovere, hoverRest⟩ := List.forall_mem_cons.1 hover
    have hcutNext : keys.lo ≤ uncoveredCut e.1.upper.complement? := by
      rw [hnext]
      exact hovere.1.le
    have hendsNext : ∀ b ∈ rest, uncoveredCut e.1.upper.complement? ≤ b.1.up := by
      intro b hb
      rw [hnext]
      exact le_trans (hrest b hb) (hasc.nonempty b hb).le
    rw [overlay_cons, maps_append, maps_pieces hovere, ih hasc hoverRest hcutNext hendsNext, hnext]
    constructor
    · rintro ((⟨hold, hy⟩ | ⟨⟨hge, hlt⟩, hy⟩) | ⟨b, hb, hold, hy⟩ | ⟨⟨hge, hlt⟩, hnone, hy⟩)
      · exact Or.inl ⟨e, List.mem_cons_self, hold, hy⟩
      · refine Or.inr ⟨⟨hge, lt_trans hlt hovere.2⟩, ?_, hy⟩
        intro b hb hold
        exact absurd (le_trans (hM.head_le rfl b hb) hold.1) (not_le.2 hlt)
      · exact Or.inl ⟨b, List.mem_cons_of_mem _ hb, hold, hy⟩
      · refine Or.inr ⟨⟨le_trans (hends e List.mem_cons_self) hge, hlt⟩, ?_, hy⟩
        exact List.forall_mem_cons.2 ⟨fun hold => absurd hold.2 (not_lt.2 hge), hnone⟩
    · rintro (⟨b, hb, hold, hy⟩ | ⟨⟨hge, hlt⟩, hnone, hy⟩)
      · rcases List.mem_cons.1 hb with rfl | hb
        · exact Or.inl (Or.inl ⟨hold, hy⟩)
        · exact Or.inr (Or.inl ⟨b, hb, hold, hy⟩)
      · obtain ⟨hnot, hnone⟩ := List.forall_mem_cons.1 hnone
        by_cases hstart : c < e.1.lo
        · exact Or.inl (Or.inr ⟨⟨hge, hstart⟩, hy⟩)
        · have hend : e.1.up ≤ c := not_lt.1 fun hend => hnot ⟨not_lt.1 hstart, hend⟩
          exact Or.inr (Or.inr ⟨⟨hend, hlt⟩, hnone, hy⟩)

theorem ascending_overlay {M : List (Interval K × V)} (hkeys : keys.lo < keys.up)
    (hM : Row.Ascending Prod.fst M) (hover : ∀ e ∈ M, keys.lo < e.1.up ∧ e.1.lo < keys.up)
    (hcut : keys.lo ≤ uncoveredCut uncovered) :
    Row.Ascending Prod.fst (overlay combine keys value uncovered M) := by
  induction M generalizing uncovered with
  | nil =>
    cases uncovered with
    | none => exact Row.spaced_nil
    | some lower =>
      cases hempty : (⟨lower, keys.upper⟩ : Interval K).isEmpty with
      | true => simpa [overlay, hempty] using Row.spaced_nil
      | false =>
        simp only [overlay, hempty, Bool.false_eq_true, if_false]
        exact Row.spaced_singleton (Interval.isEmpty_eq_false_iff.1 hempty)
  | cons e rest ih =>
    obtain ⟨he, hrest, hasc⟩ := Row.spaced_cons.1 hM
    obtain ⟨hovere, hoverRest⟩ := List.forall_mem_cons.1 hover
    have hnext : uncoveredCut e.1.upper.complement? = e.1.up := uncoveredCut_complement? _
    have hcutNext : keys.lo ≤ uncoveredCut e.1.upper.complement? := by
      rw [hnext]
      exact hovere.1.le
    have htail := ih hasc hoverRest hcutNext
    rw [overlay_cons]
    refine Row.spaced_append.2 ⟨ascending_pieces hkeys hovere hcut, htail, ?_⟩
    intro a ha b hb
    -- the pieces of an entry end with it, and nothing that follows begins before its end
    have hends : a.1.up ≤ e.1.up := by
      refine Interval.up_le_of_holds ((ascending_pieces hkeys hovere hcut).nonempty a ha) ?_
      intro c hc
      rcases (maps_pieces hovere).1 ⟨a, ha, hc, rfl⟩ with ⟨hold, -⟩ | ⟨⟨-, hlt⟩, -⟩
      · exact hold.2
      · exact lt_trans hlt he
    have hbegins : e.1.up ≤ b.1.lo := by
      have hmaps : Maps (overlay combine keys value e.1.upper.complement? rest) b.1.lo b.2 :=
        ⟨b, hb, ⟨le_refl _, htail.nonempty b hb⟩, rfl⟩
      rw [maps_overlay hasc hoverRest hcutNext, hnext] at hmaps
      · rcases hmaps with ⟨d, hd, hold, -⟩ | ⟨⟨hge, -⟩, -⟩
        · exact le_trans (hrest d hd) hold.1
        · exact hge
      · intro d hd
        rw [hnext]
        exact le_trans (hrest d hd) (hasc.nonempty d hd).le
    exact le_trans hends hbegins

/-- **Laying an interval over the entries that it overlaps**, of which at first nothing is covered: stored values
are combined inside and kept outside, and what has no value yet takes the new one. -/
theorem maps_overlay_keys {M : List (Interval K × V)} (hM : Row.Ascending Prod.fst M)
    (hover : ∀ e ∈ M, keys.lo < e.1.up ∧ e.1.lo < keys.up) (c : Cut K) (y : V) :
    Maps (overlay combine keys value (some keys.lower) M) c y ↔
      (∃ x, Maps M c x ∧ y = if keys.Holds c then combine x value else x) ∨
        keys.Holds c ∧ (∀ x, ¬Maps M c x) ∧ y = value := by
  have hcut : keys.lo ≤ uncoveredCut (some keys.lower) := le_refl _
  have hends : ∀ e ∈ M, uncoveredCut (some keys.lower) ≤ e.1.up := fun e he => (hover e he).1.le
  have hfree : (∀ x, ¬Maps M c x) ↔ ∀ e ∈ M, ¬e.1.Holds c :=
    ⟨fun h e he hold => h e.2 ⟨e, he, hold, rfl⟩, fun h _ ⟨e, he, hold, _⟩ => h e he hold⟩
  rw [maps_overlay hM hover hcut hends, exists_maps, hfree]
  exact Iff.rfl

end Adding

/-! ## Erasing -/

section Erasing

variable {keys : Interval K} {M : List (Interval K × V)}

theorem maps_remnants (hover : ∀ e ∈ M, keys.lo < e.1.up ∧ e.1.lo < keys.up) (c : Cut K) (y : V) :
    Maps (M.flatMap fun e => leftPart keys e ++ rightPart keys e) c y ↔ Maps M c y ∧ ¬keys.Holds c := by
  induction M with
  | nil => simp
  | cons e rest ih =>
    obtain ⟨hovere, hoverRest⟩ := List.forall_mem_cons.1 hover
    rw [List.flatMap_cons, maps_append, ih hoverRest, maps_append, maps_leftPart, maps_rightPart,
      ← or_and_right, ← holds_outside hovere, maps_cons]
    tauto

theorem ascending_remnants (hkeys : keys.lo < keys.up) (hM : Row.Ascending Prod.fst M)
    (hover : ∀ e ∈ M, keys.lo < e.1.up ∧ e.1.lo < keys.up) :
    Row.Ascending Prod.fst (M.flatMap fun e => leftPart keys e ++ rightPart keys e) := by
  induction M with
  | nil => exact Row.spaced_nil
  | cons e rest ih =>
    obtain ⟨he, hrest, hasc⟩ := Row.spaced_cons.1 hM
    obtain ⟨hovere, hoverRest⟩ := List.forall_mem_cons.1 hover
    rw [List.flatMap_cons]
    refine Row.spaced_append.2 ⟨Row.spaced_append.2 ⟨ascending_leftPart, ascending_rightPart, ?_⟩,
      ih hasc hoverRest, ?_⟩
    · intro a ha b hb
      rw [(mem_leftPart ha).2.1, (mem_rightPart hb).1]
      exact hkeys.le
    · intro a ha b hb
      have hends : a.1.up ≤ e.1.up := by
        rcases List.mem_append.1 ha with ha | ha
        · rw [(mem_leftPart ha).2.1]
          exact hovere.1.le
        · rw [(mem_rightPart ha).2.1]
      have hmaps := (maps_remnants hoverRest b.1.lo b.2).1
        ⟨b, hb, ⟨le_refl _, (ih hasc hoverRest).nonempty b hb⟩, rfl⟩
      obtain ⟨⟨d, hd, hold, -⟩, -⟩ := hmaps
      exact le_trans hends (le_trans (hrest d hd) hold.1)

end Erasing

end IntervalMap

end CodeAtlas
