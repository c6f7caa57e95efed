import CodeAtlas.Proofs.Interval.Set.Canonical
import Mathlib.Data.List.Chain

/-!
# A set and its complement tile the line

The intervals of a set and those of its complement, merged in ascending order, follow one another without
room in between, from one end of the line to the other, and belong to the set and to its complement in turn.
The complement is made of the gaps of a row; here the gaps are laid out between the intervals that they lie
between (`tiles`), and merging the two rows is shown to give just this.

* `Tile`, `merged` — intervals with the side that they come from, and two sets merged in ascending order;
* `tiles`, `tiles_perm` — the intervals of a row and its gaps, in the order in which they lie on the line;
* `Tiling`, `tiling_tiles` — from a cut on up to the end of the line, without room and in turn;
* `merged_compl` — merging gives these tiles;
* `length_gaps` — how many gaps there are;
* `History.tiles_the_line` — every set and its complement tile the line.
-/

namespace CodeAtlas.IntervalSet

universe u

variable {T : Type u}

/-! ## Tiles -/

/-- A piece of the line: an interval, from inside or from outside of a set. -/
structure Tile (T : Type u) where
  inside : Bool
  interval : Interval T

/-- How many of the outer ends of a row are without a limit: of the lower end of the first interval and the upper
end of the last. -/
def openEnds (l : List (Interval T)) : Nat :=
  (l.head?.any (·.lower.isUnbounded)).toNat + (l.getLast?.any (·.upper.isUnbounded)).toNat

/-- The intervals of a row with its gaps from `lower` on, in the order in which they lie on the line. -/
def tiles (lower : Bound T) : List (Interval T) → List (Tile T)
  | [] => [⟨false, ⟨lower, .unbounded⟩⟩]
  | i :: rest =>
    (i.lower.complement?.map fun upper => Tile.mk false ⟨lower, upper⟩).toList ++
      ⟨true, i⟩ :: (i.upper.complement?.map (tiles · rest)).getD []

/-- A bound takes one place in the count, as an open end or by the gap before it. -/
theorem length_gap (lower next : Bound T) :
    (next.complement?.map (Interval.mk lower)).toList.length + next.isUnbounded.toNat = 1 := by
  cases next <;> rfl

theorem isUnbounded_of_complement? {b c : Bound T} (h : b.complement? = some c) : b.isUnbounded = false := by
  cases b with
  | unbounded => cases h
  | inclusive x => rfl
  | exclusive x => rfl

section Order

variable [Ord T]

/-- Whether a tile begins no later than another. -/
def Tile.le (a b : Tile T) : Bool :=
  (Bound.compareLower a.interval.lower b.interval.lower).isLE

/-- The intervals of two sets in ascending order of their lower bounds. -/
def merged (s t : IntervalSet T) : List (Tile T) :=
  (s.toList.map (Tile.mk true)).merge (t.toList.map (Tile.mk false)) Tile.le

end Order

variable [LinearOrder T]

/-- Non-empty tiles from the cut `start` up to the end of the line: each begins where the one before it ends,
and comes from the other side. -/
structure Tiling (start : Cut T) (ts : List (Tile T)) : Prop where
  nonempty : ∀ t ∈ ts, t.interval.lo < t.interval.up
  alternating : ts.IsChain fun a b => a.inside ≠ b.inside ∧ a.interval.up = b.interval.lo
  first : ts.head?.map (·.interval.lo) = some start
  last : ts.getLast?.map (·.interval.up) = some .top

theorem tiling_singleton {t : Tile T} (h : t.interval.lo < t.interval.up) (htop : t.interval.up = .top) :
    Tiling t.interval.lo [t] where
  nonempty := by simpa using h
  alternating := List.isChain_singleton t
  first := rfl
  last := by simp [htop]

/-- One tile more at the front, from the other side than the first. -/
theorem Tiling.cons {t : Tile T} {ts : List (Tile T)} (h : Tiling t.interval.up ts)
    (ht : t.interval.lo < t.interval.up) (hside : ∀ a ∈ ts.head?, t.inside ≠ a.inside) :
    Tiling t.interval.lo (t :: ts) where
  nonempty := List.forall_mem_cons.2 ⟨ht, h.nonempty⟩
  alternating := by
    refine List.isChain_cons.2 ⟨?_, h.alternating⟩
    intro a ha
    have hfirst := h.first
    rw [ha, Option.map_some, Option.some.injEq] at hfirst
    exact ⟨hside a ha, hfirst.symm⟩
  first := rfl
  last := by
    cases ts with
    | nil => cases h.first
    | cons a ts =>
      rw [List.getLast?_cons_cons]
      exact h.last

/-- Tiles lie in ascending order. -/
theorem Tiling.ascending {start : Cut T} {ts : List (Tile T)} (h : Tiling start ts) :
    Row.Ascending Tile.interval ts := by
  have hne := h.nonempty
  have hchain := h.alternating
  clear h
  induction ts with
  | nil => exact Row.spaced_nil
  | cons t ts ih =>
    obtain ⟨ht, hts⟩ := List.forall_mem_cons.1 hne
    obtain ⟨hnext, hchain⟩ := List.isChain_cons.1 hchain
    have hrest := ih hts hchain
    refine Row.spaced_cons.2 ⟨ht, ?_, hrest⟩
    intro b hb
    cases hhead : ts.head? with
    | none =>
      rw [List.head?_eq_none_iff.1 hhead] at hb
      cases hb
    | some a =>
      calc t.interval.up = a.interval.lo := (hnext a hhead).2
        _ ≤ b.interval.lo := hrest.head_le hhead b hb

theorem Tiling.first_lower {ts : List (Tile T)} (h : Tiling .bottom ts) :
    ts.head?.map (·.interval.lower) = some .unbounded := by
  obtain ⟨t, ht, hlo⟩ := Option.map_eq_some_iff.1 h.first
  rw [ht, Option.map_some, Option.some.injEq]
  exact Bound.lowerCut_injective hlo

theorem Tiling.last_upper {start : Cut T} {ts : List (Tile T)} (h : Tiling start ts) :
    ts.getLast?.map (·.interval.upper) = some .unbounded := by
  obtain ⟨t, ht, hup⟩ := Option.map_eq_some_iff.1 h.last
  rw [ht, Option.map_some, Option.some.injEq]
  exact Bound.upperCut_injective hup

/-! ## The tiles of a row -/

/-- After an interval without an upper limit nothing follows. -/
theorem eq_nil_of_up_eq_top {i : Interval T} {rest : List (Interval T)} (h : Separated (i :: rest))
    (hup : i.up = .top) : rest = [] := by
  obtain ⟨-, hrest, -⟩ := Row.spaced_cons.1 h
  rw [List.eq_nil_iff_forall_not_mem]
  intro b hb
  have hlate := hrest b hb
  rw [hup] at hlate
  exact Cut.not_top_lt hlate

/-- The tiles of a row are its intervals and its gaps. -/
theorem tiles_perm {lower : Bound T} {l : List (Interval T)} (h : Separated l) :
    (tiles lower l).Perm (l.map (Tile.mk true) ++ (gaps lower l).map (Tile.mk false)) := by
  induction l generalizing lower with
  | nil => exact List.Perm.refl _
  | cons i rest ih =>
    obtain ⟨-, -, hsep⟩ := Row.spaced_cons.1 h
    have htail : ((i.upper.complement?.map (tiles · rest)).getD []).Perm
        (rest.map (Tile.mk true) ++ ((i.upper.complement?.map (gaps · rest)).getD []).map (Tile.mk false)) := by
      rcases i.upper.upperCut_cases with ⟨hc, hcut⟩ | ⟨next, hc, -⟩
      · simp [hc, eq_nil_of_up_eq_top h hcut]
      · rw [hc]
        exact ih hsep
    have hgap : (i.lower.complement?.map fun upper => Tile.mk false ⟨lower, upper⟩).toList =
        (i.lower.complement?.map (Interval.mk lower)).toList.map (Tile.mk false) := by
      cases i.lower.complement? <;> rfl
    rw [tiles, gaps_cons, hgap, List.map_append, List.map_cons, List.cons_append]
    -- the interval moves to the front, and the gap before it to the other gaps
    refine List.perm_middle.trans (List.Perm.cons _ ?_)
    refine (List.Perm.append_left _ htail).trans ?_
    rw [← List.append_assoc, ← List.append_assoc]
    exact List.Perm.append_right _ List.perm_append_comm

/-- **The tiles of a row** go from `lower` to the end of the line.  Where `lower` is not the very beginning of the
line, there is room before the first interval, and the first tile is a gap. -/
theorem tiling_tiles (lower : Bound T) {l : List (Interval T)} (h : Separated l)
    (hlower : lower.lowerCut = .bottom ∨ ∀ i ∈ l, lower.lowerCut < i.lo) :
    Tiling lower.lowerCut (tiles lower l) ∧
      (lower.lowerCut ≠ .bottom → ∀ t ∈ (tiles lower l).head?, t.inside = false) := by
  induction l generalizing lower with
  | nil =>
    constructor
    · exact tiling_singleton (t := ⟨false, ⟨lower, .unbounded⟩⟩)
        (Cut.lt_top_iff.2 lower.lowerCut_ne_top) rfl
    · intro _ t ht
      cases ht
      rfl
  | cons i rest ih =>
    obtain ⟨hi, hrest, hsep⟩ := Row.spaced_cons.1 h
    -- from the interval on: after it comes a gap, as it does not end where the line begins
    have hinside : Tiling i.lo (⟨true, i⟩ :: (i.upper.complement?.map (tiles · rest)).getD []) := by
      rcases i.upper.upperCut_cases with ⟨hc, hcut⟩ | ⟨next, hc, hcut⟩
      · rw [hc]
        exact tiling_singleton (t := ⟨true, i⟩) hi hcut
      · rw [hc]
        replace hcut : next.lowerCut = i.up := hcut
        obtain ⟨htiling, hgap⟩ := ih next hsep (Or.inr (by rwa [hcut]))
        rw [hcut] at htiling hgap
        refine htiling.cons (t := ⟨true, i⟩) hi ?_
        intro a ha
        rw [hgap i.up_ne_bottom a ha]
        exact Bool.noConfusion
    rw [tiles]
    rcases i.lower.lowerCut_cases with ⟨hc, hcut⟩ | ⟨upper, hc, hcut⟩
    · replace hcut : i.lo = .bottom := hcut
      have hbottom : lower.lowerCut = .bottom :=
        hlower.resolve_right fun hlt => Cut.not_lt_bottom (hcut ▸ hlt i List.mem_cons_self)
      rw [hcut] at hinside
      rw [hc, hbottom]
      exact ⟨hinside, fun hne => absurd rfl hne⟩
    · replace hcut : upper.upperCut = i.lo := hcut
      have hroom : lower.lowerCut < upper.upperCut := by
        rcases hlower with hbottom | hlt
        · rw [hbottom, Cut.bottom_lt_iff]
          exact upper.upperCut_ne_bottom
        · rw [hcut]
          exact hlt i List.mem_cons_self
      rw [← hcut] at hinside
      rw [hc]
      constructor
      · refine hinside.cons (t := ⟨false, ⟨lower, upper⟩⟩) hroom ?_
        intro a ha
        cases ha
        exact Bool.noConfusion
      · intro _ t ht
        cases ht
        rfl

/-! ## Merging -/

theorem Tile.le_iff {a b : Tile T} : a.le b = true ↔ a.interval.lo ≤ b.interval.lo := by
  rw [Tile.le, Bound.compareLower_eq, Ordering.isLE_iff_ne_gt]
  exact compare_le_iff_le

/-- **Merging a set with its complement** gives the tiles of its row: both are the same intervals, and both
ascend. -/
theorem merged_compl {s : IntervalSet T} (h : Separated s.toList) :
    s.merged s.compl = tiles .unbounded s.toList := by
  have hperm : (s.merged s.compl).Perm (tiles .unbounded s.toList) := by
    rw [merged, toList_compl h]
    exact (List.merge_perm_append _).trans (tiles_perm h).symm
  have hasc := (tiling_tiles .unbounded h (Or.inl rfl)).1.ascending
  have hrow : ∀ {l : List (Interval T)} (b : Bool), Separated l →
      (l.map (Tile.mk b)).Pairwise fun a b => a.le b = true := by
    intro l b hl
    rw [List.pairwise_map]
    exact hl.ascending.ends_lt.imp fun hab => Tile.le_iff.2 hab.2.le
  have hmerged : (s.merged s.compl).Pairwise fun a b => a.le b = true := by
    refine List.pairwise_merge ?_ ?_ _ _ (hrow true h) (hrow false (separated_compl h))
    · intro a b c hab hbc
      exact Tile.le_iff.2 (le_trans (Tile.le_iff.1 hab) (Tile.le_iff.1 hbc))
    · intro a b
      rw [Bool.or_eq_true, Tile.le_iff, Tile.le_iff]
      exact le_total _ _
  have htiles : (tiles .unbounded s.toList).Pairwise fun a b => a.le b = true :=
    hasc.ends_lt.imp fun hab => Tile.le_iff.2 hab.2.le
  refine hperm.eq_of_pairwise ?_ hmerged htiles
  -- two tiles that begin at the same cut are one
  intro a b ha hb hab hba
  have hlo : a.interval.lo = b.interval.lo := le_antisymm (Tile.le_iff.1 hab) (Tile.le_iff.1 hba)
  have hmem := hperm.subset ha
  exact hasc.eq_of_holds hmem hb ⟨le_refl _, hasc.nonempty a hmem⟩ ⟨hlo.ge, hlo ▸ hasc.nonempty b hb⟩

/-! ## Counting -/

/-- An interval with an upper limit adds its lower end to the count, if what follows it does not begin with the
line. -/
theorem openEnds_cons {i : Interval T} {rest : List (Interval T)} (hi : i.upper.isUnbounded = false)
    (hrest : ∀ b ∈ rest, Cut.bottom < b.lo) : openEnds (i :: rest) = i.lower.isUnbounded.toNat + openEnds rest := by
  cases rest with
  | nil => simp [openEnds, hi]
  | cons b rest =>
    have hb : b.lower.isUnbounded = false := by
      rw [← Bool.not_eq_true, Bound.isUnbounded_iff_lowerCut]
      exact (hrest b List.mem_cons_self).ne'
    simp [openEnds, hb]

/-- **The gaps of a row** are one more than its intervals, less one for each outer end without a limit. -/
theorem length_gaps (lower : Bound T) {l : List (Interval T)} (h : Separated l) :
    (gaps lower l).length + openEnds l = l.length + 1 := by
  induction l generalizing lower with
  | nil => rfl
  | cons i rest ih =>
    obtain ⟨hi, hrest, hsep⟩ := Row.spaced_cons.1 h
    have hgap := length_gap lower i.lower
    rw [gaps_cons, List.length_append, List.length_cons]
    rcases i.upper.upperCut_cases with ⟨hc, hcut⟩ | ⟨next, hc, -⟩
    · obtain rfl := eq_nil_of_up_eq_top h hcut
      have hends : openEnds [i] = i.lower.isUnbounded.toNat + 1 := by
        have hupper : i.upper = .unbounded := Bound.upperCut_injective hcut
        simp [openEnds, hupper, Bound.isUnbounded]
      simp only [hc, hends, Option.map_none, Option.getD_none, List.length_nil]
      omega
    · have hends := openEnds_cons (isUnbounded_of_complement? hc)
        fun b hb => lt_of_le_of_lt (Cut.bottom_le _) (hrest b hb)
      have hcount := ih next hsep
      simp only [hc, hends, Option.map_some, Option.getD_some]
      omega

/-! ## Sets however they came about -/

/-- Only the empty set has everything as its complement. -/
theorem isEmpty_iff_compl_eq {s : IntervalSet T} (h : Separated s.toList) :
    s.isEmpty = true ↔ s.compl.toList = [.full] := by
  rw [isEmpty_iff_toList_eq_nil]
  constructor
  · intro hnil
    rw [toList_compl h, hnil]
    rfl
  · intro hfull
    rw [List.eq_nil_iff_forall_not_mem]
    intro i hi
    have hcovered : Covered s.toList i.lo := ⟨i, hi, le_refl _, h.nonempty i hi⟩
    have hcompl : Covered s.compl.toList i.lo := by
      rw [hfull]
      exact covered_full.2 i.lo_ne_top
    exact ((covered_compl h _).1 hcompl).2 hcovered

/-- **A set and its complement tile the line.**  Take a set however it came about, and merge its intervals with
those of its complement in ascending order.  None of them is empty, and each lies before all that follow, touches
the next and is from the other side; the first has no lower limit and the last no upper one.  The complement of the
empty set, and of no other, is everything as one interval.  The complement stores one interval more than the set,
less one for each outer end of the set that has no limit. -/
theorem History.tiles_the_line (e : History T) :
    let s := e.result
    let ts := s.merged s.compl
    (∀ t ∈ ts, t.interval.isEmpty = false) ∧
    (ts.Pairwise fun a b => a.interval.isBefore b.interval = true) ∧
    (ts.IsChain fun a b => a.inside ≠ b.inside ∧ a.interval.isTouching b.interval = true) ∧
    ts.head?.map (·.interval.lower) = some .unbounded ∧
    ts.getLast?.map (·.interval.upper) = some .unbounded ∧
    (s.isEmpty = true ↔ s.compl.toList = [.full]) ∧
    s.compl.size + openEnds s.toList = s.size + 1 := by
  intro s ts
  have h : Separated s.toList := e.separated_result
  have htiling : Tiling .bottom ts := by
    have htiles := (tiling_tiles .unbounded h (Or.inl rfl)).1
    rwa [← merged_compl h] at htiles
  have hne := htiling.nonempty
  refine ⟨?_, ?_, ?_, htiling.first_lower, htiling.last_upper, isEmpty_iff_compl_eq h, ?_⟩
  · exact fun t ht => Interval.isEmpty_eq_false_iff.2 (hne t ht)
  · refine htiling.ascending.sorted.imp_of_mem fun ha hb hab => ?_
    exact Interval.isBefore_iff.2 ⟨hne _ ha, hne _ hb, hab⟩
  · refine htiling.alternating.imp_of_mem_imp fun a b ha hb hab => ⟨hab.1, ?_⟩
    exact Interval.isTouching_iff.2 ⟨hne a ha, hne b hb, Or.inl hab.2⟩
  · have hsize : s.size = s.toList.length := Array.length_toList.symm
    have hcompl : s.compl.size = s.compl.toList.length := Array.length_toList.symm
    rw [hsize, hcompl, toList_compl h]
    exact length_gaps _ h

end CodeAtlas.IntervalSet
