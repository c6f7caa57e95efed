import CodeAtlas.Proofs.Interval.Set.Change

/-!
# The algebra of interval sets

Operations on whole sets, and what holds of every set however it came about.  Union and difference make one
change after the other.  The complement is made by walking along a row, the intersection by walking along two rows
side by side; both have an invariant of their own.  The walk along one row leaves in each place the gap before the
interval that was there, and what it makes of a separated row are just its gaps, which are easier to reason about.

* `separated_applyAll`, `covered_insertAll`, `covered_eraseAll` — several changes;
* `gaps`, `covered_gaps`, `separated_gaps` — the gaps of a row;
* `foldl_gapStep`, `toList_compl` — the complement is made of them;
* `separated_compl`, `covered_compl` — the complement;
* `covered_shared` — the common pieces of two rows;
* `History` — how a set came about, with the values that the operations denote;
* `History.separated_and_denotes` — every set is separated and contains what its history denotes.
-/

namespace CodeAtlas.IntervalSet

universe u

variable {T : Type u}

/-- The gaps between `lower` and the end of the line that a list of intervals leaves. -/
def gaps (lower : Bound T) : List (Interval T) → List (Interval T)
  | [] => [⟨lower, .unbounded⟩]
  | i :: rest =>
    (match i.lower.complement? with
      | some upper => [⟨lower, upper⟩]
      | none => []) ++
    (match i.upper.complement? with
      | some next => gaps next rest
      | none => [])

theorem gaps_cons (lower : Bound T) (i : Interval T) (rest : List (Interval T)) :
    gaps lower (i :: rest) = (i.lower.complement?.map (Interval.mk lower)).toList ++
      (i.upper.complement?.map (gaps · rest)).getD [] := by
  rw [gaps]
  cases i.lower.complement? <;> cases i.upper.complement? <;> rfl

variable [LinearOrder T]

/-! ## Several changes -/

theorem separated_apply {s : IntervalSet T} (h : Separated s.toList) (c : Change T) :
    Separated (s.apply c).toList := by
  cases c with
  | insert j => exact separated_insert h j
  | erase j => exact separated_erase h j

theorem separated_applyAll {s : IntervalSet T} (h : Separated s.toList) (cs : List (Change T)) :
    Separated (s.applyAll cs).toList := by
  induction cs generalizing s with
  | nil => exact h
  | cons c cs ih => exact ih (separated_apply h c)

theorem covered_insertAll {s : IntervalSet T} (h : Separated s.toList) (is : List (Interval T))
    (c : Cut T) : Covered (s.insertAll is).toList c ↔ Covered s.toList c ∨ Covered is c := by
  induction is generalizing s with
  | nil => simp [insertAll, applyAll]
  | cons i is ih =>
    have hstep : s.insertAll (i :: is) = (s.insert i).insertAll is := rfl
    rw [hstep, ih (separated_insert h i), covered_insert h, covered_cons, or_assoc]

theorem covered_eraseAll {s : IntervalSet T} (h : Separated s.toList) (is : List (Interval T))
    (c : Cut T) :
    Covered (s.applyAll (is.map .erase)).toList c ↔ Covered s.toList c ∧ ¬Covered is c := by
  induction is generalizing s with
  | nil => simp [applyAll]
  | cons i is ih =>
    have hstep : s.applyAll ((i :: is).map .erase) = (s.erase i).applyAll (is.map .erase) := rfl
    rw [hstep, ih (separated_erase h i), covered_erase h, covered_cons, not_or, and_assoc]

theorem separated_empty : Separated (empty : IntervalSet T).toList :=
  Row.spaced_nil

theorem covered_ofList (is : List (Interval T)) (c : Cut T) :
    Covered (ofList is).toList c ↔ Covered is c := by
  have hempty : ¬Covered (empty : IntervalSet T).toList c := covered_nil c
  rw [ofList, covered_insertAll separated_empty, or_iff_right hempty]

theorem separated_full : Separated (full : IntervalSet T).toList := by
  apply Row.spaced_singleton
  show (Cut.bottom : Cut T) < .top
  simp

theorem covered_full {c : Cut T} : Covered (full : IntervalSet T).toList c ↔ c ≠ .top := by
  have hholds : (Interval.full : Interval T).Holds c ↔ Cut.bottom ≤ c ∧ c < .top := Iff.rfl
  rw [show (full : IntervalSet T).toList = [.full] from rfl, covered_cons, hholds]
  simp

/-! ## The complement -/

/-- What lies between a bound and the beginning of an interval. -/
theorem covered_gap {lower next : Bound T} {c : Cut T} :
    Covered (next.complement?.map (Interval.mk lower)).toList c ↔
      lower.lowerCut ≤ c ∧ c < next.lowerCut := by
  rcases next.lowerCut_cases with ⟨hc, hcut⟩ | ⟨upper, hc, hcut⟩
  · simp [hc, hcut]
  · simp [Interval.Holds, Interval.lo, Interval.up, hc, hcut]

/-- The gaps of a row from `lower` on.  The row is reached from that bound, so the bound either lies strictly
before all of it or is the very beginning of the line. -/
theorem covered_gaps {lower : Bound T} {l : List (Interval T)} (h : Separated l)
    (hlower : lower.lowerCut = .bottom ∨ ∀ i ∈ l, lower.lowerCut < i.lo) (c : Cut T) :
    Covered (gaps lower l) c ↔ lower.lowerCut ≤ c ∧ c ≠ .top ∧ ¬Covered l c := by
  induction l generalizing lower with
  | nil => simp [gaps, Interval.Holds, Interval.lo, Interval.up, Bound.upperCut]
  | cons i rest ih =>
    obtain ⟨hi, hrest, hsep⟩ := Row.spaced_cons.1 h
    have hle : lower.lowerCut ≤ i.lo := by
      rcases hlower with hbottom | hlt
      · rw [hbottom]
        exact Cut.bottom_le _
      · exact (hlt i List.mem_cons_self).le
    have htail : Covered ((i.upper.complement?.map (gaps · rest)).getD []) c ↔
        i.up ≤ c ∧ c ≠ .top ∧ ¬Covered rest c := by
      rw [Interval.up]
      rcases i.upper.upperCut_cases with ⟨hc, hcut⟩ | ⟨next, hc, hcut⟩
      · have htop : Cut.top ≤ c → c = .top := le_antisymm (Cut.le_top c)
        simp only [hc, Option.map_none, Option.getD_none, covered_nil, false_iff, hcut]
        tauto
      · simp only [hc, Option.map_some, Option.getD_some]
        rw [ih hsep (Or.inr (by rwa [hcut])), hcut]
    rw [gaps_cons, covered_append, covered_gap, htail, covered_cons, not_or]
    change lower.lowerCut ≤ c ∧ c < i.lo ∨ _ ↔ _
    constructor
    · rintro (⟨hge, hlt⟩ | ⟨hge, htop, hnot⟩)
      · refine ⟨hge, ?_, fun hold => absurd hold.1 (not_le.2 hlt), ?_⟩
        · exact Cut.lt_top_iff.1 (lt_of_lt_of_le hlt (Cut.le_top _))
        · rintro ⟨b, hb, hold, -⟩
          have hcross : i.lo < b.lo := lt_trans hi (hrest b hb)
          exact absurd (lt_of_lt_of_le hcross hold) (not_lt.2 hlt.le)
      · exact ⟨le_trans hle (le_trans hi.le hge), htop, fun hold => absurd hold.2 (not_lt.2 hge), hnot⟩
    · rintro ⟨hge, htop, hnot, hnotRest⟩
      by_cases hstart : c < i.lo
      · exact Or.inl ⟨hge, hstart⟩
      · exact Or.inr ⟨not_lt.1 fun hend => hnot ⟨not_lt.1 hstart, hend⟩, htop, hnotRest⟩

/-- Two gaps in a row have a non-empty interval between them, so they do not touch. -/
theorem separated_gaps {lower : Bound T} {l : List (Interval T)} (h : Separated l)
    (hlower : lower.lowerCut = .bottom ∨ ∀ i ∈ l, lower.lowerCut < i.lo) : Separated (gaps lower l) := by
  induction l generalizing lower with
  | nil =>
    refine Row.spaced_singleton ?_
    show lower.lowerCut < .top
    exact Cut.lt_top_iff.2 lower.lowerCut_ne_top
  | cons i rest ih =>
    obtain ⟨hi, hrest, hsep⟩ := Row.spaced_cons.1 h
    have hhead : ∀ g ∈ (i.lower.complement?.map (Interval.mk lower)).toList, g.lo < g.up ∧ g.up = i.lo := by
      intro g hg
      rcases i.lower.lowerCut_cases with ⟨hc, -⟩ | ⟨upper, hc, hcut⟩
      · simp [hc] at hg
      · obtain rfl : g = ⟨lower, upper⟩ := by simpa [hc] using hg
        refine ⟨?_, hcut⟩
        show lower.lowerCut < upper.upperCut
        rcases hlower with hbottom | hlt
        · rw [hbottom, Cut.bottom_lt_iff]
          exact upper.upperCut_ne_bottom
        · rw [hcut]
          exact hlt i List.mem_cons_self
    have htail : Separated ((i.upper.complement?.map (gaps · rest)).getD []) ∧
        ∀ g ∈ (i.upper.complement?.map (gaps · rest)).getD [], i.up ≤ g.lo := by
      rcases i.upper.upperCut_cases with ⟨hc, -⟩ | ⟨next, hc, hcut⟩
      · rw [hc]
        exact ⟨Row.spaced_nil, by simp⟩
      · rw [hc]
        replace hcut : next.lowerCut = i.up := hcut
        have hnext : next.lowerCut = .bottom ∨ ∀ b ∈ rest, next.lowerCut < b.lo :=
          Or.inr (by rwa [hcut])
        refine ⟨ih hsep hnext, ?_⟩
        intro g hg
        -- a gap begins where it covers, and that is not before `next`
        have hcov : Covered (gaps next rest) g.lo :=
          ⟨g, hg, le_refl _, (ih hsep hnext).nonempty g hg⟩
        rw [← hcut]
        exact ((covered_gaps hsep hnext g.lo).1 hcov).1
    rw [gaps_cons]
    refine Row.spaced_append.2 ⟨?_, htail.1, ?_⟩
    · cases hg : i.lower.complement?.map (Interval.mk lower) with
      | none => exact Row.spaced_nil
      | some g => exact Row.spaced_singleton (hhead g (by simp [hg])).1
    · intro g hg g' hg'
      calc g.up = i.lo := (hhead g hg).2
        _ < i.up := hi
        _ ≤ g'.lo := htail.2 g' hg'

/-- In a separated row only the last interval can be without an upper limit, and only the first without a lower
one. -/
theorem isUnbounded_between {i j : Interval T} {rest : List (Interval T)} (h : Separated (i :: j :: rest)) :
    i.upper.isUnbounded = false ∧ j.lower.isUnbounded = false := by
  obtain ⟨-, hrest, -⟩ := Row.spaced_cons.1 h
  have hlt : i.upper.upperCut < j.lower.lowerCut := hrest j List.mem_cons_self
  constructor
  · rw [← Bool.not_eq_true, Bound.isUnbounded_iff_upperCut]
    intro htop
    rw [htop] at hlt
    exact Cut.not_top_lt hlt
  · rw [← Bool.not_eq_true, Bound.isUnbounded_iff_lowerCut]
    intro hbottom
    rw [hbottom] at hlt
    exact Cut.not_lt_bottom hlt

/-- **Walking along a row** leaves the place of the first interval to what lies before it, be there room or not, and
after that come the gaps from its end on. -/
theorem foldl_gapStep {i last : Interval T} {rest : List (Interval T)} (h : Separated (i :: rest))
    (hlast : (i :: rest).getLast? = some last) (slots : Array (Interval T)) (lower : Bound T) :
    let walked := (i :: rest).foldl gapStep (slots, lower)
    (if last.upper.isUnbounded then walked.1 else walked.1.push ⟨walked.2, .unbounded⟩).toList =
      slots.toList ++ ⟨lower, i.lower.flip⟩ :: (i.upper.complement?.map (gaps · rest)).getD [] := by
  induction rest generalizing i slots lower with
  | nil =>
    obtain rfl : i = last := by simpa using hlast
    cases hopen : i.upper.isUnbounded with
    | true => simp [gapStep, Bound.complement?_eq, hopen]
    | false => simp [gapStep, Bound.complement?_eq, hopen, gaps]
  | cons j rest ih =>
    obtain ⟨hupper, hlower⟩ := isUnbounded_between h
    obtain ⟨-, -, hrest⟩ := Row.spaced_cons.1 h
    rw [List.getLast?_cons_cons] at hlast
    -- the gap between the two has room on both sides, so its place is kept
    have hgaps : gaps i.upper.flip (j :: rest) =
        ⟨i.upper.flip, j.lower.flip⟩ :: (j.upper.complement?.map (gaps · rest)).getD [] := by
      simp [gaps_cons, j.lower.complement?_eq, hlower]
    have hstep := ih hrest hlast (slots.push ⟨lower, i.lower.flip⟩) i.upper.flip
    rw [← hgaps] at hstep
    simpa [gapStep, i.upper.complement?_eq, hupper] using hstep

/-- **The complement is made of the gaps.**  What the walk leaves in the first place is a gap unless the first interval
has no lower limit, and then it is taken away. -/
theorem toList_compl {s : IntervalSet T} (h : Separated s.toList) :
    s.compl.toList = gaps .unbounded s.toList := by
  cases hrow : s.toList with
  | nil =>
    have hempty : s.intervals = #[] := Array.toList_eq_nil_iff.1 hrow
    rw [compl, hempty]
    rfl
  | cons i rest =>
    rw [hrow] at h
    obtain ⟨last, hlast⟩ : ∃ last, (i :: rest).getLast? = some last :=
      ⟨_, List.getLast?_eq_some_getLast (List.cons_ne_nil i rest)⟩
    have hfirst : s.intervals[0]? = some i := by
      rw [← Array.getElem?_toList]
      exact congrArg (·[0]?) hrow
    have hback : s.intervals.back? = some last := by
      rw [← Array.getLast?_toList, ← hlast]
      exact congrArg List.getLast? hrow
    let walked := (i :: rest).foldl gapStep (#[], .unbounded)
    let row := if last.upper.isUnbounded then walked.1 else walked.1.push ⟨walked.2, .unbounded⟩
    have hcompl : s.compl = ⟨if i.lower.isUnbounded then row.eraseIdxIfInBounds 0 else row⟩ := by
      rw [compl, hfirst, hback, ← Array.foldl_toList, show s.intervals.toList = i :: rest from hrow]
    have hwalk : row.toList = ⟨.unbounded, i.lower.flip⟩ :: (i.upper.complement?.map (gaps · rest)).getD [] :=
      foldl_gapStep h hlast #[] .unbounded
    rw [hcompl, toList, gaps_cons, i.lower.complement?_eq]
    cases i.lower.isUnbounded with
    | true => simp [hwalk]
    | false => exact hwalk

theorem separated_compl {s : IntervalSet T} (h : Separated s.toList) : Separated s.compl.toList := by
  rw [toList_compl h]
  exact separated_gaps h (Or.inl rfl)

theorem covered_compl {s : IntervalSet T} (h : Separated s.toList) (c : Cut T) :
    Covered s.compl.toList c ↔ c ≠ .top ∧ ¬Covered s.toList c := by
  rw [toList_compl h, covered_gaps h (Or.inl rfl)]
  simp [Bound.lowerCut]

/-! ## Common pieces -/

/-- Of two intervals the one that ends first has nothing in common with what follows the other. -/
theorem not_covered_of_ends_first {i j : Interval T} {js : List (Interval T)} {c : Cut T}
    (hj : Separated (j :: js)) (hends : i.up ≤ j.up) (hi : i.Holds c) : ¬Covered js c := by
  rintro ⟨k, hk, hge, -⟩
  obtain ⟨-, hjs, -⟩ := Row.spaced_cons.1 hj
  have hlate : c < k.lo := calc
    c < i.up := hi.2
    _ ≤ j.up := hends
    _ < k.lo := hjs k hk
  exact absurd hge (not_le.2 hlate)

/-- Two rows walked side by side: at each step the interval that ends first is done with. -/
theorem covered_shared {l m : List (Interval T)} (hl : Separated l) (hm : Separated m) (c : Cut T) :
    Covered (shared l m) c ↔ Covered l c ∧ Covered m c := by
  fun_induction shared l m with
  | case1 m => simp
  | case2 i is => simp
  | case3 i is j js ihLeft ihRight =>
    obtain ⟨-, -, his⟩ := Row.spaced_cons.1 hl
    obtain ⟨-, -, hjs⟩ := Row.spaced_cons.1 hm
    rw [covered_append, covered_toList, Interval.holds_intersection?]
    split
    · next hle =>
      have hends : i.up ≤ j.up := Bound.isLE_compareUpper.1 hle
      rw [ihLeft his hm, covered_cons, covered_cons]
      constructor
      · rintro (⟨hi, hj⟩ | ⟨hi, hj⟩)
        · exact ⟨Or.inl hi, Or.inl hj⟩
        · exact ⟨Or.inr hi, hj⟩
      · rintro ⟨hi | hi, hj⟩
        · exact Or.inl ⟨hi, hj.resolve_right (not_covered_of_ends_first hm hends hi)⟩
        · exact Or.inr ⟨hi, hj⟩
    · next hgt =>
      have hends : j.up ≤ i.up := by
        rw [Bound.isLE_compareUpper, not_le] at hgt
        exact hgt.le
      rw [ihRight hl hjs, covered_cons, covered_cons]
      constructor
      · rintro (⟨hi, hj⟩ | ⟨hi, hj⟩)
        · exact ⟨Or.inl hi, Or.inl hj⟩
        · exact ⟨hi, Or.inr hj⟩
      · rintro ⟨hi, hj | hj⟩
        · exact Or.inl ⟨hi.resolve_right (not_covered_of_ends_first hl hends hj), hj⟩
        · exact Or.inr ⟨hi, hj⟩

/-! ## Histories -/

/-- How a set came about: from nothing, from everything or from intervals in any order, by changes and by
operations on sets with histories of their own. -/
inductive History (T : Type u) where
  | empty
  | full
  | ofList (is : List (Interval T))
  | insert (e : History T) (i : Interval T)
  | erase (e : History T) (i : Interval T)
  | compl (e : History T)
  | insertAll (e : History T) (is : List (Interval T))
  | union (e f : History T)
  | diff (e f : History T)
  | inter (e f : History T)

namespace History

/-- The set that comes about. -/
def result : History T → IntervalSet T
  | empty => .empty
  | full => .full
  | ofList is => .ofList is
  | insert e i => e.result.insert i
  | erase e i => e.result.erase i
  | compl e => e.result.compl
  | insertAll e is => e.result.insertAll is
  | union e f => e.result.union f.result
  | diff e f => e.result.diff f.result
  | inter e f => e.result.inter f.result

/-- Whether the operations, taken as Boolean ones at each value, leave the value in. -/
def denotes (v : T) : History T → Bool
  | empty => false
  | full => true
  | ofList is => is.any fun i => i.contains v
  | insert e i => e.denotes v || i.contains v
  | erase e i => e.denotes v && !i.contains v
  | compl e => !e.denotes v
  | insertAll e is => e.denotes v || is.any fun i => i.contains v
  | union e f => e.denotes v || f.denotes v
  | diff e f => e.denotes v && !f.denotes v
  | inter e f => e.denotes v && f.denotes v

theorem separated_result (e : History T) : Separated e.result.toList := by
  induction e with
  | empty => exact separated_empty
  | full => exact separated_full
  | ofList is => exact separated_applyAll separated_empty _
  | insert e i ih => exact separated_insert ih i
  | erase e i ih => exact separated_erase ih i
  | compl e ih => exact separated_compl ih
  | insertAll e is ih => exact separated_applyAll ih _
  | union e f ihe _ => exact separated_applyAll ihe _
  | diff e f ihe _ => exact separated_applyAll ihe _
  | inter e f _ _ => exact separated_applyAll separated_empty _

theorem covered_any {is : List (Interval T)} {v : T} :
    Covered is (.below v) ↔ (is.any fun i => i.contains v) = true := by
  simp [Covered, Interval.contains_iff]

theorem covered_result (e : History T) (v : T) :
    Covered e.result.toList (.below v) ↔ e.denotes v = true := by
  induction e with
  | empty => simp [result, denotes, IntervalSet.empty, toList]
  | full => simp [result, denotes, covered_full]
  | ofList is =>
    rw [result, covered_ofList, covered_any]
    simp [denotes]
  | insert e i ih =>
    rw [result, covered_insert e.separated_result, ih, ← Interval.contains_iff]
    simp [denotes]
  | erase e i ih =>
    rw [result, covered_erase e.separated_result, ih, ← Interval.contains_iff]
    simp [denotes]
  | compl e ih =>
    rw [result, covered_compl e.separated_result, ih]
    simp [denotes]
  | insertAll e is ih =>
    rw [result, covered_insertAll e.separated_result, ih, covered_any]
    simp [denotes]
  | union e f ihe ihf =>
    have hunion : e.result.union f.result = e.result.insertAll f.result.toList := rfl
    rw [result, hunion, covered_insertAll e.separated_result, ihe, ihf]
    simp [denotes]
  | diff e f ihe ihf =>
    rw [result, IntervalSet.diff, diffChanges, covered_eraseAll e.separated_result, ihe, ihf]
    simp [denotes]
  | inter e f ihe ihf =>
    have hinter : e.result.inter f.result =
        .ofList (shared e.result.toList f.result.toList) := rfl
    rw [result, hinter, covered_ofList, covered_shared e.separated_result f.separated_result, ihe, ihf]
    simp [denotes]

/-- **Every set is separated and contains what its history denotes**: no stored interval is empty, each
comes before the next without touching it, and a value belongs to the set if the operations, taken as
Boolean ones, say so. -/
theorem separated_and_denotes (e : History T) :
    (∀ i ∈ e.result.toList, i.isEmpty = false) ∧
      (e.result.toList.IsChain fun x y => x.isBefore y = true ∧ x.isTouching y = false) ∧
      ∀ v, e.result.contains v = e.denotes v := by
  have h := e.separated_result
  refine ⟨?_, ?_, ?_⟩
  · intro i hi
    exact Interval.isEmpty_eq_false_iff.2 (h.nonempty i hi)
  · apply List.Pairwise.isChain
    refine h.sorted.imp_of_mem fun hx hy hxy => ?_
    have hapart := (Interval.isApart_iff (h.nonempty _ hx) (h.nonempty _ hy)).2 hxy
    rwa [Bool.and_eq_true, Bool.not_eq_true'] at hapart
  · intro v
    rw [Bool.eq_iff_iff, contains_iff h, covered_result]

end History

end CodeAtlas.IntervalSet
