import CodeAtlas.Proofs.Interval.Map.Run
import Mathlib.Data.List.Perm.Basic
import Mathlib.Data.List.Sort

/-!
# The order of additions does not matter

Adding to a map splits what is stored at the ends of the new keys and lays the new keys out between the ends of
what is stored.  So the entries of a map that is built by adding are always the stretches that the ends of all
keys added so far cut out, and which of them came first can no longer be seen, provided that it cannot be seen in
the values either.

* `Marks` — some entry of a row begins or ends at the cut;
* `eq_of_maps_of_marks` — an ascending row is determined by its values and its marks;
* `marks_overlay_keys`, `marks_addWith` — adding marks the two ends of the keys and keeps every other mark;
* `Ordered` — maps with an ascending row, on which additions commute (`Ordered.add_right_comm`);
* `toList_addAll_perm` — the entries do not depend on the order of the additions, and their ends are those of
  the keys.
-/

namespace CodeAtlas

universe u v

variable {K : Type u} {V : Type v}

/-! ## Marks -/

/-- Some entry begins or ends at the cut. -/
def Marks (l : List (Interval K × V)) (c : Cut K) : Prop :=
  ∃ e ∈ l, c = e.1.lo ∨ c = e.1.up

@[simp] theorem marks_nil (c : Cut K) : ¬Marks ([] : List (Interval K × V)) c := by
  simp [Marks]

@[simp] theorem marks_cons {e : Interval K × V} {l : List (Interval K × V)} {c : Cut K} :
    Marks (e :: l) c ↔ (c = e.1.lo ∨ c = e.1.up) ∨ Marks l c := by
  simp [Marks]

@[simp] theorem marks_append {l m : List (Interval K × V)} {c : Cut K} :
    Marks (l ++ m) c ↔ Marks l c ∨ Marks m c := by
  simp [Marks, or_and_right, exists_or]

variable [LinearOrder K]

/-- No mark of an ascending row lies strictly inside one of its entries. -/
theorem not_marks_inside {l : List (Interval K × V)} (h : Row.Ascending Prod.fst l) {e : Interval K × V}
    (he : e ∈ l) {c : Cut K} (hlo : e.1.lo < c) (hup : c < e.1.up) : ¬Marks l c := by
  rintro ⟨d, hd, hc⟩
  have hne := h.nonempty d hd
  by_cases hde : d = e
  · subst hde
    rcases hc with rfl | rfl
    · exact lt_irrefl _ hlo
    · exact lt_irrefl _ hup
  · -- two entries lie one after the other, so the ends of `d` are not inside `e`
    have hapart : d.1.up ≤ e.1.lo ∨ e.1.up ≤ d.1.lo :=
      List.Pairwise.forall_of_forall_of_flip
        (R := fun a b => a ≠ b → a.1.up ≤ b.1.lo ∨ b.1.up ≤ a.1.lo)
        (fun _ _ hne => absurd rfl hne) (h.sorted.imp fun hab _ => Or.inl hab)
        (h.sorted.imp fun hab _ => Or.inr hab) hd he hde
    rcases hapart with hbefore | hafter
    · rcases hc with rfl | rfl
      · exact absurd (lt_of_lt_of_le hne hbefore) (not_lt.2 hlo.le)
      · exact absurd hbefore (not_le.2 hlo)
    · rcases hc with rfl | rfl
      · exact absurd hafter (not_le.2 hup)
      · exact absurd (lt_of_le_of_lt hafter hne) (not_lt.2 hup.le)

/-- An entry of one row is an entry of every row with the same values and marks. -/
theorem mem_of_maps_of_marks {l m : List (Interval K × V)} (hl : Row.Ascending Prod.fst l)
    (hm : Row.Ascending Prod.fst m) (hmaps : ∀ c y, Maps l c y → Maps m c y)
    (hmarks : ∀ c, Marks l c ↔ Marks m c) {e : Interval K × V} (he : e ∈ l) : e ∈ m := by
  have hne := hl.nonempty e he
  obtain ⟨f, hf, ⟨hlo, hup⟩, hvalue⟩ := hmaps e.1.lo e.2 ⟨e, he, ⟨le_refl _, hne⟩, rfl⟩
  have hbegin : f.1.lo = e.1.lo := by
    by_contra hdiff
    have hmark : Marks m e.1.lo := (hmarks _).1 ⟨e, he, Or.inl rfl⟩
    exact not_marks_inside hm hf (lt_of_le_of_ne hlo hdiff) hup hmark
  have hend : f.1.up = e.1.up := by
    rcases lt_trichotomy f.1.up e.1.up with hlt | heq | hgt
    · have hmark : Marks l f.1.up := (hmarks _).2 ⟨f, hf, Or.inr rfl⟩
      exact absurd hmark (not_marks_inside hl he (hbegin ▸ hm.nonempty f hf) hlt)
    · exact heq
    · have hmark : Marks m e.1.up := (hmarks _).1 ⟨e, he, Or.inr rfl⟩
      exact absurd hmark (not_marks_inside hm hf (hbegin ▸ hne) hgt)
  have heq : e = f := Prod.ext (Interval.ext_cuts hbegin hend).symm hvalue
  exact heq ▸ hf

/-- **An ascending row is determined by its values and its marks.** -/
theorem eq_of_maps_of_marks {l m : List (Interval K × V)} (hl : Row.Ascending Prod.fst l)
    (hm : Row.Ascending Prod.fst m) (hmaps : ∀ c y, Maps l c y ↔ Maps m c y)
    (hmarks : ∀ c, Marks l c ↔ Marks m c) : l = m := by
  let before : Interval K × V → Interval K × V → Prop := fun d e => d.1.lo < e.1.lo
  have : Std.Irrefl before := ⟨fun _ => lt_irrefl _⟩
  have : Std.Antisymm before := ⟨fun _ _ hab hba => absurd hab (lt_asymm hba)⟩
  have hsortedl : l.Pairwise before := hl.ends_lt.imp fun hab => hab.2
  have hsortedm : m.Pairwise before := hm.ends_lt.imp fun hab => hab.2
  refine hsortedl.eq_of_mem_iff hsortedm fun e => ⟨fun he => ?_, fun he => ?_⟩
  · exact mem_of_maps_of_marks hl hm (fun c y => (hmaps c y).1) hmarks he
  · exact mem_of_maps_of_marks hm hl (fun c y => (hmaps c y).2) (fun c => (hmarks c).symm) he

/-- The marks of a piece that reaches from `a` to `b`, if anything lies between these. -/
theorem marks_piece {o : Option (Interval K)} {x : V} {a b c : Cut K}
    (hends : ∀ k ∈ o, k.lo = a ∧ k.up = b ∧ k.lo < k.up)
    (hholds : ∀ d, (∃ k ∈ o, k.Holds d) ↔ a ≤ d ∧ d < b) :
    Marks (o.toList.map fun i => (i, x)) c ↔ a < b ∧ (c = a ∨ c = b) := by
  cases o with
  | none =>
    have hnone : ¬a < b := by
      intro hlt
      obtain ⟨k, hk, -⟩ := (hholds a).2 ⟨le_refl a, hlt⟩
      cases hk
    simp [hnone]
  | some k =>
    obtain ⟨rfl, rfl, hne⟩ := hends k rfl
    simp [hne]

namespace IntervalMap

/-! ## The marks of an addition -/

section Adding

variable {combine : V → V → V} {keys : Interval K} {value : V} {uncovered : Option (Bound K)}
  {e : Interval K × V} {c : Cut K}

theorem marks_leftPart : Marks (leftPart keys e) c ↔ e.1.lo < keys.lo ∧ (c = e.1.lo ∨ c = keys.lo) :=
  marks_piece (fun _ hk => Interval.until?_eq_some hk) fun _ => Interval.holds_until?

theorem marks_rightPart : Marks (rightPart keys e) c ↔ keys.up < e.1.up ∧ (c = keys.up ∨ c = e.1.up) :=
  marks_piece (fun _ hk => Interval.after?_eq_some hk) fun _ => Interval.holds_after?

theorem marks_corePart : Marks (corePart combine keys value e) c ↔
    max e.1.lo keys.lo < min e.1.up keys.up ∧ (c = max e.1.lo keys.lo ∨ c = min e.1.up keys.up) := by
  refine marks_piece (fun _ hk => Interval.intersection?_eq_some hk) fun d => ?_
  rw [Interval.holds_intersection?, max_le_iff, lt_min_iff]
  exact and_and_and_comm

/-- The pieces of an entry begin and end where the entry does, where the keys cut into it, and where a gap
before it begins. -/
theorem marks_pieces (he : e.1.lo < e.1.up) (hkeys : keys.lo < keys.up)
    (hover : keys.lo < e.1.up ∧ e.1.lo < keys.up) :
    Marks (pieces combine keys value uncovered e) c ↔
      (c = e.1.lo ∨ c = e.1.up) ∨ c = max e.1.lo keys.lo ∨ c = min e.1.up keys.up ∨
        uncoveredCut uncovered < e.1.lo ∧ c = uncoveredCut uncovered := by
  have hgap : Marks ((uncovered.bind fun lower => Interval.until? lower e.1.lower).toList.map
      fun i => (i, value)) c ↔
      uncoveredCut uncovered < e.1.lo ∧ (c = uncoveredCut uncovered ∨ c = e.1.lo) :=
    marks_piece (fun _ hk => mem_gap hk) fun _ => holds_gap
  have hcore : max e.1.lo keys.lo < min e.1.up keys.up :=
    max_lt (lt_min he hover.2) (lt_min hover.1 hkeys)
  -- what lies before the keys begins with the entry, what lies after them ends with it
  have hbegin : (e.1.lo < keys.lo ∧ (c = e.1.lo ∨ c = keys.lo)) ∨ c = max e.1.lo keys.lo ↔
      c = e.1.lo ∨ c = max e.1.lo keys.lo := by
    rcases lt_or_ge e.1.lo keys.lo with hlo | hlo
    · simp [hlo, max_eq_right hlo.le]
    · simp [not_lt.2 hlo, max_eq_left hlo]
  have hend : c = min e.1.up keys.up ∨ keys.up < e.1.up ∧ (c = keys.up ∨ c = e.1.up) ↔
      c = e.1.up ∨ c = min e.1.up keys.up := by
    rcases lt_or_ge keys.up e.1.up with hup | hup
    · simp [hup, min_eq_right hup.le, or_comm]
    · simp [not_lt.2 hup, min_eq_left hup]
  rw [pieces, marks_append, marks_append, marks_append, marks_leftPart, marks_rightPart, marks_corePart,
    hgap]
  simp only [hcore, true_and]
  grind

/-- The marks of a laid out row, up to where the keys begin and where the part not covered yet begins. -/
theorem marks_overlay {M : List (Interval K × V)} (hkeys : keys.lo < keys.up)
    (hM : Row.Ascending Prod.fst M) (hover : ∀ e ∈ M, keys.lo < e.1.up ∧ e.1.lo < keys.up)
    (hroom : M ≠ [] → uncoveredCut uncovered < keys.up) :
    Marks (overlay combine keys value uncovered M) c ∨ c = uncoveredCut uncovered ∨ c = keys.lo ↔
      Marks M c ∨ (uncoveredCut uncovered < keys.up ∧ c = keys.up) ∨ c = uncoveredCut uncovered ∨
        c = keys.lo := by
  induction M generalizing uncovered with
  | nil =>
    have htail : Marks (overlay combine keys value uncovered []) c ↔ uncoveredCut uncovered < keys.up ∧
        (c = uncoveredCut uncovered ∨ c = keys.up) := by
      cases uncovered with
      | none =>
        have htop : ¬uncoveredCut none < keys.up := not_lt.2 (Cut.le_top _)
        simp [overlay, htop]
      | some lower =>
        have hempty : (⟨lower, keys.upper⟩ : Interval K).isEmpty = false ↔ lower.lowerCut < keys.up :=
          Interval.isEmpty_eq_false_iff
        by_cases hlt : lower.lowerCut < keys.up
        · simp only [overlay, hempty.2 hlt, Bool.false_eq_true, if_false, marks_cons, marks_nil, or_false,
            uncoveredCut, hlt, true_and]
          exact Iff.rfl
        · simp [overlay, Bool.not_eq_false _ ▸ mt hempty.1 hlt, uncoveredCut, hlt]
    rw [htail, and_or_left, or_assoc]
    simp only [marks_nil, false_or]
    constructor
    · rintro (⟨-, h⟩ | h)
      · exact Or.inr (Or.inl h)
      · exact h
    · exact Or.inr
  | cons e rest ih =>
    obtain ⟨he, hrest, hasc⟩ := Row.spaced_cons.1 hM
    obtain ⟨hovere, hoverRest⟩ := List.forall_mem_cons.1 hover
    have hnext : uncoveredCut e.1.upper.complement? = e.1.up := uncoveredCut_complement? _
    have hopen : uncoveredCut uncovered < keys.up := hroom (List.cons_ne_nil e rest)
    have hroomNext : rest ≠ [] → uncoveredCut e.1.upper.complement? < keys.up := by
      intro hne
      obtain ⟨b, tail, rfl⟩ := List.exists_cons_of_ne_nil hne
      rw [hnext]
      exact lt_of_le_of_lt (hrest b List.mem_cons_self) (hoverRest b List.mem_cons_self).2
    have htail := ih hasc hoverRest hroomNext
    rw [hnext] at htail
    rw [overlay_cons, marks_append, marks_pieces he hkeys hovere, marks_cons]
    by_cases hknown : c = e.1.lo ∨ c = e.1.up ∨ c = uncoveredCut uncovered ∨ c = keys.lo
    · -- these are marks on both sides
      rcases hknown with h | h | h | h
      · simp only [h, true_or]
      · simp only [h, true_or, or_true]
      · simp only [h, true_or, or_true]
      · simp only [h, or_true]
    · simp only [not_or] at hknown
      obtain ⟨hlo, hup, hgap, hstart⟩ := hknown
      have hmax : c ≠ max e.1.lo keys.lo := by
        rcases max_choice e.1.lo keys.lo with h | h
        · rwa [h]
        · rwa [h]
      -- the keys end inside this entry, or what follows it still has their end
      have hmin : c = min e.1.up keys.up ∨ e.1.up < keys.up ∧ c = keys.up ↔ c = keys.up := by
        rcases lt_or_ge e.1.up keys.up with hlt | hge
        · simp only [min_eq_left hlt.le, hup, hlt, true_and, false_or]
        · simp only [min_eq_right hge, not_lt.2 hge, false_and, or_false]
      simp only [hup, hstart, or_false] at htail
      simp only [hlo, hup, hgap, hstart, hmax, hopen, and_false, true_and, or_false, false_or]
      rw [htail, or_left_comm, hmin]

/-- **Laying an interval over the entries that it overlaps** marks its two ends and keeps all marks. -/
theorem marks_overlay_keys {M : List (Interval K × V)} (hkeys : keys.lo < keys.up)
    (hM : Row.Ascending Prod.fst M) (hover : ∀ e ∈ M, keys.lo < e.1.up ∧ e.1.lo < keys.up) :
    Marks (overlay combine keys value (some keys.lower) M) c ↔ Marks M c ∨ c = keys.lo ∨ c = keys.up := by
  have hcut : uncoveredCut (some keys.lower) = keys.lo := rfl
  have hall : Marks (overlay combine keys value (some keys.lower) M) c ∨ c = keys.lo ∨ c = keys.lo ↔
      Marks M c ∨ (keys.lo < keys.up ∧ c = keys.up) ∨ c = keys.lo ∨ c = keys.lo :=
    marks_overlay hkeys hM hover fun _ => hkeys
  have hstart : Marks (overlay combine keys value (some keys.lower) M) keys.lo := by
    cases M with
    | nil =>
      have hne : (⟨keys.lower, keys.upper⟩ : Interval K).isEmpty = false :=
        Interval.isEmpty_eq_false_iff.2 hkeys
      simp only [overlay, hne, Bool.false_eq_true, if_false]
      exact ⟨_, List.mem_cons_self, Or.inl rfl⟩
    | cons e rest =>
      obtain ⟨he, -, -⟩ := Row.spaced_cons.1 hM
      rw [overlay_cons, marks_append, marks_pieces he hkeys (hover e List.mem_cons_self), hcut]
      rcases lt_or_ge keys.lo e.1.lo with hlt | hge
      · exact Or.inl (Or.inr (Or.inr (Or.inr ⟨hlt, rfl⟩)))
      · exact Or.inl (Or.inr (Or.inl (max_eq_right hge).symm))
  constructor
  · intro h
    rcases hall.1 (Or.inl h) with h | ⟨-, h⟩ | h | h
    · exact Or.inl h
    · exact Or.inr (Or.inr h)
    · exact Or.inr (Or.inl h)
    · exact Or.inr (Or.inl h)
  · rintro (h | rfl | rfl)
    · rcases hall.2 (Or.inl h) with h | rfl | rfl
      · exact h
      · exact hstart
      · exact hstart
    · exact hstart
    · rcases hall.2 (Or.inr (Or.inl ⟨hkeys, rfl⟩)) with h | h | h
      · exact h
      · exact absurd h (ne_of_gt hkeys)
      · exact absurd h (ne_of_gt hkeys)

/-- **Adding marks the two ends of the keys** and keeps every other mark. -/
theorem marks_addWith {m : IntervalMap K V} (h : Row.Ascending Prod.fst m.toList) :
    Marks (m.addWith combine keys value).toList c ↔
      Marks m.toList c ∨ keys.lo < keys.up ∧ (c = keys.lo ∨ c = keys.up) := by
  cases hempty : keys.isEmpty with
  | true =>
    have hnot : ¬keys.lo < keys.up := not_lt.2 (Interval.isEmpty_iff.1 hempty)
    rw [addWith_of_isEmpty hempty]
    simp only [hnot, false_and, or_false]
  | false =>
    have hkeys := Interval.isEmpty_eq_false_iff.1 hempty
    obtain ⟨A, M, B, hrow, hadd, -, hM, -⟩ := addWith_split h combine hkeys value
    rw [hrow] at h
    obtain ⟨hasc, -, -⟩ := h.middle
    rw [hrow, hadd, marks_append, marks_append, marks_append, marks_append,
      marks_overlay_keys hkeys hasc hM]
    simp only [hkeys, true_and]
    tauto

end Adding

/-! ## Additions commute -/

/-- What adding `value` makes of the values at a cut inside the keys: each is combined with it, and where there
is none it stands alone. -/
def Added (combine : V → V → V) (value : V) (old : V → Prop) (y : V) : Prop :=
  (∃ x, old x ∧ y = combine x value) ∨ (∀ x, ¬old x) ∧ y = value

omit [LinearOrder K] in
/-- Two values are added in either order. -/
theorem Added.swap {combine : V → V → V} [ha : Std.Associative combine] [hc : Std.Commutative combine]
    {v w y : V} {old : V → Prop} (h : Added combine w (Added combine v old) y) :
    Added combine v (Added combine w old) y := by
  rcases h with ⟨z, ⟨x, hx, rfl⟩ | ⟨hnone, rfl⟩, rfl⟩ | ⟨hnone, rfl⟩
  · refine Or.inl ⟨combine x w, Or.inl ⟨x, hx, rfl⟩, ?_⟩
    rw [ha.assoc, hc.comm v w, ← ha.assoc]
  · exact Or.inl ⟨w, Or.inr ⟨hnone, rfl⟩, hc.comm z w⟩
  · -- some value is always there after an addition
    by_cases hsome : ∃ x, old x
    · obtain ⟨x, hx⟩ := hsome
      exact absurd (Or.inl ⟨x, hx, rfl⟩) (hnone (combine x v))
    · exact absurd (Or.inr ⟨fun x hx => hsome ⟨x, hx⟩, rfl⟩) (hnone v)

omit [LinearOrder K] in
theorem added_comm {combine : V → V → V} [Std.Associative combine] [Std.Commutative combine] (v w : V)
    (old : V → Prop) : Added combine w (Added combine v old) = Added combine v (Added combine w old) :=
  funext fun _ => propext ⟨Added.swap, Added.swap⟩

/-- What adding keys with a value makes of the values at a cut. -/
def valuesAfter (combine : V → V → V) (e : Interval K × V) (c : Cut K) (old : V → Prop) : V → Prop :=
  if e.1.Holds c then Added combine e.2 old else old

theorem maps_addWith_eq {m : IntervalMap K V} (h : Row.Ascending Prod.fst m.toList) (combine : V → V → V)
    (e : Interval K × V) (c : Cut K) :
    Maps (m.addWith combine e.1 e.2).toList c = valuesAfter combine e c (Maps m.toList c) := by
  funext y
  rw [maps_addWith h, valuesAfter]
  by_cases hin : e.1.Holds c
  · simp only [hin, if_true, true_and, Added]
  · simp [hin]

theorem valuesAfter_comm {combine : V → V → V} [Std.Associative combine] [Std.Commutative combine]
    (d e : Interval K × V) (c : Cut K) (old : V → Prop) :
    valuesAfter combine e c (valuesAfter combine d c old) =
      valuesAfter combine d c (valuesAfter combine e c old) := by
  unfold valuesAfter
  split
  · split
    · exact added_comm d.2 e.2 old
    · rfl
  · rfl

/-- A map with an ascending row. -/
structure Ordered (K : Type u) (V : Type v) [LinearOrder K] where
  map : IntervalMap K V
  ascending : Row.Ascending Prod.fst map.toList

namespace Ordered

theorem ext_marks {m n : Ordered K V} (hmaps : ∀ c y, Maps m.map.toList c y ↔ Maps n.map.toList c y)
    (hmarks : ∀ c, Marks m.map.toList c ↔ Marks n.map.toList c) : m = n := by
  have hrow : m.map.toList = n.map.toList := eq_of_maps_of_marks m.ascending n.ascending hmaps hmarks
  obtain ⟨⟨row⟩, _⟩ := m
  obtain ⟨⟨row'⟩, _⟩ := n
  obtain rfl : row = row' := Array.toList_inj.1 hrow
  rfl

/-- The map without entries. -/
def empty : Ordered K V :=
  ⟨.empty, Row.spaced_nil⟩

/-- Adds keys with a value. -/
def add (combine : V → V → V) (m : Ordered K V) (e : Interval K × V) : Ordered K V :=
  ⟨m.map.addWith combine e.1 e.2, ascending_addWith m.ascending combine e.1 e.2⟩

variable {combine : V → V → V}

theorem marks_add {m : Ordered K V} {e : Interval K × V} {c : Cut K} :
    Marks (m.add combine e).map.toList c ↔
      Marks m.map.toList c ∨ e.1.lo < e.1.up ∧ (c = e.1.lo ∨ c = e.1.up) :=
  marks_addWith m.ascending

theorem maps_add (m : Ordered K V) (e : Interval K × V) (c : Cut K) :
    Maps (m.add combine e).map.toList c = valuesAfter combine e c (Maps m.map.toList c) :=
  maps_addWith_eq m.ascending combine e c

/-- **Additions commute.** -/
theorem add_right_comm [Std.Associative combine] [Std.Commutative combine] (m : Ordered K V)
    (d e : Interval K × V) : (m.add combine d).add combine e = (m.add combine e).add combine d := by
  refine ext_marks (fun c y => iff_of_eq (congrFun ?_ y)) fun c => ?_
  · rw [maps_add, maps_add, maps_add, maps_add]
    exact valuesAfter_comm d e c _
  · rw [marks_add, marks_add, marks_add, marks_add]
    exact or_right_comm

instance [Std.Associative combine] [Std.Commutative combine] :
    RightCommutative (add combine : Ordered K V → Interval K × V → Ordered K V) :=
  ⟨add_right_comm⟩

end Ordered

/-! ## Whole lists of additions -/

/-- Adds keys with their values one after the other. -/
def addAll (combine : V → V → V) (m : IntervalMap K V) (l : List (Interval K × V)) : IntervalMap K V :=
  l.foldl (fun m e => m.addWith combine e.1 e.2) m

theorem map_foldl_add (combine : V → V → V) (l : List (Interval K × V)) :
    ∀ m : Ordered K V, (l.foldl (Ordered.add combine) m).map = m.map.addAll combine l := by
  induction l with
  | nil => exact fun m => rfl
  | cons e l ih => exact fun m => ih (m.add combine e)

/-- The marks of a row after additions are those before and the ends of the keys. -/
theorem marks_foldl_add (combine : V → V → V) (l : List (Interval K × V)) (c : Cut K) :
    ∀ m : Ordered K V, Marks (l.foldl (Ordered.add combine) m).map.toList c ↔
      Marks m.map.toList c ∨ ∃ e ∈ l, e.1.lo < e.1.up ∧ (c = e.1.lo ∨ c = e.1.up) := by
  induction l with
  | nil => simp
  | cons e l ih =>
    intro m
    rw [List.foldl_cons, ih, Ordered.marks_add, or_assoc]
    simp only [List.mem_cons, exists_eq_or_imp]

/-- **The order of additions does not matter.**  If values are combined by an associative and commutative
operation, keys with values added in any order give the same entries.  No two entries are ever merged: entries
begin and end exactly at the ends of the keys that are not empty. -/
theorem toList_addAll_perm {combine : V → V → V} [Std.Associative combine] [Std.Commutative combine]
    {l l' : List (Interval K × V)} (h : l.Perm l') :
    ((empty : IntervalMap K V).addAll combine l).toList = (empty.addAll combine l').toList ∧
      ∀ c, Marks ((empty : IntervalMap K V).addAll combine l).toList c ↔
        ∃ e ∈ l, e.1.isEmpty = false ∧ (c = e.1.lo ∨ c = e.1.up) := by
  have hmap : ∀ l : List (Interval K × V),
      (empty : IntervalMap K V).addAll combine l = (l.foldl (Ordered.add combine) Ordered.empty).map :=
    fun l => (map_foldl_add combine l Ordered.empty).symm
  refine ⟨?_, fun c => ?_⟩
  · rw [hmap, hmap, h.foldl_eq]
  · have hnone : ¬Marks (Ordered.empty : Ordered K V).map.toList c := marks_nil c
    rw [hmap, marks_foldl_add, or_iff_right hnone]
    simp only [Interval.isEmpty_eq_false_iff]

/-- Nested, touching, empty and unbounded keys over whole numbers. -/
def tiledKeys : List (Interval ℕ × ℕ) :=
  [(⟨.inclusive 0, .exclusive 5⟩, 1), (⟨.inclusive 5, .unbounded⟩, 2), (⟨.exclusive 3, .exclusive 3⟩, 4),
    (⟨.inclusive 2, .inclusive 7⟩, 8)]

/-- The law at work: the same four entries come about if the keys are added in reverse. -/
theorem toList_addAll_tiledKeys :
    ((empty : IntervalMap ℕ ℕ).addAll (· + ·) tiledKeys).toList =
        (empty.addAll (· + ·) tiledKeys.reverse).toList ∧
      (((empty : IntervalMap ℕ ℕ).addAll (· + ·) tiledKeys).toList.map fun e =>
          (e.1.lower, e.1.upper, e.2)) =
        [(.inclusive 0, .exclusive 2, 1), (.inclusive 2, .exclusive 5, 9), (.inclusive 5, .inclusive 7, 10),
          (.exclusive 7, .unbounded, 2)] :=
  ⟨(toList_addAll_perm (List.reverse_perm tiledKeys).symm).1, by decide +kernel⟩

end IntervalMap

end CodeAtlas
