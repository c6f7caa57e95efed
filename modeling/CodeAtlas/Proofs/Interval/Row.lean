import CodeAtlas.Interval.Row
import CodeAtlas.Proofs.Interval.Cut
import Mathlib.Data.List.Basic

/-!
# Places in a sorted row

Bisection finds the place where a predicate turns false, provided that it turns false only once.  In a row
whose items have ascending intervals this cuts the row in three: what lies before a given interval, what it
meets, and what lies after it.

* `Row.TurnsOnce`, `Row.partitionPoint_eq` — the place found is the one where the row is cut;
* `Row.Spaced`, `Row.Ascending` — non-empty intervals in ascending order, with or without room in between;
* `Row.Spaced.replace` — what may take the place of a stretch of such a row;
* `Row.overlap_split`, `Row.exists_overlaps_iff` — the three parts of a row around an interval, of which the middle
  one is what overlaps it;
* `Row.find?_eq_lookup` — looking for the item at a value by bisection finds what a search from the front finds.
-/

namespace CodeAtlas.Row

universe u v

variable {α : Type v}

/-! ## Bisection -/

/-- The loop keeps the cut between its two ends. -/
theorem bisect_eq {p : Nat → Bool} {n : Nat} (lo hi : Nat) (hlo : lo ≤ n) (hhi : n ≤ hi)
    (htrue : ∀ i, lo ≤ i → i < n → p i = true) (hfalse : ∀ i, n ≤ i → i < hi → p i = false) :
    bisect p lo hi = n := by
  fun_induction bisect p lo hi with
  | case1 lo hi hlt mid hmid ih =>
    -- the middle item satisfies `p`, so the cut lies after it
    have hcut : mid < n := by
      by_contra hn
      rw [hfalse mid (by omega) (by omega)] at hmid
      cases hmid
    apply ih
    · omega
    · exact hhi
    · intro i hi₁ hi₂
      exact htrue i (by omega) hi₂
    · exact hfalse
  | case2 lo hi hlt mid hmid ih =>
    have hcut : n ≤ mid := by
      by_contra hn
      exact hmid (htrue mid (by omega) (by omega))
    apply ih
    · exact hlo
    · exact hcut
    · exact htrue
    · intro i hi₁ hi₂
      exact hfalse i hi₁ (by omega)
  | case3 lo hi hge => omega

theorem partitionPoint_eq {row : Array α} {p : α → Bool} {A B : List α} (h : row.toList = A ++ B)
    (hA : ∀ a ∈ A, p a = true) (hB : ∀ b ∈ B, p b = false) : partitionPoint row p = A.length := by
  have hsize : row.size = A.length + B.length := by
    rw [← Array.length_toList, h, List.length_append]
  have hget : ∀ i : Nat, row[i]? = (A ++ B)[i]? := by
    intro i
    rw [← h, Array.getElem?_toList]
  apply bisect_eq 0 row.size (Nat.zero_le _) (by omega)
  · intro i _ hi
    rw [hget, List.getElem?_append_left hi, List.getElem?_eq_getElem hi]
    exact hA _ (List.getElem_mem hi)
  · intro i hi₁ hi₂
    have hi : i - A.length < B.length := by omega
    rw [hget, List.getElem?_append_right hi₁, List.getElem?_eq_getElem hi]
    exact hB _ (List.getElem_mem hi)

/-- The predicate turns false at most once along the list: items that satisfy it stand before all that do not. -/
abbrev TurnsOnce (p : α → Bool) (l : List α) : Prop :=
  l.Pairwise fun a b => p b = true → p a = true

/-- A list is cut where a predicate turns false for good. -/
theorem exists_cut {p : α → Bool} {l : List α} (h : TurnsOnce p l) :
    ∃ A B, l = A ++ B ∧ (∀ a ∈ A, p a = true) ∧ ∀ b ∈ B, p b = false := by
  induction l with
  | nil => exact ⟨[], [], rfl, by simp, by simp⟩
  | cons a l ih =>
    obtain ⟨ha, hl⟩ := List.pairwise_cons.1 h
    cases hp : p a with
    | true =>
      obtain ⟨A, B, rfl, hA, hB⟩ := ih hl
      refine ⟨a :: A, B, rfl, ?_, hB⟩
      intro x hx
      rcases List.mem_cons.1 hx with rfl | hx
      · exact hp
      · exact hA x hx
    | false =>
      refine ⟨[], a :: l, rfl, by simp, ?_⟩
      intro x hx
      rcases List.mem_cons.1 hx with rfl | hx
      · exact hp
      · cases hpx : p x with
        | false => rfl
        | true =>
          rw [ha x hx hpx] at hp
          cases hp

/-- Two predicates of which the first turns false before the second cut a row in three. -/
theorem partitionPoint_split {row : Array α} {p q : α → Bool}
    (hp : TurnsOnce p row.toList) (hq : TurnsOnce q row.toList)
    (hpq : ∀ a ∈ row.toList, p a = true → q a = true) :
    ∃ A M B, row.toList = A ++ M ++ B ∧ partitionPoint row p = A.length ∧
      partitionPoint row q = A.length + M.length ∧ (∀ a ∈ A, p a = true) ∧
      (∀ m ∈ M, p m = false ∧ q m = true) ∧ ∀ b ∈ B, q b = false := by
  obtain ⟨A, R, hrow, hA, hR⟩ := exists_cut hp
  have hqR : TurnsOnce q R := by
    rw [hrow] at hq
    exact (List.pairwise_append.1 hq).2.1
  obtain ⟨M, B, rfl, hM, hB⟩ := exists_cut hqR
  refine ⟨A, M, B, by rw [hrow, List.append_assoc], partitionPoint_eq hrow hA hR, ?_, hA, ?_, hB⟩
  · rw [← List.length_append]
    refine partitionPoint_eq (by rw [hrow, List.append_assoc]) ?_ hB
    intro a ha
    rcases List.mem_append.1 ha with ha | ha
    · exact hpq a (by rw [hrow]; exact List.mem_append_left _ ha) (hA a ha)
    · exact hM a ha
  · intro m hm
    exact ⟨hR m (List.mem_append_left _ hm), hM m hm⟩

/-- The ends of the middle part are found where the cuts say. -/
theorem exists_ends {row : Array α} {A M B : List α} (h : row.toList = A ++ M ++ B) (hM : M ≠ []) :
    ∃ first last, M.head? = some first ∧ M.getLast? = some last ∧ row[A.length]? = some first ∧
      row[A.length + M.length - 1]? = some last := by
  obtain ⟨first, hfirst⟩ := Option.isSome_iff_exists.1 (List.isSome_head?.2 hM)
  obtain ⟨last, hlast⟩ := Option.isSome_iff_exists.1 (List.getLast?_isSome.2 hM)
  have hlen : 0 < M.length := List.length_pos_of_ne_nil hM
  refine ⟨first, last, hfirst, hlast, ?_, ?_⟩
  · rw [← Array.getElem?_toList, h, List.append_assoc, List.getElem?_append_right (Nat.le_refl _),
      Nat.sub_self, List.getElem?_append_left hlen, ← List.head?_eq_getElem?, hfirst]
  · have hplace : A.length + M.length - 1 - A.length = M.length - 1 := by omega
    rw [← Array.getElem?_toList, h, List.append_assoc, List.getElem?_append_right (by omega), hplace,
      List.getElem?_append_left (by omega), ← List.getLast?_eq_getElem?, hlast]

/-- A change that replaces the middle part. -/
theorem Edit.apply_of_split {row : Array α} {A M B items : List α} (h : row.toList = A ++ M ++ B) :
    ((⟨A.length, A.length + M.length, items⟩ : Edit α).apply row).toList = A ++ items ++ B := by
  rw [Edit.toList_apply, h]
  congr 1
  · rw [List.append_assoc, List.take_left]
  · rw [← List.length_append, List.drop_left]

/-! ## Rows of intervals -/

section Spaced

variable {T : Type u} [LinearOrder T] {r : Cut T → Cut T → Prop} {key : α → Interval T}

/-- Items with non-empty intervals, such that the end of each and the beginning of every later one are
related by `r`. -/
structure Spaced (r : Cut T → Cut T → Prop) (key : α → Interval T) (l : List α) : Prop where
  nonempty : ∀ a ∈ l, (key a).lo < (key a).up
  sorted : l.Pairwise fun a b => r (key a).up (key b).lo

/-- Non-empty intervals, each of which ends before the next begins or where it begins. -/
abbrev Ascending (key : α → Interval T) : List α → Prop :=
  Spaced (· ≤ ·) key

theorem spaced_nil : Spaced r key [] :=
  ⟨by simp, List.Pairwise.nil⟩

theorem spaced_singleton {a : α} (h : (key a).lo < (key a).up) : Spaced r key [a] :=
  ⟨by simpa using h, List.pairwise_singleton _ _⟩

theorem spaced_append {A B : List α} :
    Spaced r key (A ++ B) ↔
      Spaced r key A ∧ Spaced r key B ∧ ∀ a ∈ A, ∀ b ∈ B, r (key a).up (key b).lo := by
  constructor
  · rintro ⟨hne, hsorted⟩
    obtain ⟨hA, hB, hAB⟩ := List.pairwise_append.1 hsorted
    exact ⟨⟨fun a ha => hne a (List.mem_append_left _ ha), hA⟩,
      ⟨fun b hb => hne b (List.mem_append_right _ hb), hB⟩, hAB⟩
  · rintro ⟨hA, hB, hAB⟩
    refine ⟨?_, List.pairwise_append.2 ⟨hA.sorted, hB.sorted, hAB⟩⟩
    intro a ha
    rcases List.mem_append.1 ha with ha | ha
    · exact hA.nonempty a ha
    · exact hB.nonempty a ha

theorem spaced_cons {a : α} {l : List α} :
    Spaced r key (a :: l) ↔
      (key a).lo < (key a).up ∧ (∀ b ∈ l, r (key a).up (key b).lo) ∧ Spaced r key l := by
  have h : Spaced r key ([a] ++ l) ↔ _ := spaced_append
  rw [List.singleton_append] at h
  rw [h]
  constructor
  · rintro ⟨ha, hl, hal⟩
    exact ⟨ha.nonempty a List.mem_cons_self, hal a List.mem_cons_self, hl⟩
  · rintro ⟨ha, hal, hl⟩
    exact ⟨spaced_singleton ha, hl, by simpa using hal⟩

/-- The middle of a row, and how it stands to what is around it. -/
theorem Spaced.middle {A M B : List α} (h : Spaced r key (A ++ M ++ B)) :
    Spaced r key M ∧ (∀ a ∈ A, ∀ m ∈ M, r (key a).up (key m).lo) ∧
      ∀ m ∈ M, ∀ b ∈ B, r (key m).up (key b).lo := by
  obtain ⟨hAM, -, hAMB⟩ := spaced_append.1 h
  obtain ⟨-, hM, hAM⟩ := spaced_append.1 hAM
  exact ⟨hM, hAM, fun m hm => hAMB m (List.mem_append_right _ hm)⟩

/-- The middle of a row may give way to items that fit in between. -/
theorem Spaced.replace {A M B N : List α} (h : Spaced r key (A ++ M ++ B)) (hN : Spaced r key N)
    (hAN : ∀ a ∈ A, ∀ n ∈ N, r (key a).up (key n).lo)
    (hNB : ∀ n ∈ N, ∀ b ∈ B, r (key n).up (key b).lo) : Spaced r key (A ++ N ++ B) := by
  obtain ⟨hAM, hB, hAMB⟩ := spaced_append.1 h
  obtain ⟨hA, -, -⟩ := spaced_append.1 hAM
  refine spaced_append.2 ⟨spaced_append.2 ⟨hA, hN, hAN⟩, hB, ?_⟩
  intro a ha b hb
  rcases List.mem_append.1 ha with ha | ha
  · exact hAMB a (List.mem_append_left _ ha) b hb
  · exact hNB a ha b hb

theorem Spaced.ascending {l : List α} (hr : ∀ {a b}, r a b → a ≤ b) (h : Spaced r key l) :
    Ascending key l :=
  ⟨h.nonempty, h.sorted.imp hr⟩

/-- In an ascending row both ends of the intervals ascend. -/
theorem Spaced.ends_lt {l : List α} (h : Ascending key l) :
    l.Pairwise fun a b => (key a).up < (key b).up ∧ (key a).lo < (key b).lo :=
  h.sorted.imp_of_mem fun ha hb hab =>
    ⟨lt_of_le_of_lt hab (h.nonempty _ hb), lt_of_lt_of_le (h.nonempty _ ha) hab⟩

theorem Spaced.head_le {l : List α} {a : α} (h : Ascending key l) (ha : l.head? = some a) :
    ∀ b ∈ l, (key a).lo ≤ (key b).lo := by
  cases l with
  | nil => cases ha
  | cons x l =>
    cases ha
    intro b hb
    have hends := List.pairwise_cons.1 h.ends_lt
    rcases List.mem_cons.1 hb with rfl | hb
    · exact le_refl _
    · exact (hends.1 b hb).2.le

theorem Spaced.le_getLast {l : List α} {a : α} (h : Ascending key l) (ha : l.getLast? = some a) :
    ∀ b ∈ l, (key b).up ≤ (key a).up := by
  obtain ⟨front, rfl⟩ := List.getLast?_eq_some_iff.1 ha
  intro b hb
  have hends := (List.pairwise_append.1 h.ends_lt).2.2
  rcases List.mem_append.1 hb with hb | hb
  · exact (hends b hb a (by simp)).1.le
  · rw [List.mem_singleton.1 hb]

/-- In an ascending row no two items hold the same cut. -/
theorem Spaced.eq_of_holds {l : List α} (h : Ascending key l) {a b : α} (ha : a ∈ l) (hb : b ∈ l) {c : Cut T}
    (hac : (key a).Holds c) (hbc : (key b).Holds c) : a = b := by
  have hapart : l.Pairwise fun a b => ¬((key a).Holds c ∧ (key b).Holds c) := by
    refine h.sorted.imp fun hab hboth => ?_
    exact absurd (lt_of_lt_of_le hboth.1.2 hab) (not_lt.2 hboth.2.1)
  refine List.Pairwise.forall_of_forall_of_flip (R := fun a b => (key a).Holds c → (key b).Holds c → a = b)
    (fun _ _ _ _ => rfl) ?_ ?_ ha hb hac hbc
  · exact hapart.imp fun hnot ha hb => absurd ⟨ha, hb⟩ hnot
  · exact hapart.imp fun hnot hb ha => absurd ⟨ha, hb⟩ hnot

/-- Along an ascending row a predicate on where the intervals end turns false at most once, if it holds of all
cuts before those of which it holds. -/
theorem Spaced.turnsOnce_up {l : List α} (h : Ascending key l) {p : α → Bool} {P : Cut T → Prop}
    (hp : ∀ e ∈ l, p e = true ↔ P (key e).up) (hP : ∀ {c d}, c ≤ d → P d → P c) : TurnsOnce p l :=
  h.ends_lt.imp_of_mem fun ha hb hab hpb => (hp _ ha).2 (hP hab.1.le ((hp _ hb).1 hpb))

/-- The same of a predicate on where the intervals begin. -/
theorem Spaced.turnsOnce_lo {l : List α} (h : Ascending key l) {q : α → Bool} {Q : Cut T → Prop}
    (hq : ∀ e ∈ l, q e = true ↔ Q (key e).lo) (hQ : ∀ {c d}, c ≤ d → Q d → Q c) : TurnsOnce q l :=
  h.ends_lt.imp_of_mem fun ha hb hab hqb => (hq _ ha).2 (hQ hab.2.le ((hq _ hb).1 hqb))

/-- A predicate on where the intervals end and a weaker one on where they begin cut an ascending row in
three. -/
theorem Spaced.split {row : Array α} (h : Ascending key row.toList) {p q : α → Bool} {P Q : Cut T → Prop}
    (hp : ∀ e ∈ row.toList, p e = true ↔ P (key e).up)
    (hq : ∀ e ∈ row.toList, q e = true ↔ Q (key e).lo)
    (hP : ∀ {c d}, c ≤ d → P d → P c) (hQ : ∀ {c d}, c ≤ d → Q d → Q c) (hPQ : ∀ {c}, P c → Q c) :
    ∃ A M B, row.toList = A ++ M ++ B ∧ partitionPoint row p = A.length ∧
      partitionPoint row q = A.length + M.length ∧ (∀ a ∈ A, P (key a).up) ∧
      (∀ m ∈ M, ¬P (key m).up ∧ Q (key m).lo) ∧ ∀ b ∈ B, ¬Q (key b).lo := by
  obtain ⟨A, M, B, hrow, hstart, hstop, hA, hM, hB⟩ := partitionPoint_split
    (h.turnsOnce_up hp hP) (h.turnsOnce_lo hq hQ)
    (fun a ha hpa => (hq a ha).2 (hPQ (hP (h.nonempty a ha).le ((hp a ha).1 hpa))))
  have hmem : ∀ {x}, x ∈ A ∨ x ∈ M ∨ x ∈ B → x ∈ row.toList := by
    intro x hx
    rw [hrow, List.mem_append, List.mem_append, or_assoc]
    exact hx
  refine ⟨A, M, B, hrow, hstart, hstop, ?_, ?_, ?_⟩
  · intro a ha
    exact (hp a (hmem (Or.inl ha))).1 (hA a ha)
  · intro m hm
    have hm' := hmem (Or.inr (Or.inl hm))
    rw [← hp m hm', ← hq m hm', (hM m hm).1]
    exact ⟨Bool.false_ne_true, (hM m hm).2⟩
  · intro b hb
    rw [← hq b (hmem (Or.inr (Or.inr hb))), hB b hb]
    exact Bool.false_ne_true

/-- **The three parts of a row around an interval**: what ends before it begins, what overlaps it, and what
begins after it ends. -/
theorem overlap_split {row : Array α} (h : Ascending key row.toList) {j : Interval T} (hj : j.lo < j.up) :
    ∃ A M B, row.toList = A ++ M ++ B ∧
      partitionPoint row (fun e => (key e).isBefore j) = A.length ∧
      partitionPoint row (fun e => !j.isBefore (key e)) = A.length + M.length ∧
      (∀ a ∈ A, (key a).up ≤ j.lo) ∧ (∀ m ∈ M, j.lo < (key m).up ∧ (key m).lo < j.up) ∧
      ∀ b ∈ B, j.up ≤ (key b).lo := by
  have hbefore : ∀ e ∈ row.toList, (key e).isBefore j = true ↔ (key e).up ≤ j.lo :=
    fun e he => Interval.isBefore_iff_le (h.nonempty e he) hj
  have hafter : ∀ e ∈ row.toList, (!j.isBefore (key e)) = true ↔ (key e).lo < j.up :=
    fun e he => Interval.not_isBefore_iff_lt hj (h.nonempty e he)
  obtain ⟨A, M, B, hrow, hstart, hstop, hA, hM, hB⟩ := h.split hbefore hafter
    le_trans lt_of_le_of_lt fun hle => lt_of_le_of_lt hle hj
  exact ⟨A, M, B, hrow, hstart, hstop, hA, fun m hm => ⟨not_le.1 (hM m hm).1, (hM m hm).2⟩,
    fun b hb => not_lt.1 (hB b hb)⟩

/-- Some item overlaps the interval if the middle one of the three parts is not empty. -/
theorem exists_overlaps_iff {A M B : List α} (h : Ascending key (A ++ M ++ B)) {j : Interval T} (hj : j.lo < j.up)
    (hA : ∀ a ∈ A, (key a).up ≤ j.lo) (hmeet : ∀ m ∈ M, j.lo < (key m).up ∧ (key m).lo < j.up)
    (hB : ∀ b ∈ B, j.up ≤ (key b).lo) : (∃ e ∈ A ++ M ++ B, (key e).overlaps j = true) ↔ M ≠ [] := by
  constructor
  · intro hover hnil
    obtain ⟨e, he, hej⟩ := hover
    obtain ⟨-, -, hbegin, hend⟩ := Interval.overlaps_iff.1 hej
    rw [hnil, List.append_nil, List.mem_append] at he
    rcases he with he | he
    · exact absurd (hA e he) (not_le.2 hend)
    · exact absurd (hB e he) (not_le.2 hbegin)
  · intro hne
    obtain ⟨e, he⟩ := List.exists_mem_of_ne_nil M hne
    have hmem : e ∈ A ++ M ++ B := List.mem_append_left _ (List.mem_append_right _ he)
    exact ⟨e, hmem, Interval.overlaps_iff.2 ⟨h.nonempty e hmem, hj, (hmeet e he).2, (hmeet e he).1⟩⟩

/-- What ends before a value stands before all that does not. -/
theorem Spaced.turnsOnce_endsBefore {l : List α} (h : Ascending key l) (v : T) :
    TurnsOnce (fun e => (key e).endsBefore v) l :=
  h.turnsOnce_up (P := (· ≤ .below v)) (fun _ _ => Interval.endsBefore_iff) le_trans

/-- **Looking for a value** by bisection finds what a search from the front finds. -/
theorem find?_eq_lookup {row : Array α} (h : Ascending key row.toList) (v : T) :
    row.toList.find? (fun e => (key e).contains v) =
      row[partitionPoint row fun e => (key e).endsBefore v]?.filter fun e => (key e).contains v := by
  obtain ⟨A, B, hrow, hA, hB⟩ := exists_cut (h.turnsOnce_endsBefore v)
  rw [partitionPoint_eq hrow hA hB, ← Array.getElem?_toList, hrow, List.find?_append]
  have hnoneA : A.find? (fun e => (key e).contains v) = none := by
    rw [List.find?_eq_none]
    intro a ha hc
    have hend := Interval.endsBefore_iff.1 (hA a ha)
    exact absurd (Interval.contains_iff.1 hc).2 (not_lt.2 hend)
  rw [hnoneA, Option.none_or, List.getElem?_append_right (Nat.le_refl _), Nat.sub_self]
  cases B with
  | nil => rfl
  | cons e rest =>
    rw [hrow] at h
    obtain ⟨-, hcons, -⟩ := spaced_append.1 h
    obtain ⟨-, hrest, -⟩ := spaced_cons.1 hcons
    have hup : Cut.below v < (key e).up := by
      rw [← not_le, ← Interval.endsBefore_iff, hB e List.mem_cons_self]
      exact Bool.false_ne_true
    rw [List.find?_cons, List.getElem?_cons_zero]
    cases hc : (key e).contains v with
    | true => simp [Option.filter, hc]
    | false =>
      -- nothing after `e` reaches back to `v`
      have hnone : rest.find? (fun e => (key e).contains v) = none := by
        rw [List.find?_eq_none]
        intro b hb hcb
        have hlo := (Interval.contains_iff.1 hcb).1
        exact absurd (le_trans (hrest b hb) hlo) (not_le.2 hup)
      simp [Option.filter, hc, hnone]

end Spaced

end CodeAtlas.Row
