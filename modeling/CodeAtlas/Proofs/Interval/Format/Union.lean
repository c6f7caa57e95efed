import CodeAtlas.Proofs.Interval.Format.RoundTrip
import CodeAtlas.Proofs.Interval.Set.Canonical

/-!
# Reading back unions of intervals

The text of a set is cut at every `U` between a closing and an opening bracket, blanks aside.  The letter may
also stand in the word for infinity, but there no closing bracket comes before it in the same part; and where
two intervals are joined, the brackets around the letter are theirs.  So the parts are the texts that were
joined.

* `IntervalFormat.splitUnion_append` — a stretch of text in which nothing is cut;
* `IntervalFormat.splitUnion_joint` — the text up to the first joint is the first part;
* `IntervalFormat.joined` — intervals joined by `U` with any blanks around it, and `readParts_joined`: these
  are the parts that are read;
* `IntervalFormat.unions_are_read_back` — sets of whole numbers are read from such texts, and every set is read
  back from its own.
-/

namespace CodeAtlas

universe u

namespace IntervalFormat

/-! ## Cutting -/

theorem closing?_eq_none_iff {c : Char} : closing? (some c) = none ↔ c ≠ ']' ∧ c ≠ ')' := by
  unfold closing?
  split <;> simp_all

theorem eq_of_closing {c : Char} (h : (closing? (some c)).isSome = true) : c = ']' ∨ c = ')' := by
  by_contra hnot
  rw [closing?_eq_none_iff.2 (not_or.1 hnot)] at h
  cases h

theorem closing?_of_isBlank {c : Char} (h : Text.isBlank c = true) : closing? (some c) = none := by
  rw [closing?_eq_none_iff]
  constructor <;> (rintro rfl; cases h)

/-- Between brackets stands no closing one. -/
inductive Enclosed : List Char → Prop
  | intro {o c : Char} {m : List Char} : (opening? (some o)).isSome = true →
      (closing? (some c)).isSome = true → (∀ d ∈ m, closing? (some d) = none) → Enclosed (o :: (m ++ [c]))

/-- Where no closing bracket has come yet, none is at the end. -/
theorem closing?_trimStart {s : List Char} (h : ∀ c ∈ s, closing? (some c) = none) :
    closing? (Text.trimStart s).head? = none := by
  cases hhead : (Text.trimStart s).head? with
  | none => rfl
  | some c => exact h c (List.dropWhile_sublist _ |>.subset (List.mem_of_mem_head? hhead))

/-- Nothing is cut in a stretch without the letter, nor in one up to whose end no closing bracket comes. -/
theorem splitUnion_append {s : List Char} (rest : List Char) :
    ∀ {before : List Char}, 'U' ∉ s ∨ (∀ c ∈ s ++ before, closing? (some c) = none) →
      splitUnion before (s ++ rest) = splitUnion (s.reverse ++ before) rest := by
  induction s with
  | nil => exact fun _ => rfl
  | cons c s ih =>
    intro before h
    have hstay : ¬(c = 'U' ∧ (closing? (Text.trimStart before).head?).isSome ∧
        (opening? (Text.trimStart (s ++ rest)).head?).isSome) := by
      rintro ⟨rfl, hclosed, -⟩
      rcases h with h | h
      · exact h List.mem_cons_self
      · rw [closing?_trimStart fun c hc => h c (List.mem_append_right _ hc)] at hclosed
        cases hclosed
    have hnext : 'U' ∉ s ∨ ∀ d ∈ s ++ c :: before, closing? (some d) = none := by
      rcases h with h | h
      · exact Or.inl fun hmem => h (List.mem_cons_of_mem _ hmem)
      · refine Or.inr fun d hd => h d ?_
        simp only [List.mem_append, List.mem_cons] at hd ⊢
        tauto
    rw [List.cons_append, splitUnion, if_neg hstay, ih hnext, List.reverse_cons, List.append_assoc]
    rfl

/-- An enclosed text with blanks around it is gone through without a cut. -/
theorem splitUnion_enclosed {w : List Char} (hw : Enclosed w) (l r : Text.Blanks) (rest : List Char) :
    splitUnion [] (l.chars ++ w ++ r.chars ++ rest) =
      splitUnion (l.chars ++ w ++ r.chars).reverse rest := by
  cases hw with
  | @intro o c m ho hc hm =>
    have hopen : ∀ d ∈ (l.chars ++ o :: m) ++ [], closing? (some d) = none := by
      intro d hd
      rw [List.append_nil] at hd
      rcases List.mem_append.1 hd with hd | hd
      · exact closing?_of_isBlank (l.all_blank d hd)
      · rcases List.mem_cons.1 hd with rfl | hd
        · rw [closing?_eq_none_iff]
          constructor <;> (rintro rfl; cases ho)
        · exact hm d hd
    have hletter : 'U' ∉ c :: r.chars := by
      intro hmem
      rcases List.mem_cons.1 hmem with rfl | hmem
      · cases hc
      · cases r.all_blank 'U' hmem
    -- up to the closing bracket none has come, and after it the letter does not come
    have hparts : l.chars ++ o :: (m ++ [c]) ++ r.chars = (l.chars ++ o :: m) ++ (c :: r.chars) := by
      simp
    rw [hparts, List.append_assoc, splitUnion_append _ (Or.inr hopen), List.append_nil,
      splitUnion_append _ (Or.inl hletter), ← List.reverse_append]

/-- Blanks aside, an enclosed text ends with a closing bracket. -/
theorem closing?_enclosed {w : List Char} (hw : Enclosed w) (l r : Text.Blanks) :
    (closing? (Text.trimStart (l.chars ++ w ++ r.chars).reverse).head?).isSome = true := by
  cases hw with
  | @intro o c m ho hc hm =>
    have hblank : Text.isBlank c = false := by
      rcases eq_of_closing hc with rfl | rfl <;> rfl
    have hback : (l.chars ++ o :: (m ++ [c]) ++ r.chars).reverse =
        r.reverse.chars ++ c :: (m.reverse ++ o :: l.chars.reverse) := by
      simp [Text.Blanks.reverse]
    rw [hback, Text.trimStart_blanks, Text.trimStart_cons hblank]
    exact hc

/-- **The text up to a joint is a part.** -/
theorem splitUnion_joint {w : List Char} (hw : Enclosed w) (l r : Text.Blanks) {rest : List Char}
    (hrest : (opening? (Text.trimStart rest).head?).isSome = true) :
    splitUnion [] (l.chars ++ w ++ r.chars ++ 'U' :: rest) =
      (l.chars ++ w ++ r.chars) :: splitUnion [] rest := by
  rw [splitUnion_enclosed hw, splitUnion, if_pos ⟨rfl, closing?_enclosed hw l r, hrest⟩,
    List.reverse_reverse]

theorem splitUnion_last {w : List Char} (hw : Enclosed w) (l r : Text.Blanks) :
    splitUnion [] (l.chars ++ w ++ r.chars) = [l.chars ++ w ++ r.chars] := by
  have hall := splitUnion_enclosed hw l r []
  rwa [List.append_nil, splitUnion, List.reverse_reverse] at hall

/-! ## Joined intervals -/

/-- The letter between two intervals, with blanks around it. -/
structure Joint where
  before : Text.Blanks
  after : Text.Blanks

/-- The text of a joint. -/
def Joint.text (g : Joint) : List Char :=
  g.before.chars ++ 'U' :: g.after.chars

variable {T : Type u} [TextValue T]

/-- The texts of an interval and of those that follow it, each after its joint. -/
def joined (f : IntervalFormat) (i : Interval T) : List (Joint × Interval T) → List Char
  | [] => f.write i
  | (g, j) :: rest => f.write i ++ g.text ++ f.joined j rest

theorem head?_joined (f : IntervalFormat) (i : Interval T) (rest : List (Joint × Interval T)) :
    (f.joined i rest).head? = some (opener i.lower) := by
  cases rest with
  | nil => rw [joined, write_eq, List.head?_cons]
  | cons e rest =>
    obtain ⟨g, j⟩ := e
    rw [joined, write_eq, List.append_assoc, List.cons_append, List.head?_cons]

theorem getLast?_joined (f : IntervalFormat) (rest : List (Joint × Interval T)) :
    ∀ i : Interval T, ∃ b : Bound T, (f.joined i rest).getLast? = some (closer b) := by
  induction rest with
  | nil =>
    intro i
    refine ⟨i.upper, ?_⟩
    rw [joined, write_eq, ← List.cons_append, List.getLast?_concat]
  | cons e rest ih =>
    intro i
    obtain ⟨g, j⟩ := e
    obtain ⟨b, hb⟩ := ih j
    refine ⟨b, ?_⟩
    rw [joined, List.getLast?_append, hb]
    rfl

theorem bare_joined (f : IntervalFormat) (i : Interval T) (rest : List (Joint × Interval T)) :
    Text.Bare (f.joined i rest) where
  head c hc := by
    rw [head?_joined] at hc
    cases hc
    exact isBlank_opener i.lower
  last c hc := by
    obtain ⟨b, hb⟩ := f.getLast?_joined rest i
    rw [hb] at hc
    cases hc
    exact isBlank_closer b

/-- Blanks aside, joined intervals begin with an opening bracket. -/
theorem opening?_joined (f : IntervalFormat) (l : Text.Blanks) (i : Interval T)
    (rest : List (Joint × Interval T)) :
    (opening? (Text.trimStart (l.chars ++ f.joined i rest)).head?).isSome = true := by
  rw [Text.trimStart_blanks, Text.trimStart_bare (f.bare_joined i rest), head?_joined, opening?_opener]
  rfl

/-- An interval whose text is enclosed is read back from it. -/
structure Separable (f : IntervalFormat) (i : Interval T) : Prop extends f.Readable i where
  enclosed : Enclosed (f.write i)

/-- **The parts of joined intervals are the texts that were joined**, and are read back. -/
theorem readParts_joined {f : IntervalFormat} (hf : f.Tidy) (rest : List (Joint × Interval T)) :
    ∀ {i : Interval T} (l : Text.Blanks), (∀ j ∈ i :: rest.map Prod.snd, f.Separable j) →
      f.readParts (splitUnion [] (l.chars ++ f.joined i rest)) = (i :: rest.map Prod.snd, none) := by
  induction rest with
  | nil =>
    intro i l h
    have hi := h i List.mem_cons_self
    have hcut := splitUnion_last hi.enclosed l .none
    have hread := read_padded hf hi.toReadable l .none
    rw [Text.Blanks.none, List.append_nil] at hcut hread
    rw [joined, hcut, readParts, hread]
    rfl
  | cons e rest ih =>
    intro i l h
    obtain ⟨g, j⟩ := e
    have hi := h i List.mem_cons_self
    have hrest := ih g.after fun j' hj' => h j' (List.mem_cons_of_mem _ hj')
    have htext : l.chars ++ f.joined i ((g, j) :: rest) =
        l.chars ++ f.write i ++ g.before.chars ++ 'U' :: (g.after.chars ++ f.joined j rest) := by
      simp [joined, Joint.text]
    rw [htext, splitUnion_joint hi.enclosed l g.before (f.opening?_joined g.after j rest), readParts,
      read_padded hf hi.toReadable l g.before, hrest]
    rfl

/-- A set is read from joined intervals, whatever blanks stand around them. -/
theorem readSet_joined [Ord T] {f : IntervalFormat} (hf : f.Tidy) {i : Interval T}
    {rest : List (Joint × Interval T)} (h : ∀ j ∈ i :: rest.map Prod.snd, f.Separable j)
    (l r : Text.Blanks) :
    f.readSet (l.chars ++ f.joined i rest ++ r.chars) = .ok (.ofList (i :: rest.map Prod.snd)) := by
  have hparts : setParts (l.chars ++ f.joined i rest ++ r.chars) = splitUnion [] (f.joined i rest) := by
    have hhead := f.head?_joined i rest
    rw [setParts, Text.trim_padded (f.bare_joined i rest), if_neg]
    rw [Bool.or_eq_true, not_or]
    constructor
    · intro hnil
      rw [List.isEmpty_iff.1 hnil] at hhead
      cases hhead
    · intro hbraces
      rw [beq_iff_eq.1 hbraces] at hhead
      cases hb : i.lower <;> (rw [hb] at hhead; cases hhead)
  have hread := readParts_joined hf rest .none h
  rw [Text.Blanks.none, List.nil_append] at hread
  rw [readSet, hparts, hread]

/-! ## Sets in their own text -/

/-- The joint that is used in writing. -/
def Joint.spaced : Joint :=
  ⟨.spaces 1, .spaces 1⟩

/-- The text of a set that is not empty joins the texts of its intervals. -/
theorem join_write (f : IntervalFormat) (is : List (Interval T)) :
    ∀ i, join ((i :: is).map f.write) = f.joined i (is.map fun j => (Joint.spaced, j)) := by
  induction is with
  | nil => exact fun i => List.append_nil _
  | cons j is ih =>
    intro i
    have hrest : unionSign.toList.intercalate ((j :: is).map f.write) = _ := ih j
    show unionSign.toList.intercalate (f.write i :: f.write j :: is.map f.write) = _
    rw [List.intercalate_cons_cons, ← List.map_cons, hrest]
    rfl

/-- What is read from the text of a set: the union of its stored intervals. -/
theorem readSet_writeSet [Ord T] {f : IntervalFormat} (hf : f.Tidy) {s : IntervalSet T}
    (h : ∀ i ∈ s.toList, f.Separable i) : f.readSet (f.writeSet s) = .ok (.ofList s.toList) := by
  unfold writeSet
  cases hs : s.toList with
  | nil =>
    have hbraces : setParts emptySet.toList = [] := by decide
    show f.readSet emptySet.toList = _
    rw [readSet, hbraces]
    rfl
  | cons i is =>
    have hsnd : (is.map fun j => (Joint.spaced, j)).map Prod.snd = is := by simp
    have hall : ∀ j ∈ i :: (is.map fun j => (Joint.spaced, j)).map Prod.snd, f.Separable j := by
      rw [hsnd, ← hs]
      exact h
    have hread := readSet_joined hf hall .none .none
    rw [Text.Blanks.none, List.nil_append, List.append_nil, hsnd] at hread
    rw [join_write, hread]

end IntervalFormat

/-- A separated row is collected again from its intervals. -/
theorem IntervalSet.ofList_toList {T : Type u} [LinearOrder T] {s : IntervalSet T}
    (h : Separated s.toList) : ofList s.toList = s :=
  ext_covered (separated_applyAll separated_empty _) h (covered_ofList s.toList)

namespace IntervalFormat

/-! ## Whole numbers -/

/-- The word for infinity has no semicolon, no brackets and no blanks around it, and is not a number. -/
structure Plain (f : IntervalFormat) : Prop extends f.Tidy where
  no_bracket : ∀ c ∈ f.infinity, c ∉ ['[', ']', '(', ')']
  not_numeric : NotNumeric f.infinity

variable {k : IntegerKind}

/-- No closing bracket stands in the text of a bound. -/
theorem Plain.closing?_endText {f : IntervalFormat} (hf : f.Plain) {sign : Char}
    (hs : closing? (some sign) = none) {b : Bound (Numeral k)} {c : Char} (hc : c ∈ f.endText sign b) :
    closing? (some c) = none := by
  have hwrite : ∀ {a : Numeral k}, c ∈ a.write → closing? (some c) = none := by
    intro a ha
    rw [closing?_eq_none_iff]
    constructor <;> (rintro rfl; rcases Numeral.of_mem_write ha with h | h <;> cases h)
  cases b with
  | unbounded =>
    rcases List.mem_cons.1 hc with rfl | hc
    · exact hs
    · have hnot := hf.no_bracket c hc
      rw [closing?_eq_none_iff]
      constructor <;> (rintro rfl; exact hnot (by decide))
  | inclusive x => exact hwrite hc
  | exclusive x => exact hwrite hc

theorem Plain.separable {f : IntervalFormat} (hf : f.Plain) (i : Interval (Numeral k)) : f.Separable i where
  toReadable := readable_numeral hf.not_numeric i
  enclosed := by
    rw [write_eq]
    refine .intro (by rw [opening?_opener]; rfl) (by rw [closing?_closer]; rfl) ?_
    intro c hc
    rcases List.mem_append.1 hc with hc | hc
    · exact hf.closing?_endText rfl hc
    · rcases List.mem_cons.1 hc with rfl | hc
      · rfl
      · exact hf.closing?_endText rfl hc

/-- **Unions of intervals are read back.**  Intervals of whole numbers, in any order and however they meet, are
written one by one and joined by `U` with any blanks around it and around the whole: the text is read as the
union of these intervals.  And every set, however it came about, is read back from its own text. -/
theorem unions_are_read_back {f : IntervalFormat} (hf : f.Plain) (k : IntegerKind) :
    (∀ (i : Interval (Numeral k)) (rest : List (Joint × Interval (Numeral k))) (l r : Text.Blanks),
      f.readSet (l.chars ++ f.joined i rest ++ r.chars) = .ok (.ofList (i :: rest.map Prod.snd))) ∧
    ∀ e : IntervalSet.History (Numeral k), f.readSet (f.writeSet e.result) = .ok e.result := by
  constructor
  · intro i rest l r
    exact readSet_joined hf.toTidy (fun j _ => hf.separable j) l r
  · intro e
    have hread := readSet_writeSet hf.toTidy fun i (_ : i ∈ e.result.toList) => hf.separable i
    rwa [IntervalSet.ofList_toList e.separated_result] at hread

/-- A format whose word for infinity holds the letter that joins intervals, between blanks. -/
def unionWord : IntervalFormat :=
  ⟨['U', ' ', 'U', ' ', 'U']⟩

theorem plain_unionWord : unionWord.Plain where
  no_separator := by decide
  bare := Text.bare_between rfl rfl [' ', 'U', ' ']
  no_bracket c hc := by
    have hletters : c = 'U' ∨ c = ' ' := by
      simp only [unionWord, List.mem_cons, List.not_mem_nil] at hc
      tauto
    rcases hletters with rfl | rfl <;> decide
  not_numeric := by
    unfold NotNumeric
    decide

/-- The law at work: the letter is met seven times, and joins two intervals once. -/
theorem unions_are_read_back_unionWord :
    let a : Numeral ⟨.signed, 32⟩ := ⟨-3, by decide, by decide⟩
    let upTo : Interval (Numeral ⟨.signed, 32⟩) := ⟨.unbounded, .inclusive a⟩
    let onFrom : Interval (Numeral ⟨.signed, 32⟩) := ⟨.inclusive a, .unbounded⟩
    unionWord.Plain ∧
      unionWord.readSet " (-U U U;-3]U  [-3;+U U U)".toList = .ok (.ofList [upTo, onFrom]) ∧
      unionWord.readSet (unionWord.writeSet (IntervalSet.ofList [upTo]).compl) =
        .ok (IntervalSet.ofList [upTo]).compl := by
  intro a upTo onFrom
  let joint : Joint := ⟨.none, .spaces 2⟩
  have htext : " (-U U U;-3]U  [-3;+U U U)".toList =
      (Text.Blanks.spaces 1).chars ++ unionWord.joined upTo [(joint, onFrom)] ++ Text.Blanks.none.chars := by
    decide +kernel
  obtain ⟨hjoined, hwritten⟩ := unions_are_read_back plain_unionWord ⟨.signed, 32⟩
  refine ⟨plain_unionWord, ?_, ?_⟩
  · rw [htext]
    exact hjoined upTo [(joint, onFrom)] (.spaces 1) .none
  · exact hwritten (.compl (.ofList [upTo]))

end IntervalFormat

end CodeAtlas
