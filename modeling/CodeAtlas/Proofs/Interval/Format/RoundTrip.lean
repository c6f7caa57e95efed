import CodeAtlas.Interval.Format.Reader
import CodeAtlas.Interval.Format.Writer
import CodeAtlas.Proofs.Text.Numeral
import CodeAtlas.Proofs.Text.Trim

/-!
# Reading back what was written

An interval is written as two texts of bounds between brackets, with a semicolon after the first.  It is read
back if the semicolon can be told from the text before it, if the text of no value is trimmed or taken for
infinity, and if values themselves are read back.

* `IntervalFormat.Tidy` — what the word for infinity must be like;
* `IntervalFormat.Legible`, `IntervalFormat.Readable` — what the values at the ends must be like;
* `IntervalFormat.readBound_endText` — a bound is read back;
* `IntervalFormat.read_padded` — an interval is read back, whatever blanks stand around it;
* `IntervalFormat.legible_numeral` — whole numbers are legible unless the word for infinity is a number;
* `IntervalFormat.intervals_are_read_back` — what is read back, and what is read again from another text.
-/

namespace CodeAtlas

universe u

namespace IntervalFormat

/-! ## The shape of the text -/

section Shape

variable {T : Type u}

/-- The bracket in front of a lower bound. -/
def opener : Bound T → Char
  | .inclusive _ => '['
  | _ => '('

/-- The bracket behind an upper bound. -/
def closer : Bound T → Char
  | .inclusive _ => ']'
  | _ => ')'

theorem opening?_opener (b : Bound T) : opening? (some (opener b)) = some b.isInclusive := by
  cases b <;> rfl

theorem closing?_closer (b : Bound T) : closing? (some (closer b)) = some b.isInclusive := by
  cases b <;> rfl

theorem isBlank_opener (b : Bound T) : Text.isBlank (opener b) = false := by
  cases b <;> rfl

theorem isBlank_closer (b : Bound T) : Text.isBlank (closer b) = false := by
  cases b <;> rfl

variable [TextValue T]

/-- The text of a bound without its bracket, given the sign for infinity on its side. -/
def endText (f : IntervalFormat) (sign : Char) : Bound T → List Char
  | .unbounded => sign :: f.infinity
  | .inclusive x => TextValue.write x
  | .exclusive x => TextValue.write x

/-- An interval is written as the texts of its bounds between brackets. -/
theorem write_eq (f : IntervalFormat) (i : Interval T) :
    f.write i =
      opener i.lower :: (f.endText '-' i.lower ++ ';' :: f.endText '+' i.upper ++ [closer i.upper]) := by
  obtain ⟨lower, upper⟩ := i
  cases lower <;> cases upper <;> simp [write, writeLower, writeUpper, opener, closer, endText]

/-- The text of an interval begins and ends with a bracket. -/
theorem bare_write (f : IntervalFormat) (i : Interval T) : Text.Bare (f.write i) := by
  rw [write_eq]
  exact Text.bare_between (isBlank_opener i.lower) (isBlank_closer i.upper) _

end Shape

/-- The text is cut at its first semicolon. -/
theorem splitBounds_append {lower : List Char} (h : ';' ∉ lower) (upper : List Char) :
    splitBounds (lower ++ ';' :: upper) = some (lower, upper) := by
  have hall : ∀ c ∈ lower, (c != ';') = true := by
    intro c hc
    rw [bne_iff_ne]
    rintro rfl
    exact h hc
  rw [splitBounds, List.dropWhile_append_of_pos hall, List.takeWhile_append_of_pos hall]
  simp

/-! ## Bounds -/

/-- The word for infinity has no semicolon in it and no blanks around it. -/
structure Tidy (f : IntervalFormat) : Prop where
  no_separator : ';' ∉ f.infinity
  bare : Text.Bare f.infinity

section Values

variable {T : Type u} [TextValue T]

/-- A value is read back from its text, which has no blanks around it and does not spell infinity. -/
structure Legible (f : IntervalFormat) (x : T) : Prop where
  read : TextValue.read? (TextValue.write x) = some x
  bare : Text.Bare (TextValue.write x)
  finite : f.isInfinity (TextValue.write x) = false

/-- The values at the ends are legible, and the text of the lower one has no semicolon in it. -/
structure Readable (f : IntervalFormat) (i : Interval T) : Prop where
  lower : ∀ x ∈ i.lower.value?, f.Legible x
  upper : ∀ x ∈ i.upper.value?, f.Legible x
  no_separator : ∀ x ∈ i.lower.value?, ';' ∉ TextValue.write x

/-- The word for infinity is recognised behind either sign. -/
theorem isInfinity_signed {f : IntervalFormat} (hf : Text.Bare f.infinity) {sign : Char}
    (hs : sign = '-' ∨ sign = '+') : f.isInfinity (sign :: f.infinity) = true := by
  have hblank : Text.isBlank sign = false := by
    rcases hs with rfl | rfl <;> rfl
  have hdrop : dropSign (sign :: f.infinity) = f.infinity := by
    rcases hs with rfl | rfl <;> rfl
  have hsame : Text.sameFolded f.infinity f.infinity = true := BEq.rfl
  rw [isInfinity, Text.trim_bare (hf.cons hblank), hdrop, Text.trimStart_bare hf, hsame]
  rfl

/-- **A bound is read back from its text.** -/
theorem readBound_endText {f : IntervalFormat} (hf : f.Tidy) {sign : Char} (hs : sign = '-' ∨ sign = '+')
    {b : Bound T} (hb : ∀ x ∈ b.value?, f.Legible x) :
    f.readBound (f.endText sign b) b.isInclusive = .ok b := by
  cases b with
  | unbounded => rw [endText, readBound, isInfinity_signed hf.bare hs, if_pos rfl]
  | inclusive x =>
    have hx := hb x rfl
    rw [endText, readBound, hx.finite, Text.trim_bare hx.bare, hx.read]
    rfl
  | exclusive x =>
    have hx := hb x rfl
    rw [endText, readBound, hx.finite, Text.trim_bare hx.bare, hx.read]
    rfl

/-! ## Intervals -/

/-- The text of the lower bound ends before the first semicolon. -/
theorem no_separator_endText {f : IntervalFormat} (hf : f.Tidy) {i : Interval T} (hi : f.Readable i) :
    ';' ∉ f.endText '-' i.lower := by
  have hvalue := hi.no_separator
  cases hb : i.lower with
  | unbounded =>
    intro hmem
    rcases List.mem_cons.1 hmem with hmem | hmem
    · cases hmem
    · exact hf.no_separator hmem
  | inclusive x =>
    rw [hb] at hvalue
    exact hvalue x rfl
  | exclusive x =>
    rw [hb] at hvalue
    exact hvalue x rfl

theorem readTrimmed_write {f : IntervalFormat} (hf : f.Tidy) {i : Interval T} (hi : f.Readable i) :
    f.readTrimmed (f.write i) = .ok i := by
  have hlower := readBound_endText hf (Or.inl rfl) hi.lower
  have hupper := readBound_endText hf (Or.inr rfl) hi.upper
  have hsplit := splitBounds_append (no_separator_endText hf hi) (f.endText '+' i.upper)
  rw [write_eq]
  unfold readTrimmed
  rw [List.head?_cons, opening?_opener, ← List.cons_append, List.getLast?_concat, closing?_closer,
    List.cons_append, List.tail_cons, List.dropLast_concat, hsplit]
  simp only [hlower, hupper]
  rfl

/-- **An interval is read back from its text**, whatever blanks stand around it. -/
theorem read_padded {f : IntervalFormat} (hf : f.Tidy) {i : Interval T} (hi : f.Readable i)
    (l r : Text.Blanks) : f.read (l.chars ++ f.write i ++ r.chars) = .ok i := by
  rw [read, Text.trim_padded (f.bare_write i), readTrimmed_write hf hi]

end Values

/-! ## Whole numbers -/

section Numbers

variable {k : IntegerKind}

theorem isBlank_of_mem_write {a : Numeral k} {c : Char} (h : c ∈ a.write) : Text.isBlank c = false := by
  rcases Numeral.of_mem_write h with rfl | h
  · rfl
  · exact Text.isBlank_of_isDigit h

theorem dropSign_of_head {s : List Char} (hplus : s.head? ≠ some '+') (hminus : s.head? ≠ some '-') :
    dropSign s = s := by
  unfold dropSign
  split
  · exact absurd rfl hplus
  · exact absurd rfl hminus
  · rfl

/-- Digits have no sign in front. -/
theorem dropSign_digits {s : List Char} (hs : ∀ c ∈ s, c.isDigit = true) : dropSign s = s := by
  apply dropSign_of_head
  · intro hhead
    cases hs '+' (List.mem_of_mem_head? hhead)
  · intro hhead
    cases hs '-' (List.mem_of_mem_head? hhead)

/-- Without its sign, the text of a number is its digits. -/
theorem dropSign_write (a : Numeral k) : dropSign a.write = Nat.toDigits 10 a.val.natAbs := by
  rcases a.write_eq with hw | hw
  · rw [hw]
    exact dropSign_digits fun _ => Numeral.isDigit_of_mem_toDigits
  · rw [hw]
    rfl

/-- A text that is not made of digits, of one at least. -/
def NotNumeric (s : List Char) : Prop :=
  ¬(s ≠ [] ∧ s.all Char.isDigit = true)

theorem notNumeric_of_mem_spellings : ∀ s ∈ spellings, NotNumeric s.toList := by
  unfold NotNumeric
  decide

/-- Digits do not agree with a text that is not a number. -/
theorem sameFolded_toDigits {s : List Char} (h : NotNumeric s) (n : Nat) :
    Text.sameFolded (Nat.toDigits 10 n) s = false := by
  rw [Bool.eq_false_iff]
  intro hsame
  obtain ⟨hne, hall⟩ :=
    Text.sameFolded_digits Nat.toDigits_ne_nil (fun _ => Numeral.isDigit_of_mem_toDigits) hsame
  exact h ⟨hne, List.all_eq_true.2 hall⟩

/-- No spelling of infinity is a number, so no number spells infinity. -/
theorem isInfinity_write {f : IntervalFormat} (hf : NotNumeric f.infinity) (a : Numeral k) :
    f.isInfinity a.write = false := by
  have hbare : Text.Bare a.write := Text.bare_of_forall fun _ => isBlank_of_mem_write
  have hdigits : Text.Bare (Nat.toDigits 10 a.val.natAbs) :=
    Text.bare_of_forall fun _ h => Text.isBlank_of_isDigit (Numeral.isDigit_of_mem_toDigits h)
  have hspellings : (spellings.any fun s =>
      Text.sameFolded (Nat.toDigits 10 a.val.natAbs) s.toList) = false := by
    rw [List.any_eq_false]
    intro s hs
    rw [sameFolded_toDigits (notNumeric_of_mem_spellings s hs)]
    exact Bool.false_ne_true
  rw [isInfinity, Text.trim_bare hbare, dropSign_write, Text.trimStart_bare hdigits,
    sameFolded_toDigits hf, hspellings]
  rfl

/-- **Whole numbers are legible** unless the word for infinity is a number. -/
theorem legible_numeral {f : IntervalFormat} (hf : NotNumeric f.infinity) (a : Numeral k) :
    f.Legible a where
  read := a.read?_write
  bare := Text.bare_of_forall fun _ => isBlank_of_mem_write
  finite := isInfinity_write hf a

theorem readable_numeral {f : IntervalFormat} (hf : NotNumeric f.infinity) (i : Interval (Numeral k)) :
    f.Readable i where
  lower x _ := legible_numeral hf x
  upper x _ := legible_numeral hf x
  no_separator x _ hmem := by
    rcases Numeral.of_mem_write hmem with h | h <;> cases h

end Numbers

/-! ## Intervals of any type -/

theorem read_write {T : Type u} [TextValue T] {f : IntervalFormat} (hf : f.Tidy) {i : Interval T}
    (hi : f.Readable i) : f.read (f.write i) = .ok i := by
  have hread := read_padded hf hi .none .none
  rwa [Text.Blanks.none, List.nil_append, List.append_nil] at hread

/-- **Intervals are read back.**  Let the word for infinity have no semicolon in it and no blanks around it.  An
interval, empty or not, is read back from its text with the same bounds if its values are read back from theirs, if
the text of none has blanks around it or spells infinity, and if that of the lower end has no semicolon in it.  If the
word for infinity is not a number, then all intervals of whole numbers are read back; and what is read from any other
text is read again from its own. -/
theorem intervals_are_read_back {f : IntervalFormat} (hf : f.Tidy) :
    (∀ (T : Type u) [TextValue T] (i : Interval T), f.Readable i → f.read (f.write i) = .ok i) ∧
    (NotNumeric f.infinity → ∀ (k : IntegerKind),
      (∀ i : Interval (Numeral k), f.read (f.write i) = .ok i) ∧
      ∀ (text : List Char) (i : Interval (Numeral k)), f.read text = .ok i → f.read (f.write i) = .ok i) := by
  refine ⟨fun T _ i hi => read_write hf hi, ?_⟩
  intro hword k
  have hall : ∀ i : Interval (Numeral k), f.read (f.write i) = .ok i :=
    fun i => read_write hf (readable_numeral hword i)
  exact ⟨hall, fun _ i _ => hall i⟩

/-- A format whose word for infinity is the text of a negative number, and so not a number as it counts here. -/
def minusFive : IntervalFormat :=
  ⟨['-', '5']⟩

theorem tidy_minusFive : minusFive.Tidy where
  no_separator := by decide
  bare := Text.bare_between rfl rfl []

theorem readable_brackets : minusFive.Readable (⟨.inclusive "a]", .exclusive "(b;c"⟩ : Interval String) where
  lower x hx := by
    cases hx
    exact ⟨rfl, Text.bare_of_all rfl, by decide⟩
  upper x hx := by
    cases hx
    exact ⟨rfl, Text.bare_of_all rfl, by decide⟩
  no_separator x hx := by
    cases hx
    decide

/-- The law at work: with this word for infinity the number `-5` is still read as a number, after a plus sign it is
infinite, and values may have brackets in them and, at the upper end, semicolons. -/
theorem intervals_are_read_back_minusFive :
    let a : Numeral ⟨.signed, 8⟩ := ⟨-5, by decide, by decide⟩
    let onFrom : Interval (Numeral ⟨.signed, 8⟩) := ⟨.inclusive a, .unbounded⟩
    let brackets : Interval String := ⟨.inclusive "a]", .exclusive "(b;c"⟩
    minusFive.Tidy ∧ minusFive.Readable brackets ∧ NotNumeric minusFive.infinity ∧
      minusFive.read "[-5;+-5)".toList = .ok onFrom ∧
      minusFive.read "[a];(b;c)".toList = .ok brackets ∧
      minusFive.read "[ -005 ; oo ]".toList = .ok onFrom ∧
      minusFive.read (minusFive.write onFrom) = .ok onFrom := by
  intro a onFrom brackets
  have hword : NotNumeric minusFive.infinity := by
    unfold NotNumeric
    decide
  have hnumber : "[-5;+-5)".toList = minusFive.write onFrom := by decide +kernel
  have htext : "[a];(b;c)".toList = minusFive.write brackets := by decide +kernel
  have hother : minusFive.read "[ -005 ; oo ]".toList = .ok onFrom := by rfl
  obtain ⟨hvalues, hnumbers⟩ := intervals_are_read_back tidy_minusFive
  obtain ⟨hall, hagain⟩ := hnumbers hword ⟨.signed, 8⟩
  refine ⟨tidy_minusFive, readable_brackets, hword, ?_, ?_, hother, hagain _ _ hother⟩
  · rw [hnumber]
    exact hall onFrom
  · rw [htext]
    exact hvalues String brackets readable_brackets

end IntervalFormat

end CodeAtlas
