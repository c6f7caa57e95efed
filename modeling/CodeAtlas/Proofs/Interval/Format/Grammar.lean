import CodeAtlas.Proofs.Interval.Format.RoundTrip
import Mathlib.Data.List.Forall2
import Mathlib.Data.String.Basic

/-!
# What is read as an interval

The text of an interval is described by a grammar of its own: brackets, a semicolon, and on either side of it an end
point, which is infinite or a value.  Reading trims, looks at the first and the last character, cuts at the first
semicolon, takes off a sign and compares without regard to case; all this together accepts what the grammar
describes, and nothing else.

* `IntervalFormat.Infinite`, `IntervalFormat.EndPoint`, `IntervalFormat.Written` — the grammar;
* `IntervalFormat.isInfinity_iff`, `IntervalFormat.readBound_eq_ok_iff`, `IntervalFormat.read_eq_ok_iff` — one part
  of the reader after the other;
* `Text.byteSlice?`, `Text.byteSlice?_between` — cutting off brackets by bytes;
* `IntervalFormat.read_accepts_the_grammar` — what is read, what is malformed, and where the text is cut.
-/

namespace CodeAtlas

universe u

/-! ## Letters -/

namespace Text

/-- Two texts agree letter by letter, capitals aside. -/
def SameLetters : List Char → List Char → Prop :=
  List.Forall₂ fun a b => a.toLower = b.toLower

theorem sameFolded_iff {s t : List Char} : sameFolded s t = true ↔ SameLetters s t := by
  rw [sameFolded, beq_iff_eq, SameLetters, ← List.forall₂_eq_eq_eq, List.forall₂_map_left_iff,
    List.forall₂_map_right_iff]

/-- Capitals are numbered from 65 to 90, and each stands 32 before its small letter. -/
theorem toNat_toLower (c : Char) :
    c.toLower.toNat = if 65 ≤ c.toNat ∧ c.toNat ≤ 90 then c.toNat + 32 else c.toNat := by
  have hcapital : (c.val ≥ 'A'.val ∧ c.val ≤ 'Z'.val) ↔ 65 ≤ c.toNat ∧ c.toNat ≤ 90 := by
    rw [ge_iff_le, UInt32.le_iff_toNat_le, UInt32.le_iff_toNat_le]
    exact Iff.rfl
  unfold Char.toLower
  split
  · next h =>
    have hrange : 65 ≤ c.val.toNat ∧ c.val.toNat ≤ 90 := hcapital.1 h
    have hstep : ('a'.val - 'A'.val).toNat = 32 := rfl
    rw [if_pos (hcapital.1 h)]
    show (c.val + ('a'.val - 'A'.val)).toNat = c.val.toNat + 32
    rw [UInt32.toNat_add, hstep]
    omega
  · next h => rw [if_neg fun hrange => h (hcapital.2 hrange)]

theorem isBlank_toLower (c : Char) : isBlank c.toLower = isBlank c := by
  simp only [isBlank, toNat_toLower]
  split
  · rw [Bool.eq_iff_iff]
    simp only [Bool.or_eq_true, Bool.and_eq_true, decide_eq_true_eq, beq_iff_eq]
    omega
  · rfl

theorem isBlank_congr {c d : Char} (h : c.toLower = d.toLower) : isBlank c = isBlank d := by
  rw [← isBlank_toLower, h, isBlank_toLower]

/-- What stands before the capitals agrees only with itself. -/
theorem eq_of_toLower_eq {c d : Char} (hd : d.toNat < 65) (h : c.toLower = d.toLower) : c = d := by
  have hnat := congrArg Char.toNat h
  rw [toNat_toLower, toNat_toLower] at hnat
  apply Char.toNat_inj.1
  split at hnat <;> split at hnat <;> omega

/-- A text that agrees with a bare one does not begin with blanks. -/
theorem SameLetters.trimStart_eq {s t : List Char} (h : SameLetters s t) (ht : Bare t) : trimStart s = s := by
  cases h with
  | nil => rfl
  | cons hcd _ =>
    refine trimStart_cons ?_ _
    rw [isBlank_congr hcd]
    exact ht.head _ rfl

/-! ## Bytes -/

/-- The part of a text between two places counted in bytes, if no character lies across either of them. -/
def byteSlice? (s : String) (start stop : Nat) : Option String :=
  if start ≤ stop ∧ String.Pos.Raw.IsValid s ⟨start⟩ ∧ String.Pos.Raw.IsValid s ⟨stop⟩ then
    some (String.Pos.Raw.extract s ⟨start⟩ ⟨stop⟩)
  else none

/-- Between two characters a text can be cut. -/
theorem isValid_utf8Len (l r : List Char) :
    String.Pos.Raw.IsValid (String.ofList (l ++ r)) ⟨String.utf8Len l⟩ := by
  refine String.Pos.Raw.isValid_iff_exists_append.2 ⟨String.ofList l, String.ofList r, String.ofList_append, ?_⟩
  rw [String.rawEndPos, String.utf8ByteSize_ofList]

theorem byteSlice?_append (l m r : List Char) :
    byteSlice? (String.ofList (l ++ m ++ r)) (String.utf8Len l) (String.utf8Len l + String.utf8Len m) =
      some (String.ofList m) := by
  have hstart := isValid_utf8Len l (m ++ r)
  have hstop := isValid_utf8Len (l ++ m) r
  rw [← List.append_assoc] at hstart
  rw [String.utf8Len_append] at hstop
  rw [byteSlice?, if_pos ⟨Nat.le_add_right _ _, hstart, hstop⟩, String.extract_of_valid]

/-- Characters of one byte at both ends are cut off by cutting off a byte. -/
theorem byteSlice?_between {o c : Char} (ho : o.utf8Size = 1) (hc : c.utf8Size = 1) (m : List Char) :
    let s := String.ofList (o :: (m ++ [c]))
    byteSlice? s 1 (s.utf8ByteSize - 1) = some (String.ofList m) := by
  have hsize : (String.ofList (o :: (m ++ [c]))).utf8ByteSize - 1 = 1 + String.utf8Len m := by
    rw [String.utf8ByteSize_ofList, String.utf8Len_cons, String.utf8Len_append, String.utf8Len_cons, ho, hc,
      String.utf8Len_nil]
    omega
  have hslice := byteSlice?_append [o] m [c]
  rw [String.utf8Len_cons, ho, String.utf8Len_nil] at hslice
  intro s
  rw [hsize]
  exact hslice

end Text

namespace IntervalFormat

/-! ## The grammar -/

/-- The words for infinity: the one of the format, and those that every format accepts. -/
def words (f : IntervalFormat) : List (List Char) :=
  f.infinity :: spellings.map String.toList

/-- An infinite end point: a sign or none, blanks or none, and a word for infinity, capitals aside. -/
inductive Infinite (f : IntervalFormat) : List Char → Prop where
  | intro {sign w word : List Char} (b : Text.Blanks) (signed : sign = [] ∨ sign = ['+'] ∨ sign = ['-'])
      (listed : word ∈ f.words) (same : Text.SameLetters w word) : Infinite f (sign ++ b.chars ++ w)

/-- The brackets that open an interval, and whether the end point belongs to it. -/
inductive Opens : Char → Bool → Prop where
  | square : Opens '[' true
  | round : Opens '(' false

/-- The brackets that close an interval, and whether the end point belongs to it. -/
inductive Closes : Char → Bool → Prop where
  | square : Closes ']' true
  | round : Closes ')' false

section Grammar

variable {T : Type u} [TextValue T]

/-- The bound that a text without blanks around it stands for.  Infinity goes before values, and the bracket matters
to values only. -/
inductive EndPoint (f : IntervalFormat) (p : List Char) : Bool → Bound T → Prop where
  | infinite {belongs : Bool} (h : f.Infinite p) : EndPoint f p belongs .unbounded
  | inclusive {x : T} (h : ¬f.Infinite p) (value : TextValue.read? p = some x) : EndPoint f p true (.inclusive x)
  | exclusive {x : T} (h : ¬f.Infinite p) (value : TextValue.read? p = some x) : EndPoint f p false (.exclusive x)

/-- The texts of an interval: brackets, and between them two end points, divided by the first semicolon.  Blanks may
stand around the whole and around each end point. -/
inductive Written (f : IntervalFormat) (text : List Char) : Interval T → Prop where
  | intro {o c : Char} {lowerBelongs upperBelongs : Bool} {s t p q : List Char} {lower upper : Bound T}
      (opens : Opens o lowerBelongs) (closes : Closes c upperBelongs)
      (whole : Text.Padded (o :: (s ++ ';' :: t ++ [c])) text) (first : ';' ∉ s)
      (lower_padded : Text.Padded p s) (lower_end : f.EndPoint p lowerBelongs lower)
      (upper_padded : Text.Padded q t) (upper_end : f.EndPoint q upperBelongs upper) :
      Written f text ⟨lower, upper⟩

end Grammar

/-- The word for infinity has no blanks around it and no sign in front. -/
structure Unsigned (f : IntervalFormat) : Prop where
  bare : Text.Bare f.infinity
  no_plus : f.infinity.head? ≠ some '+'
  no_minus : f.infinity.head? ≠ some '-'

/-! ## End points -/

theorem Unsigned.of_mem_words {f : IntervalFormat} (hf : f.Unsigned) {word : List Char} (h : word ∈ f.words) :
    Unsigned ⟨word⟩ := by
  rcases List.mem_cons.1 h with rfl | h
  · exact hf
  · have hall : ∀ s ∈ spellings, s.toList.all (fun c => !Text.isBlank c) = true ∧
        s.toList.head? ≠ some '+' ∧ s.toList.head? ≠ some '-' := by
      decide
    obtain ⟨s, hs, rfl⟩ := List.mem_map.1 h
    obtain ⟨hblank, hplus, hminus⟩ := hall s hs
    exact ⟨Text.bare_of_all hblank, hplus, hminus⟩

/-- What is dropped is a sign or nothing. -/
theorem exists_sign_dropSign (s : List Char) :
    ∃ sign, (sign = [] ∨ sign = ['+'] ∨ sign = ['-']) ∧ s = sign ++ dropSign s := by
  unfold dropSign
  split
  · exact ⟨['+'], Or.inr (Or.inl rfl), rfl⟩
  · exact ⟨['-'], Or.inr (Or.inr rfl), rfl⟩
  · exact ⟨[], Or.inl rfl, rfl⟩

/-- A text that agrees with a word without sign has none either. -/
theorem dropSign_sameLetters {s word : List Char} (h : Text.SameLetters s word)
    (hw : Unsigned ⟨word⟩) : dropSign s = s := by
  cases h with
  | nil => rfl
  | cons hcd _ =>
    apply dropSign_of_head
    · rintro ⟨⟩
      exact hw.no_plus (congrArg some (Text.eq_of_toLower_eq (by decide) hcd.symm))
    · rintro ⟨⟩
      exact hw.no_minus (congrArg some (Text.eq_of_toLower_eq (by decide) hcd.symm))

theorem isInfinity_iff_exists {f : IntervalFormat} {token : List Char} :
    f.isInfinity token = true ↔
      ∃ word ∈ f.words, Text.SameLetters (Text.trimStart (dropSign (Text.trim token))) word := by
  simp only [isInfinity, words, Bool.or_eq_true, List.any_eq_true, List.exists_mem_cons_iff, List.mem_map,
    exists_exists_and_eq_and, Text.sameFolded_iff]

/-- The sign and the blanks behind it are taken off a word for infinity, and nothing more. -/
theorem trimStart_dropSign {sign w word : List Char} {b : Text.Blanks}
    (hsign : sign = [] ∨ sign = ['+'] ∨ sign = ['-']) (hword : Unsigned ⟨word⟩) (hsame : Text.SameLetters w word)
    (hbare : Text.Bare (sign ++ b.chars ++ w)) :
    Text.trimStart (dropSign (sign ++ b.chars ++ w)) = w := by
  have hw : Text.trimStart w = w := hsame.trimStart_eq hword.bare
  have hblanks : Text.trimStart (b.chars ++ w) = w := (Text.trimStart_blanks b w).trans hw
  rcases hsign with rfl | rfl | rfl
  · -- without a sign there are no blanks either: they would stand in front
    have hnone : b.chars ++ w = w := (Text.trimStart_bare hbare).symm.trans hblanks
    rw [List.nil_append, hnone, dropSign_sameLetters hsame hword, hw]
  · exact hblanks
  · exact hblanks

/-- **What spells infinity**, once the blanks around it are gone. -/
theorem isInfinity_iff {f : IntervalFormat} (hf : f.Unsigned) {p token : List Char} (hp : Text.Padded p token) :
    f.isInfinity token = true ↔ f.Infinite p := by
  rw [isInfinity_iff_exists, Text.trim_eq_iff.2 hp]
  constructor
  · rintro ⟨word, hword, hsame⟩
    obtain ⟨sign, hsign, hdrop⟩ := exists_sign_dropSign p
    obtain ⟨b, hb⟩ := Text.exists_blanks_trimStart (dropSign p)
    rw [hdrop, hb, ← List.append_assoc]
    exact .intro b hsign hword hsame
  · rintro ⟨b, hsign, hword, hsame⟩
    refine ⟨_, hword, ?_⟩
    rwa [trimStart_dropSign hsign (hf.of_mem_words hword) hsame hp.bare]

section Reading

variable {T : Type u} [TextValue T]

/-- **What is read as a bound**, once the blanks around it are gone. -/
theorem readBound_eq_ok_iff {f : IntervalFormat} (hf : f.Unsigned) {p token : List Char} (hp : Text.Padded p token)
    {belongs : Bool} {bound : Bound T} : f.readBound token belongs = .ok bound ↔ f.EndPoint p belongs bound := by
  have htrim := Text.trim_eq_iff.2 hp
  have hiff := isInfinity_iff hf hp
  unfold readBound
  by_cases hinf : f.Infinite p
  · rw [if_pos (hiff.2 hinf), Except.ok.injEq]
    constructor
    · rintro rfl
      exact .infinite hinf
    · rintro (_ | ⟨h, _⟩ | ⟨h, _⟩)
      · rfl
      · exact absurd hinf h
      · exact absurd hinf h
  · rw [if_neg (mt hiff.1 hinf), htrim]
    constructor
    · intro h
      split at h
      · next x hread =>
        cases belongs <;> cases h
        · exact .exclusive hinf hread
        · exact .inclusive hinf hread
      · cases h
    · rintro (h | ⟨_, hread⟩ | ⟨_, hread⟩)
      · exact absurd h hinf
      · rw [hread]
        rfl
      · rw [hread]
        rfl

/-! ## The whole -/

/-- The text is cut at its first semicolon, if it has one. -/
theorem splitBounds_eq_some_iff {m s t : List Char} :
    splitBounds m = some (s, t) ↔ ';' ∉ s ∧ m = s ++ ';' :: t := by
  constructor
  · intro h
    have hparts : m.takeWhile (· != ';') ++ m.dropWhile (· != ';') = m := List.takeWhile_append_dropWhile
    have hnone : ';' ∉ m.takeWhile (· != ';') := by
      intro hmem
      exact absurd (List.all_eq_true.1 List.all_takeWhile _ hmem) (by decide)
    have hhead := List.head?_dropWhile_not (· != ';') m
    unfold splitBounds at h
    split at h
    · cases h
    · next d upper hdrop =>
      cases h
      rw [hdrop] at hparts hhead
      have hd : d = ';' := by simpa using hhead
      rw [hd] at hparts
      exact ⟨hnone, hparts.symm⟩
  · rintro ⟨hs, rfl⟩
    exact splitBounds_append hs t

theorem opening?_eq_some_iff {o : Char} {b : Bool} : opening? (some o) = some b ↔ Opens o b := by
  constructor
  · intro h
    unfold opening? at h
    split at h
    · next ho =>
      cases ho
      cases h
      exact .square
    · next ho =>
      cases ho
      cases h
      exact .round
    · cases h
  · rintro (_ | _) <;> rfl

theorem closing?_eq_some_iff {c : Char} {b : Bool} : closing? (some c) = some b ↔ Closes c b := by
  constructor
  · intro h
    unfold closing? at h
    split at h
    · next hc =>
      cases hc
      cases h
      exact .square
    · next hc =>
      cases hc
      cases h
      exact .round
    · cases h
  · rintro (_ | _) <;> rfl

/-- The brackets at the two ends of a text are two characters: none both opens and closes. -/
theorem exists_between {s : List Char} {b d : Bool} (ho : opening? s.head? = some b)
    (hc : closing? s.getLast? = some d) : ∃ o c m, s = o :: (m ++ [c]) ∧ Opens o b ∧ Closes c d := by
  cases s with
  | nil => cases ho
  | cons o rest =>
    have hopens : Opens o b := opening?_eq_some_iff.1 ho
    rcases List.eq_nil_or_concat' rest with rfl | ⟨m, c, rfl⟩
    · have hcloses : Closes o d := closing?_eq_some_iff.1 hc
      cases hopens <;> cases hcloses
    · rw [← List.cons_append, List.getLast?_concat] at hc
      exact ⟨o, c, m, rfl, hopens, closing?_eq_some_iff.1 hc⟩

/-- What goes on after a first step goes on from its result. -/
theorem exists_of_bind_eq_ok {ε : Type} {α β : Type u} {x : Except ε α} {g : α → Except ε β} {r : β}
    (h : x >>= g = .ok r) : ∃ a, x = .ok a ∧ g a = .ok r := by
  cases x with
  | error e => cases h
  | ok a => exact ⟨a, rfl, h⟩

theorem readTrimmed_between {f : IntervalFormat} {o c : Char} {b d : Bool} (ho : Opens o b) (hc : Closes c d)
    {m : List Char} {i : Interval T} :
    f.readTrimmed (o :: (m ++ [c])) = .ok i ↔
      ∃ s t, splitBounds m = some (s, t) ∧ f.readBound s b = .ok i.lower ∧ f.readBound t d = .ok i.upper := by
  unfold readTrimmed
  rw [List.head?_cons, opening?_eq_some_iff.2 ho, ← List.cons_append, List.getLast?_concat,
    closing?_eq_some_iff.2 hc, List.cons_append, List.tail_cons, List.dropLast_concat]
  constructor
  · intro h
    cases hsplit : splitBounds m with
    | none =>
      rw [hsplit] at h
      cases h
    | some parts =>
      obtain ⟨s, t⟩ := parts
      rw [hsplit] at h
      obtain ⟨lower, hlower, h⟩ := exists_of_bind_eq_ok h
      obtain ⟨upper, hupper, h⟩ := exists_of_bind_eq_ok h
      cases h
      exact ⟨s, t, rfl, hlower, hupper⟩
  · rintro ⟨s, t, hsplit, hlower, hupper⟩
    simp only [hsplit, hlower, hupper]
    rfl

/-- Nothing is read without brackets at both ends. -/
theorem exists_between_of_readTrimmed {f : IntervalFormat} {s : List Char} {i : Interval T}
    (h : f.readTrimmed s = .ok i) : ∃ o c m b d, s = o :: (m ++ [c]) ∧ Opens o b ∧ Closes c d := by
  cases ho : opening? s.head? with
  | none =>
    rw [readTrimmed, ho] at h
    cases h
  | some b =>
    cases hc : closing? s.getLast? with
    | none =>
      rw [readTrimmed, ho, hc] at h
      cases h
    | some d =>
      obtain ⟨o, c, m, hs, hopens, hcloses⟩ := exists_between ho hc
      exact ⟨o, c, m, b, d, hs, hopens, hcloses⟩

/-- **What is read as an interval.** -/
theorem read_eq_ok_iff {f : IntervalFormat} (hf : f.Unsigned) {text : List Char} {i : Interval T} :
    f.read text = .ok i ↔ f.Written text i := by
  have hread : f.read text = .ok i ↔ f.readTrimmed (Text.trim text) = .ok i := by
    unfold read
    split
    · next j h => rw [h, Except.ok.injEq, Except.ok.injEq]
    · next h =>
      rw [h]
      exact ⟨nofun, nofun⟩
  rw [hread]
  constructor
  · intro h
    obtain ⟨o, c, m, b, d, htrim, hopens, hcloses⟩ := exists_between_of_readTrimmed h
    rw [htrim, readTrimmed_between hopens hcloses] at h
    obtain ⟨s, t, hsplit, hlower, hupper⟩ := h
    obtain ⟨hfirst, rfl⟩ := splitBounds_eq_some_iff.1 hsplit
    have hs := Text.trim_eq_iff.1 (rfl : Text.trim s = _)
    have ht := Text.trim_eq_iff.1 (rfl : Text.trim t = _)
    exact .intro hopens hcloses (Text.trim_eq_iff.1 htrim) hfirst hs ((readBound_eq_ok_iff hf hs).1 hlower) ht
      ((readBound_eq_ok_iff hf ht).1 hupper)
  · rintro ⟨hopens, hcloses, hwhole, hfirst, hs, hlower, ht, hupper⟩
    rw [Text.trim_eq_iff.2 hwhole, readTrimmed_between hopens hcloses]
    exact ⟨_, _, splitBounds_append hfirst _, (readBound_eq_ok_iff hf hs).2 hlower,
      (readBound_eq_ok_iff hf ht).2 hupper⟩

/-- What is not read is reported with the whole text, blanks included. -/
theorem read_eq_error_iff {f : IntervalFormat} {text : List Char} :
    (∃ cause, (f.read text : Except Malformed (Interval T)) = .error ⟨text, cause⟩) ↔
      ¬∃ i : Interval T, f.read text = .ok i := by
  unfold read
  split
  · next i _ => exact ⟨nofun, fun h => absurd ⟨i, rfl⟩ h⟩
  · next cause _ => exact ⟨fun _ => nofun, fun _ => ⟨cause, rfl⟩⟩

end Reading

/-- Brackets take one byte each, so that what stands between them is found by counting bytes. -/
theorem byteSlice?_brackets {s : List Char} (ho : (opening? s.head?).isSome) (hc : (closing? s.getLast?).isSome) :
    let text := String.ofList s
    Text.byteSlice? text 1 (text.utf8ByteSize - 1) = some (String.ofList s.tail.dropLast) := by
  obtain ⟨b, hb⟩ := Option.isSome_iff_exists.1 ho
  obtain ⟨d, hd⟩ := Option.isSome_iff_exists.1 hc
  obtain ⟨o, c, m, rfl, hopens, hcloses⟩ := exists_between hb hd
  have hosize : o.utf8Size = 1 := by cases hopens <;> rfl
  have hcsize : c.utf8Size = 1 := by cases hcloses <;> rfl
  rw [List.tail_cons, List.dropLast_concat]
  exact Text.byteSlice?_between hosize hcsize m

/-- **The reader accepts the grammar**, and nothing else.  Let the word for infinity have no blanks around it and no
sign in front, and let the end points be whole numbers of any range.  An interval is read from a text if and only if
the text is one of its texts; from a text of no interval a fault is made that has the whole text in it.  What is read
as a number is digits after a sign or none.  Once there are brackets at both ends, cutting off a byte at each leaves
what stands between them, whatever characters these are. -/
theorem read_accepts_the_grammar {f : IntervalFormat} (hf : f.Unsigned) (k : IntegerKind) (text : List Char) :
    (∀ i : Interval (Numeral k), f.read text = .ok i ↔ f.Written text i) ∧
    ((∃ cause, (f.read text : Except Malformed (Interval (Numeral k))) = .error ⟨text, cause⟩) ↔
      ¬∃ i : Interval (Numeral k), f.Written text i) ∧
    (∀ (p : List Char) (a : Numeral k), TextValue.read? p = some a ↔ Numeral.Spelled p a) ∧
    ((opening? (Text.trim text).head?).isSome → (closing? (Text.trim text).getLast?).isSome →
      let s := String.ofList (Text.trim text)
      Text.byteSlice? s 1 (s.utf8ByteSize - 1) = some (String.ofList (Text.trim text).tail.dropLast)) := by
  refine ⟨fun i => read_eq_ok_iff hf, ?_, fun p a => Numeral.read?_eq_some_iff, byteSlice?_brackets⟩
  rw [read_eq_error_iff]
  simp only [read_eq_ok_iff hf]

/-- A format with a number for infinity. -/
def five : IntervalFormat :=
  ⟨['5']⟩

theorem unsigned_five : five.Unsigned where
  bare := Text.bare_of_all rfl
  no_plus := by decide
  no_minus := by decide

/-- The law at work: blanks may follow the sign of infinity, but not that of a number, and there are more blanks than
the space; a minus sign of three bytes is none, yet the brackets around it come off. -/
theorem read_accepts_the_grammar_five :
    let four : Numeral ⟨.signed, 8⟩ := ⟨4, by decide, by decide⟩
    let upTo : Interval (Numeral ⟨.signed, 8⟩) := ⟨.unbounded, .exclusive four⟩
    let minus := "\u3000[∞;−4]".toList
    five.Unsigned ∧ five.Written "\u3000[- 5\u00a0;+004)".toList upTo ∧
      (¬∃ i : Interval (Numeral ⟨.signed, 8⟩), five.Written "(- 4;5)".toList i) ∧
      (∃ cause, (five.read minus : Except Malformed (Interval (Numeral ⟨.signed, 8⟩))) = .error ⟨minus, cause⟩) ∧
      Text.byteSlice? "[∞;−4]" 1 9 = some "∞;−4" := by
  intro four upTo minus
  have hread : five.read "\u3000[- 5\u00a0;+004)".toList = .ok upTo := by rfl
  have hwritten := (read_accepts_the_grammar unsigned_five _ _).1 upTo |>.1 hread
  refine ⟨unsigned_five, hwritten, ?_, ?_, ?_⟩
  · exact (read_accepts_the_grammar unsigned_five _ _).2.1.1 ⟨.unreadable "- 4".toList, by rfl⟩
  · exact ⟨.unreadable "−4".toList, by rfl⟩
  · exact (read_accepts_the_grammar unsigned_five ⟨.signed, 8⟩ minus).2.2.2 rfl rfl

end IntervalFormat

end CodeAtlas
