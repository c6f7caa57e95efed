import CodeAtlas.Text.Blank

/-!
# Trimming padded text

* `Text.Blanks` — a padding: blanks only, any number of them;
* `Text.Bare` — text that begins and ends with something else, or is empty;
* `Text.trim_padded` — trimming takes the padding off bare text, and nothing more;
* `Text.Padded`, `Text.trim_eq_iff` — what trimming leaves is the bare text that stands between blanks.
-/

namespace CodeAtlas.Text

/-- Digits are not blank. -/
theorem isBlank_of_isDigit {c : Char} (h : c.isDigit = true) : isBlank c = false := by
  have hrange : 48 ≤ c.toNat ∧ c.toNat ≤ 57 := by
    simpa [Char.isDigit, UInt32.le_iff_toNat_le] using h
  simp only [isBlank, Bool.or_eq_false_iff, Bool.and_eq_false_iff, decide_eq_false_iff_not,
    beq_eq_false_iff_ne]
  omega

/-- A text of blanks only. -/
structure Blanks where
  chars : List Char
  all_blank : ∀ c ∈ chars, isBlank c = true

/-- No blanks. -/
def Blanks.none : Blanks :=
  ⟨[], by simp⟩

/-- So many spaces. -/
def Blanks.spaces (n : Nat) : Blanks :=
  ⟨List.replicate n ' ', fun c hc => by rw [List.eq_of_mem_replicate hc]; rfl⟩

/-- The same blanks read backwards. -/
def Blanks.reverse (b : Blanks) : Blanks :=
  ⟨b.chars.reverse, fun c hc => b.all_blank c (List.mem_reverse.1 hc)⟩

/-- Neither the first nor the last character is blank. -/
structure Bare (s : List Char) : Prop where
  head : ∀ c ∈ s.head?, isBlank c = false
  last : ∀ c ∈ s.getLast?, isBlank c = false

theorem bare_of_forall {s : List Char} (h : ∀ c ∈ s, isBlank c = false) : Bare s where
  head c hc := h c (List.mem_of_mem_head? hc)
  last c hc := h c (List.mem_of_getLast? hc)

/-- The same by computation, for texts that are given. -/
theorem bare_of_all {s : List Char} (h : s.all (fun c => !isBlank c) = true) : Bare s :=
  bare_of_forall fun c hc => Bool.not_eq_eq_eq_not.1 (List.all_eq_true.1 h c hc)

theorem Bare.cons {s : List Char} (h : Bare s) {c : Char} (hc : isBlank c = false) : Bare (c :: s) where
  head d hd := by
    cases hd
    exact hc
  last d hd := by
    rw [List.getLast?_cons] at hd
    cases hs : s.getLast? with
    | none =>
      rw [hs] at hd
      cases hd
      exact hc
    | some e =>
      rw [hs] at hd
      cases hd
      exact h.last _ hs

/-- What stands between two characters that are not blank does not matter. -/
theorem bare_between {o c : Char} (ho : isBlank o = false) (hc : isBlank c = false) (m : List Char) :
    Bare (o :: (m ++ [c])) where
  head d hd := by
    cases hd
    exact ho
  last d hd := by
    rw [← List.cons_append, List.getLast?_concat] at hd
    cases hd
    exact hc

theorem Bare.reverse {s : List Char} (h : Bare s) : Bare s.reverse where
  head := by
    rw [List.head?_reverse]
    exact h.last
  last := by
    rw [List.getLast?_reverse]
    exact h.head

/-! ## One end -/

theorem trimStart_blanks (b : Blanks) (s : List Char) : trimStart (b.chars ++ s) = trimStart s :=
  List.dropWhile_append_of_pos b.all_blank

theorem trimStart_cons {c : Char} (h : isBlank c = false) (s : List Char) : trimStart (c :: s) = c :: s := by
  rw [trimStart, List.dropWhile_cons_of_neg]
  rw [h]
  exact Bool.false_ne_true

theorem trimStart_bare {s : List Char} (h : Bare s) : trimStart s = s := by
  cases s with
  | nil => rfl
  | cons c s => exact trimStart_cons (h.head c rfl) s

/-- The end of a text is the start of the text read backwards. -/
theorem trimEnd_padded {s : List Char} (h : Bare s) (b : Blanks) : trimEnd (s ++ b.chars) = s := by
  have hstart : trimStart (s ++ b.chars).reverse = s.reverse := by
    rw [List.reverse_append]
    exact (trimStart_blanks b.reverse _).trans (trimStart_bare h.reverse)
  rw [trimEnd, ← trimStart, hstart, List.reverse_reverse]

/-! ## Both ends -/

/-- **Trimming takes off the padding of bare text**, and nothing more. -/
theorem trim_padded {s : List Char} (h : Bare s) (l r : Blanks) : trim (l.chars ++ s ++ r.chars) = s := by
  rw [trim, List.append_assoc, trimStart_blanks]
  cases s with
  | nil =>
    have hnil := trimStart_blanks r []
    rw [List.append_nil] at hnil
    rw [List.nil_append, hnil]
    rfl
  | cons c s =>
    rw [List.cons_append, trimStart_cons (h.head c rfl)]
    exact trimEnd_padded h r

theorem trim_bare {s : List Char} (h : Bare s) : trim s = s := by
  have hpadded := trim_padded h .none .none
  rwa [Blanks.none, List.nil_append, List.append_nil] at hpadded

/-! ## What trimming leaves -/

theorem exists_blanks_trimStart (s : List Char) : ∃ b : Blanks, s = b.chars ++ trimStart s := by
  have hblank : ∀ c ∈ s.takeWhile isBlank, isBlank c = true :=
    List.all_eq_true.1 List.all_takeWhile
  exact ⟨⟨s.takeWhile isBlank, hblank⟩, List.takeWhile_append_dropWhile.symm⟩

theorem exists_blanks_trimEnd (s : List Char) : ∃ b : Blanks, s = trimEnd s ++ b.chars := by
  obtain ⟨b, hb⟩ := exists_blanks_trimStart s.reverse
  refine ⟨b.reverse, ?_⟩
  have hback := congrArg List.reverse hb
  rwa [List.reverse_reverse, List.reverse_append] at hback

theorem isBlank_of_mem_head?_trimStart {s : List Char} {c : Char} (h : c ∈ (trimStart s).head?) :
    isBlank c = false := by
  have hhead := List.head?_dropWhile_not isBlank s
  rw [trimStart, Option.mem_def] at h
  rwa [h] at hhead

theorem bare_trim (s : List Char) : Bare (trim s) where
  head c hc := by
    -- what is trimmed at the end leaves the first character where it is
    obtain ⟨b, hb⟩ := exists_blanks_trimEnd (trimStart s)
    refine isBlank_of_mem_head?_trimStart (s := s) ?_
    rw [hb, List.head?_append, ← trim, hc]
    rfl
  last c hc := by
    rw [trim, trimEnd, List.getLast?_reverse] at hc
    exact isBlank_of_mem_head?_trimStart hc

/-- Bare text with blanks around it, or none. -/
structure Padded (p s : List Char) : Prop where
  bare : Bare p
  padding : ∃ l r : Blanks, s = l.chars ++ p ++ r.chars

/-- **Trimming leaves the bare text between blanks.** -/
theorem trim_eq_iff {p s : List Char} : trim s = p ↔ Padded p s := by
  constructor
  · rintro rfl
    obtain ⟨l, hl⟩ := exists_blanks_trimStart s
    obtain ⟨r, hr⟩ := exists_blanks_trimEnd (trimStart s)
    refine ⟨bare_trim s, l, r, ?_⟩
    rw [List.append_assoc, trim, ← hr, ← hl]
  · rintro ⟨hbare, l, r, rfl⟩
    exact trim_padded hbare l r

end CodeAtlas.Text
