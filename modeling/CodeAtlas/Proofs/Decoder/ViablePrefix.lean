import CodeAtlas.Proofs.Decoder.Step
import CodeAtlas.Proofs.Encoding.Prompt

/-!
# Which bytes decode, and how the others are refused

The encodings of instructions are told apart by decoding itself: some bytes are an encoding if they decode to
an instruction as long as they are.  Every sequence of bytes then stands in one of three ways to them, and
decoding reports which.

* `decodeSingle_eq_verdict` — decoding bytes at hand is reading the grammar of instructions against them;
* `isEncoding_iff` — the encodings are what the grammar accepts to the last byte;
* `decodeSingle_viablePrefix` — the bytes begin with an encoding, or begin one, or neither.
-/

namespace CodeAtlas

open Grammar

/-! ## Decoding bytes at hand -/

theorem Decoder.stream_overBytes (bs : List UInt8) (a : UInt64) : (overBytes bs a).input.stream = bs :=
  Source.remaining_ofBytes bs

/-- Decoding bytes at hand is reading the grammar of instructions against them. -/
theorem decodeSingle_eq_verdict (bs : List UInt8) (a : UInt64) :
    decodeSingle bs a = Decoder.verdict a bs := by
  have hstep := Decoder.decodeNext_stepped (d := Decoder.overBytes bs a) rfl
  unfold decodeSingle
  generalize (Decoder.overBytes bs a).decodeNext = step at hstep ⊢
  cases hstep with
  | @answered result d' hanswer htakes hfail =>
    rw [Decoder.stream_overBytes] at hanswer
    replace hanswer : Decoder.answer a bs = result := hanswer
    subst hanswer
    by_cases hnil : bs = []
    · subst hnil
      rfl
    · rw [Decoder.answer, if_neg hnil]
      cases Decoder.verdict a bs with
      | ok d => rfl
      | error fault => rfl
  | failed htakes hfail => cases hfail

/-! ## Encodings -/

/-- The bytes decode to an instruction that takes all of them. -/
def IsEncoding (a : UInt64) (e : List UInt8) : Prop :=
  ∃ d, decodeSingle e a = .ok d ∧ d.length = e.length

/-- Some encoding begins with the bytes. -/
def BeginsEncoding (a : UInt64) (bs : List UInt8) : Prop :=
  ∃ e, IsEncoding a e ∧ bs <+: e

/-- The bytes begin with some encoding. -/
def HasEncoding (a : UInt64) (bs : List UInt8) : Prop :=
  ∃ e, e <+: bs ∧ IsEncoding a e

/-- The bytes are an encoding without its end. -/
def LacksEnd (a : UInt64) (bs : List UInt8) : Prop :=
  ∃ e, IsEncoding a e ∧ bs <+: e ∧ bs ≠ e

/-- The instruction of an encoding, with its place. -/
theorem decodeSingle_of_run {bs rest : List UInt8} {p : Prefixes} {i : Instruction}
    (h : Encoding.instruction.run bs = .accepted (p, i) rest) (a : UInt64) :
    decodeSingle bs a = .ok ⟨a, bs.length - rest.length, p, i⟩ := by
  rw [decodeSingle_eq_verdict, Decoder.verdict, h]

/-- The encodings are what the grammar of instructions accepts to the last byte. -/
theorem isEncoding_iff {a : UInt64} {e : List UInt8} :
    IsEncoding a e ↔ ∃ r, Encoding.instruction.run e = .accepted r [] := by
  constructor
  · rintro ⟨d, hd, hlen⟩
    rw [decodeSingle_eq_verdict, Decoder.verdict] at hd
    split at hd
    · next p i rest hrun =>
      obtain ⟨front, rfl, -⟩ := exists_of_run_accepted hrun
      cases hd
      simp only [List.length_append] at hlen
      have hrest : rest = [] := List.eq_nil_of_length_eq_zero (by omega)
      rw [hrest] at hrun ⊢
      exact ⟨(p, i), hrun⟩
    · cases hd
    · cases hd
  · rintro ⟨⟨p, i⟩, hrun⟩
    exact ⟨_, decodeSingle_of_run hrun a, rfl⟩

/-- No encoding is a proper prefix of another. -/
theorem IsEncoding.eq_of_prefix {a : UInt64} {e e' : List UInt8} (he : IsEncoding a e)
    (he' : IsEncoding a e') (h : e <+: e') : e = e' := by
  obtain ⟨r, hr⟩ := isEncoding_iff.1 he
  obtain ⟨r', hr'⟩ := isEncoding_iff.1 he'
  exact eq_of_prefix_of_accepted hr hr' h

/-- What can still be read on begins an encoding, and lacks its end. -/
theorem lacksEnd_of_incomplete {bs : List UInt8} (a : UInt64)
    (h : Encoding.instruction.run bs = .incomplete) : LacksEnd a bs := by
  obtain ⟨more, r, hrun⟩ := Encoding.instruction_prompt bs h
  refine ⟨bs ++ more, isEncoding_iff.2 ⟨r, hrun⟩, List.prefix_append bs more, ?_⟩
  intro heq
  rw [← heq, h] at hrun
  cases hrun

theorem LacksEnd.beginsEncoding {a : UInt64} {bs : List UInt8} (h : LacksEnd a bs) :
    BeginsEncoding a bs := by
  obtain ⟨e, he, hpre, -⟩ := h
  exact ⟨e, he, hpre⟩

/-- What the grammar rejects begins no encoding. -/
theorem not_beginsEncoding_of_rejected {bs rest : List UInt8} (a : UInt64)
    (h : Encoding.instruction.run bs = .rejected rest) : ¬BeginsEncoding a bs := by
  rintro ⟨e, he, more, rfl⟩
  obtain ⟨r, hr⟩ := isEncoding_iff.1 he
  rw [run_append_of_rejected h] at hr
  cases hr

/-- Bytes that begin with an encoding are accepted. -/
theorem HasEncoding.run {a : UInt64} {bs : List UInt8} (h : HasEncoding a bs) :
    ∃ r rest, Encoding.instruction.run bs = .accepted r rest := by
  obtain ⟨e, ⟨rest, rfl⟩, he⟩ := h
  obtain ⟨r, hr⟩ := isEncoding_iff.1 he
  exact ⟨r, _, run_append_of_accepted hr rest⟩

/-! ## The three cases -/

/-- **Bytes that begin with an encoding.**  There is one such encoding, nothing longer, and it alone
decides. -/
theorem viable_of_accepted {bs rest : List UInt8} {p : Prefixes} {i : Instruction} (a : UInt64)
    (h : Encoding.instruction.run bs = .accepted (p, i) rest) :
    HasEncoding a bs ∧ ¬LacksEnd a bs ∧
      ∃ e d, (∀ e', e' <+: bs ∧ IsEncoding a e' ↔ e' = e) ∧ d.length = e.length ∧
        decodeSingle e a = .ok d ∧ decodeSingle bs a = .ok d ∧
        ∀ more, decodeSingle (e ++ more) a = .ok d := by
  obtain ⟨e, rfl, hrun⟩ := exists_of_run_accepted h
  have he : IsEncoding a e := isEncoding_iff.2 ⟨(p, i), hrun⟩
  have hmore : ∀ more, decodeSingle (e ++ more) a = .ok ⟨a, e.length, p, i⟩ := by
    intro more
    rw [decodeSingle_of_run (run_append_of_accepted hrun more) a, List.nil_append,
      List.length_append, Nat.add_sub_cancel]
  have hself : decodeSingle e a = .ok ⟨a, e.length, p, i⟩ := by
    have h := hmore []
    rwa [List.append_nil] at h
  refine ⟨⟨e, List.prefix_append e rest, he⟩, ?_, e, ⟨a, e.length, p, i⟩, ?_, rfl, hself, hmore rest,
    hmore⟩
  · rintro ⟨e', he', hpre, hne⟩
    -- `e` begins `e'`, so it is `e'`, and what lies between them is too
    have heq := he.eq_of_prefix he' ((List.prefix_append e rest).trans hpre)
    have hlen := hpre.length_le
    rw [← heq, List.length_append] at hlen
    have hrest : rest = [] := List.eq_nil_of_length_eq_zero (by omega)
    rw [hrest, List.append_nil] at hne
    exact hne heq
  · intro e'
    constructor
    · rintro ⟨hpre, he'⟩
      rcases List.prefix_or_prefix_of_prefix hpre (List.prefix_append e rest) with h' | h'
      · exact he'.eq_of_prefix he h'
      · exact (he.eq_of_prefix he' h').symm
    · rintro rfl
      exact ⟨List.prefix_append e' rest, he⟩

/-- **Bytes that an encoding begins with.**  They are all reported. -/
theorem viable_of_incomplete {bs : List UInt8} (a : UInt64)
    (h : Encoding.instruction.run bs = .incomplete) :
    ¬HasEncoding a bs ∧ LacksEnd a bs ∧ decodeSingle bs a = .error (.truncated a bs) := by
  refine ⟨?_, lacksEnd_of_incomplete a h, ?_⟩
  · intro hhas
    obtain ⟨r, rest, hrun⟩ := hhas.run
    rw [h] at hrun
    cases hrun
  · rw [decodeSingle_eq_verdict, Decoder.verdict, h]

/-- **All other bytes.**  The shortest prefix that begins no encoding is reported. -/
theorem viable_of_rejected {bs rest : List UInt8} (a : UInt64)
    (h : Encoding.instruction.run bs = .rejected rest) :
    ¬HasEncoding a bs ∧ ¬LacksEnd a bs ∧
      ∃ e, e <+: bs ∧ ¬BeginsEncoding a e ∧ (∀ q, q <+: e → q ≠ e → BeginsEncoding a q) ∧
        decodeSingle bs a = .error (.unrecognized a e) := by
  obtain ⟨e, rfl, hrun, hshort⟩ := exists_of_run_rejected h
  refine ⟨?_, ?_, e, List.prefix_append e rest, not_beginsEncoding_of_rejected a hrun, ?_, ?_⟩
  · intro hhas
    obtain ⟨r, rest', hacc⟩ := hhas.run
    rw [h] at hacc
    cases hacc
  · intro hlacks
    exact not_beginsEncoding_of_rejected a h hlacks.beginsEncoding
  · intro q hq hne
    exact (lacksEnd_of_incomplete a (hshort q hq hne)).beginsEncoding
  · rw [decodeSingle_eq_verdict, Decoder.verdict, h]
    show Except.error (DecodeFault.unrecognized a ((e ++ rest).take _)) = _
    rw [List.length_append, Nat.add_sub_cancel, List.take_left]

/-- **Viable prefixes.**  No encoding is a proper prefix of another, and of any bytes exactly one of these
holds: they begin with an encoding, which is the only one they begin with, and decode to what it alone
decodes to; or they are an encoding without its end, and are reported as truncated; or neither, and the
shortest of their prefixes that begins no encoding is reported as unrecognized. -/
theorem decodeSingle_viablePrefix (bs : List UInt8) (a : UInt64) :
    (∀ e e', IsEncoding a e → IsEncoding a e' → e <+: e' → e = e') ∧
    ((HasEncoding a bs ∧ ¬LacksEnd a bs ∧
        ∃ e d, (∀ e', e' <+: bs ∧ IsEncoding a e' ↔ e' = e) ∧ d.length = e.length ∧
          decodeSingle e a = .ok d ∧ decodeSingle bs a = .ok d ∧
          ∀ more, decodeSingle (e ++ more) a = .ok d) ∨
      (¬HasEncoding a bs ∧ LacksEnd a bs ∧ decodeSingle bs a = .error (.truncated a bs)) ∨
      (¬HasEncoding a bs ∧ ¬LacksEnd a bs ∧
        ∃ e, e <+: bs ∧ ¬BeginsEncoding a e ∧ (∀ q, q <+: e → q ≠ e → BeginsEncoding a q) ∧
          decodeSingle bs a = .error (.unrecognized a e))) := by
  refine ⟨fun e e' he he' h => he.eq_of_prefix he' h, ?_⟩
  cases h : Encoding.instruction.run bs with
  | accepted r rest => exact Or.inl (viable_of_accepted (p := r.1) (i := r.2) a h)
  | incomplete => exact Or.inr (Or.inl (viable_of_incomplete a h))
  | rejected rest => exact Or.inr (Or.inr (viable_of_rejected a h))

end CodeAtlas
