import CodeAtlas.Proofs.Decoder.Schedule

/-!
# Failures of the source are transparent

A source that fails now and then is read like the same source without its failures.  A step that meets a
failure reports it and leaves the decoder where it was, with the bytes fetched so far still at hand, so the
next step starts over.  The answers of all other steps are those that the source gives without failures.

* `Source.withoutFailures` — the source without the failures that a reader is told of;
* `Decoder.Mirrors` — the relation between a decoder over a failing source and one over the steady source:
  a step of the first either reports the next failure and keeps the relation, or answers as the second does
  (`Mirrors.decodeNext`);
* `Decoder.outcomes_withoutFailures` — whole runs: answers, reports and the state after a report.
-/

namespace CodeAtlas

/-! ## Sources without their failures -/

namespace Source

/-- The source without the failures that a reader is told of; interruptions stay. -/
def withoutFailures (s : Source) : Source :=
  ⟨s.events.filter fun e => (failure? e).isNone⟩

theorem failures_withoutFailures (s : Source) : s.withoutFailures.failures = [] := by
  rw [failures, List.filterMap_eq_nil_iff]
  intro e he
  exact Option.isNone_iff_eq_none.1 (List.mem_filter.1 he).2

/-- Failures carry no bytes, so the source delivers the same without them. -/
theorem remaining_withoutFailures (s : Source) : s.withoutFailures.remaining = s.remaining := by
  obtain ⟨events⟩ := s
  show deliveredBy (events.filter _) = deliveredBy events
  induction events with
  | nil => rfl
  | cons e events ih =>
    match e with
    | .piece [] => rfl
    | .piece (b :: bs) => exact congrArg (b :: bs ++ ·) ih
    | .failure f =>
      rw [List.filter_cons]
      split
      · exact ih
      · exact ih

end Source

namespace Decoder

/-! ## Runs -/

/-- The failure of the source that an answer reports. -/
def reported? : Except DecodeFault (Option Decoded) → Option Failure
  | .error (.stream (.source f)) => some f
  | _ => none

/-- The outcomes of `n` steps without those that report a failure of the source. -/
def answers (n : Nat) (d : Decoder) : List (Except DecodeFault (Option Decoded) × UInt64) :=
  (d.outcomes n).filter fun o => (reported? o.1).isNone

/-- The failures of the source that `n` steps report, in order. -/
def reports (n : Nat) (d : Decoder) : List Failure :=
  (d.outcomes n).filterMap fun o => reported? o.1

/-- The decoder after `n` steps. -/
def after : (n : Nat) → Decoder → Decoder
  | 0, d => d
  | n + 1, d => d.decodeNext.2.after n

theorem after_succ (n : Nat) (d : Decoder) : d.after (n + 1) = (d.after n).decodeNext.2 := by
  induction n generalizing d with
  | zero => rfl
  | succ n ih => exact ih d.decodeNext.2

/-- What the stream says about an instruction is never a failure of the source. -/
theorem reported?_answer (offset : UInt64) (bs : List UInt8) : reported? (answer offset bs) = none := by
  unfold answer verdict
  split
  · rfl
  · cases Encoding.instruction.run bs <;> rfl

/-! ## One step -/

/-- A decoder at the front of the same bytes at the same offset as one whose source will not fail. -/
structure Mirrors (d e : Decoder) : Prop where
  stream : d.input.stream = e.input.stream
  position : d.position = e.position
  cursor_left : d.input.cursor = 0
  cursor_right : e.input.cursor = 0
  steady : e.input.source.failures = []

/-- What a step comes to beside a decoder whose source will not fail. -/
inductive MirroredStep (d e : Decoder) : Except DecodeFault (Option Decoded) × Decoder → Prop
  /-- The answer of the other decoder, which makes its step too. -/
  | answered {d' : Decoder} : reported? e.decodeNext.1 = none →
      d'.input.source.failures = d.input.source.failures → Mirrors d' e.decodeNext.2 →
      MirroredStep d e (e.decodeNext.1, d')
  /-- A report of the next failure, while the other decoder waits. -/
  | reported {f : Failure} {d' : Decoder} : d.input.source.failures = f :: d'.input.source.failures →
      Takes 0 d.input d'.input → Mirrors d' e → MirroredStep d e (.error (.stream (.source f)), d')

/-- **One step** gives the answer that the steady source gives, or reports the next failure. -/
theorem Mirrors.decodeNext {d e : Decoder} (h : Mirrors d e) : MirroredStep d e d.decodeNext := by
  obtain ⟨he, hte, hfe⟩ := decodeNext_of_steady h.cursor_right h.steady
  have hstep := decodeNext_stepped h.cursor_left
  generalize d.decodeNext = step at hstep ⊢
  cases hstep with
  | @answered result d' hanswer htakes hfail =>
    rw [h.stream, h.position, ← he] at hanswer
    subst hanswer
    rw [← he] at hte
    refine .answered ?_ hfail ⟨?_, ?_, htakes.cursor, hte.cursor, hfe⟩
    · rw [he]
      exact reported?_answer _ _
    · rw [htakes.stream, hte.stream, h.stream]
    · show d'.input.position = e.decodeNext.2.input.position
      rw [htakes.position, hte.position]
      exact congrArg (· + _) h.position
  | @failed f d' htakes hfail =>
    refine .reported hfail htakes ⟨?_, ?_, htakes.cursor, h.cursor_right, h.steady⟩
    · rw [htakes.stream, List.drop_zero, h.stream]
    · show d'.input.position = e.position
      rw [htakes.position, ← h.position]
      exact UInt64.add_zero _

/-! ## Whole runs -/

/-- What a run of `n` steps comes to beside a decoder whose source will not fail. -/
structure MirroredRun (n : Nat) (d e : Decoder) : Prop where
  /-- The answers are those of the other decoder. -/
  answers : d.answers n = e.outcomes (d.answers n).length
  /-- The failures that were met are reported, each once and in order. -/
  reports : d.reports n ++ (d.after n).input.source.failures = d.input.source.failures
  /-- A step answers or reports. -/
  count : (d.answers n).length + (d.reports n).length = n
  /-- The other decoder has made a step for each answer. -/
  mirrors : Mirrors (d.after n) (e.after (d.answers n).length)

theorem outcomes_succ {d d' : Decoder} {result : Except DecodeFault (Option Decoded)}
    (h : d.decodeNext = (result, d')) (n : Nat) :
    d.outcomes (n + 1) = (result, d'.position) :: d'.outcomes n := by
  rw [outcomes, h]

theorem after_of_decodeNext {d d' : Decoder} {result : Except DecodeFault (Option Decoded)}
    (h : d.decodeNext = (result, d')) (n : Nat) : d.after (n + 1) = d'.after n := by
  rw [after, h]

/-- **Whole runs.**  The steady decoder makes a step for each answer and waits for each report. -/
theorem Mirrors.run (n : Nat) : ∀ {d e : Decoder}, Mirrors d e → MirroredRun n d e := by
  induction n with
  | zero => exact fun h => ⟨rfl, rfl, rfl, h⟩
  | succ n ih =>
    intro d e h
    have hstep := h.decodeNext
    generalize hd : d.decodeNext = step at hstep
    cases hstep with
    | @answered d' hnone hfail hnext =>
      have hrun := ih hnext
      have hanswers : d.answers (n + 1) = (e.decodeNext.1, d'.position) :: d'.answers n := by
        rw [Decoder.answers, outcomes_succ hd, List.filter_cons, hnone]
        rfl
      have hreports : d.reports (n + 1) = d'.reports n := by
        rw [Decoder.reports, outcomes_succ hd, List.filterMap_cons, hnone]
        rfl
      constructor
      · rw [hanswers, List.length_cons, outcomes, hnext.position, ← hrun.answers]
      · rw [hreports, after_of_decodeNext hd, hrun.reports, hfail]
      · rw [hanswers, hreports, List.length_cons, Nat.add_right_comm, hrun.count]
      · rw [hanswers, after_of_decodeNext hd]
        exact hrun.mirrors
    | @reported f d' hfail htakes hnext =>
      have hrun := ih hnext
      have hanswers : d.answers (n + 1) = d'.answers n := by
        rw [Decoder.answers, outcomes_succ hd, List.filter_cons]
        rfl
      have hreports : d.reports (n + 1) = f :: d'.reports n := by
        rw [Decoder.reports, outcomes_succ hd, List.filterMap_cons]
        rfl
      constructor
      · rw [hanswers]
        exact hrun.answers
      · rw [hreports, after_of_decodeNext hd, List.cons_append, hrun.reports, hfail]
      · rw [hanswers, hreports, List.length_cons, ← Nat.add_assoc, hrun.count]
      · rw [hanswers, after_of_decodeNext hd]
        exact hrun.mirrors

/-- A fresh decoder mirrors the one over the same source without its failures. -/
theorem mirrors_start (s : Source) (c : DecoderConfig) :
    Mirrors (start s c) (start s.withoutFailures c) where
  stream := s.remaining_withoutFailures.symm
  position := rfl
  cursor_left := rfl
  cursor_right := rfl
  steady := s.failures_withoutFailures

/-- A step that reports a failure leaves the decoder at the front of the same bytes. -/
theorem Mirrors.takes_of_report {d e : Decoder} (h : Mirrors d e) {f : Failure}
    (hf : d.decodeNext.1 = .error (.stream (.source f))) : Takes 0 d.input d.decodeNext.2.input := by
  have hstep := h.decodeNext
  generalize d.decodeNext = step at hstep hf ⊢
  cases hstep with
  | answered hnone _ _ =>
    rw [hf] at hnone
    cases hnone
  | reported _ htakes _ => exact htakes

/-- **Failures of the source are transparent.**  The answers and positions of a run, without the steps that
report a failure, are those over the source without its failures, and there are as many of them as one asks
for.  The failures that a run has met are reported, each by exactly one step and in order.  A step that
reports one leaves the position and the bytes to come as they were, and the cursor where the instruction
starts. -/
theorem outcomes_withoutFailures (s : Source) (chunk : Nat) (base : UInt64) :
    let d := start s ⟨chunk, base⟩
    let e := start s.withoutFailures ⟨chunk, base⟩
    (∀ n, d.answers n = e.outcomes (d.answers n).length) ∧
    (∀ k, k ≤ (d.answers (k + s.failures.length)).length) ∧
    (∀ n, d.reports n ++ (d.after n).input.source.failures = s.failures) ∧
    ∀ n f, (d.after n).decodeNext.1 = .error (.stream (.source f)) →
      (d.after (n + 1)).position = (d.after n).position ∧
      (d.after (n + 1)).input.stream = (d.after n).input.stream ∧
      (d.after n).input.cursor = 0 ∧ (d.after (n + 1)).input.cursor = 0 := by
  intro d e
  have hrun : ∀ n, MirroredRun n d e := fun n => (mirrors_start s ⟨chunk, base⟩).run n
  refine ⟨fun n => (hrun n).answers, ?_, fun n => (hrun n).reports, ?_⟩
  · intro k
    have hcount := (hrun (k + s.failures.length)).count
    have hreports := congrArg List.length (hrun (k + s.failures.length)).reports
    replace hreports : _ = s.failures.length := hreports
    rw [List.length_append] at hreports
    omega
  · intro n f hf
    have hmirrors := (hrun n).mirrors
    have htakes := hmirrors.takes_of_report hf
    rw [after_succ]
    exact ⟨htakes.position.trans (UInt64.add_zero _), htakes.stream, hmirrors.cursor_left, htakes.cursor⟩

/-- A source that fails inside an instruction, after two of its four bytes. -/
def brokenSource : Source :=
  ⟨[.piece [0x66, 0xB8], .failure ⟨.brokenPipe, "reset"⟩, .piece [0x34, 0x12]]⟩

/-- The law at work: the first step reports the failure and loses neither of the two bytes. -/
theorem outcomes_brokenSource :
    let d := start brokenSource ⟨4, 0x1000⟩
    d.decodeNext.1 = .error (.stream (.source ⟨.brokenPipe, "reset"⟩)) ∧
      d.decodeNext.2.position = d.position ∧ d.decodeNext.2.input.stream = d.input.stream ∧
      d.input.cursor = 0 ∧ d.decodeNext.2.input.cursor = 0 := by
  intro d
  have hreport : d.decodeNext.1 = .error (.stream (.source ⟨.brokenPipe, "reset"⟩)) := by
    decide +kernel
  obtain ⟨-, -, -, hstay⟩ := outcomes_withoutFailures brokenSource 4 0x1000
  exact ⟨hreport, hstay 0 _ hreport⟩

end Decoder

end CodeAtlas
