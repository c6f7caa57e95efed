import CodeAtlas.Proofs.Decoder.Sweep
import CodeAtlas.Proofs.Stream.AtHand

/-!
# Refused bytes stay refused

A step that finds the bytes truncated or unrecognized takes none of them and keeps all that it has fetched.
What it has fetched is enough for the same answer again: unrecognized bytes are all in the buffer, and after
truncated ones the source has ended for good.  So from then on every step gives the same answer, and none
reads from the source.  An iteration that is over touches nothing at all.

* `Decoder.StuckInput` — the bytes at hand settle the answer, and it is a refusal;
* `Decoder.stuck_of_refused` — a step that refuses leaves the decoder stuck;
* `Decoder.StuckInput.decodeNext` — a stuck decoder refuses again and writes nothing but its journal;
* `Decoder.Call`, `Decoder.performAll` — runs of steps of either kind, and what is stuck or over stays so
  along them;
* `Decoder.refusals_are_stable` — all this about every run.
-/

namespace CodeAtlas.Decoder

open Grammar

/-! ## A state that differs in its journal -/

/-- Nothing but the journal has changed. -/
def Untouched (r s : Lookahead) : Prop :=
  ∃ journal, s = { r with journal := journal }

theorem Untouched.refl (r : Lookahead) : Untouched r r :=
  ⟨r.journal, rfl⟩

theorem Untouched.trans {r s t : Lookahead} (h₁ : Untouched r s) (h₂ : Untouched s t) : Untouched r t := by
  obtain ⟨j, rfl⟩ := h₁
  obtain ⟨k, rfl⟩ := h₂
  exact ⟨k, rfl⟩

/-- An attempt that gives up puts the cursor back and writes its notes. -/
theorem giveUp_untouched (offset : UInt64) (halt : Halt) {back : Lookahead.Checkpoint} {r : Lookahead}
    (h : back.place ≤ r.buffered) :
    ∃ s, giveUp offset back halt r = .error (faultOf offset r halt) s ∧ Untouched (r.moveTo back.place) s := by
  obtain ⟨journal, hnotes⟩ := Lookahead.foldl_note (notesOf offset (faultOf offset r halt)) r
  refine ⟨({ r with journal := journal } : Lookahead).moveTo back.place, ?_, ⟨journal, rfl⟩⟩
  have hplace : back.place ≤ ({ r with journal := journal } : Lookahead).buffered := h
  simp only [giveUp, hnotes, Lookahead.restore, if_pos hplace]

/-! ## Stuck decoders -/

/-- The bytes at hand are refused with the given fault, and nothing more is wanted for that. -/
structure StuckInput (fault : DecodeFault) (r : Lookahead) : Prop where
  cursor : r.cursor = 0
  nonempty : r.buffer.toList ≠ []
  refused : verdict r.position r.buffer.toList = .error fault
  settled : Encoding.instruction.run r.buffer.toList ≠ .incomplete ∨ r.exhausted = true

theorem StuckInput.of_untouched {fault : DecodeFault} {r s : Lookahead} (h : StuckInput fault r)
    (hs : Untouched r s) : StuckInput fault s := by
  obtain ⟨journal, rfl⟩ := hs
  exact ⟨h.cursor, h.nonempty, h.refused, h.settled⟩

theorem StuckInput.held {fault : DecodeFault} {r : Lookahead} (h : StuckInput fault r) :
    r.held = r.buffer.toList := by
  rw [Lookahead.held, h.cursor, List.drop_zero]

/-- The bytes read so far are buffered bytes. -/
theorem bytesRead_moveTo {r : Lookahead} {n : Nat} (h : n ≤ r.buffered) :
    bytesRead (r.moveTo n) = r.buffer.toList.take n := by
  have hpending : (r.moveTo n).pending = .ok (r.buffer.toList.take n) := Lookahead.pending_eq h
  rw [bytesRead, hpending]

/-- An attempt on bytes at hand that are refused is refused, without a read. -/
theorem StuckInput.attempt {fault : DecodeFault} {r : Lookahead} (h : StuckInput fault r) :
    ∃ s, attempt r = .error fault s ∧ Untouched r s := by
  have hback : ∀ n, r.checkpoint.place ≤ (r.moveTo n).buffered := by
    intro n
    show r.cursor ≤ r.buffered
    rw [h.cursor]
    exact Nat.zero_le _
  have hfollow := Lookahead.follow_eq_atHand Encoding.instruction (hback 0) (by rw [h.held]; exact h.settled)
  have hrefused := h.refused
  rw [h.held] at hfollow
  unfold Decoder.attempt
  rw [hfollow]
  rw [verdict] at hrefused
  cases hrun : Encoding.instruction.run r.buffer.toList with
  | accepted a rest =>
    rw [hrun] at hrefused
    cases hrefused
  | incomplete =>
    rw [hrun] at hrefused
    cases hrefused
    obtain ⟨s, hgive, huntouched⟩ := giveUp_untouched r.position .ended (hback r.buffered)
    refine ⟨s, ?_, huntouched⟩
    show giveUp r.position r.checkpoint .ended (r.moveTo r.buffered) = _
    rw [hgive, faultOf, bytesRead_moveTo (Nat.le_refl _), ← r.length_buffer, List.take_length]
  | rejected rest =>
    rw [hrun] at hrefused
    cases hrefused
    obtain ⟨s, hgive, huntouched⟩ :=
      giveUp_untouched r.position .rejected (hback (r.buffered - rest.length))
    refine ⟨s, ?_, huntouched⟩
    show giveUp r.position r.checkpoint .rejected (r.moveTo (r.buffered - rest.length)) = _
    rw [hgive, faultOf, bytesRead_moveTo (Nat.sub_le _ _), r.length_buffer]

/-- **A stuck decoder refuses again** and writes nothing but its journal. -/
theorem StuckInput.decodeNext {fault : DecodeFault} {d : Decoder} (h : StuckInput fault d.input) :
    ∃ s, d.decodeNext = (.error fault, { d with input := s }) ∧ Untouched d.input s := by
  obtain ⟨b, bs, hbuffer⟩ := List.exists_cons_of_ne_nil h.nonempty
  have hlt : d.input.cursor < d.input.buffered := by
    have hlen := d.input.length_buffer
    rw [hbuffer, List.length_cons] at hlen
    rw [h.cursor]
    omega
  have hdata : Lookahead.hasData d.input = .ok true d.input := by
    unfold Lookahead.hasData
    rw [Lookahead.peek_of_ready (Or.inl hlt), h.cursor, hbuffer]
    rfl
  obtain ⟨s, hattempt, huntouched⟩ := h.attempt
  refine ⟨s, ?_, huntouched⟩
  simp only [Decoder.decodeNext, hdata, hattempt]

/-! ## How a decoder gets stuck -/

/-- Rejected bytes are all in the buffer, so the buffer alone is rejected after as many of them. -/
theorem run_buffer_of_rejected {r r' : Lookahead} (hc : r.cursor = 0) (hreads : r.Reads r')
    (hrun : Encoding.instruction.run r.ahead = .rejected r'.ahead) :
    Encoding.instruction.run r'.buffer.toList = .rejected (r'.buffer.toList.drop r'.cursor) := by
  have hview : r'.cursor ≤ r'.buffer.toList.length := by
    rw [Lookahead.length_buffer]
    exact hreads.within
  have hahead : r.ahead = r'.stream := by
    rw [Lookahead.ahead, hc, hreads.stream]
    rfl
  obtain ⟨e, he, hsettled, -⟩ := exists_of_run_rejected hrun
  have htake : e = r'.buffer.toList.take r'.cursor := by
    have hfront : e = r'.stream.take r'.cursor := by
      rw [hahead, Lookahead.ahead] at he
      exact List.append_cancel_right (he.symm.trans (List.take_append_drop r'.cursor r'.stream).symm)
    rw [hfront, Lookahead.stream, List.take_append_of_le_length hview]
  have hall := run_append_of_rejected hsettled (r'.buffer.toList.drop r'.cursor)
  rwa [htake, List.take_append_drop] at hall

/-- After rejected bytes, with the cursor put back. -/
theorem stuck_of_rejected {r r' : Lookahead} (hc : r.cursor = 0) (hreads : r.Reads r')
    (hrun : Encoding.instruction.run r.ahead = .rejected r'.ahead) :
    StuckInput (faultOf r.position r' .rejected) (r'.moveTo 0) := by
  have hbuffer := run_buffer_of_rejected hc hreads hrun
  have hwithin : r'.cursor ≤ r'.buffer.toList.length := by
    rw [Lookahead.length_buffer]
    exact hreads.within
  have hlen : r'.buffer.toList.length - (r'.buffer.toList.drop r'.cursor).length = r'.cursor := by
    rw [List.length_drop]
    omega
  have hread : bytesRead r' = r'.buffer.toList.take r'.cursor := bytesRead_moveTo hreads.within
  refine ⟨rfl, ?_, ?_, Or.inl ?_⟩
  · -- no bytes at all are not yet rejected
    intro hnil
    rw [show r'.buffer.toList = [] from hnil] at hbuffer
    cases hbuffer
  · show verdict r'.position r'.buffer.toList = _
    rw [verdict, hbuffer, faultOf, hread, hreads.position]
    show Except.error (DecodeFault.unrecognized r.position _) = _
    rw [hlen]
  · intro hincomplete
    cases hbuffer.symm.trans hincomplete

/-- After bytes that ran out, with the cursor put back: the source has ended, and all that is left of the
stream is in the buffer. -/
theorem stuck_of_ended {r r' : Lookahead} (hc : r.cursor = 0) (hne : r.stream ≠ [])
    (hreads : r.Reads r') (hrun : Encoding.instruction.run r.ahead = .incomplete)
    (hnil : r'.ahead = []) (hover : r'.exhausted = true) :
    StuckInput (faultOf r.position r' .ended) (r'.moveTo 0) := by
  have hall : r'.stream = r'.buffer.toList := by
    rw [Lookahead.stream, if_pos hover, List.append_nil]
  have hbuffer : r.ahead = r'.buffer.toList := by
    rw [Lookahead.ahead, hc, ← hreads.stream, hall]
    rfl
  have hread : bytesRead r' = r'.buffer.toList := by
    rw [Lookahead.bytesRead_eq hreads.within, ← hall]
    exact List.take_of_length_le (List.drop_eq_nil_iff.1 hnil)
  refine ⟨rfl, ?_, ?_, Or.inr hover⟩
  · show r'.buffer.toList ≠ []
    rw [← hall, hreads.stream]
    exact hne
  · show verdict r'.position r'.buffer.toList = _
    rw [verdict, ← hbuffer, hrun, faultOf, hread, hreads.position, hbuffer]

/-- An attempt that refuses the bytes has fetched all that it takes to refuse them. -/
theorem stuck_of_attempt {r s : Lookahead} {fault : DecodeFault} (hc : r.cursor = 0)
    (hne : r.stream ≠ []) (hfault : ∀ f, fault ≠ .stream f) (h : attempt r = .error fault s) :
    StuckInput fault s := by
  have hfollow := Lookahead.follow_followed Encoding.instruction r (by rw [hc]; exact Nat.zero_le _)
  have hended := @Lookahead.exhausted_of_follow_ended _ Encoding.instruction r
  have hgive : ∀ (halt : Halt) (r' : Lookahead),
      ∃ t, giveUp r.position r.checkpoint halt r' = .error (faultOf r.position r' halt) t ∧
        Untouched (r'.moveTo 0) t := by
    intro halt r'
    rw [← hc]
    exact giveUp_untouched r.position halt (by show r.cursor ≤ _; rw [hc]; exact Nat.zero_le _)
  unfold attempt at h
  generalize Lookahead.follow Encoding.instruction r = result at hfollow hended h
  cases hfollow with
  | @accepted a r' hreads _ _ =>
    obtain ⟨t, haccept, -, -⟩ := accept_eq a.1 a.2 hreads
    cases haccept.symm.trans h
  | @failed e r' _ _ =>
    obtain ⟨t, ht, -⟩ := hgive (.stream (.source e)) r'
    cases ht.symm.trans h
    exact absurd rfl (hfault _)
  | @rejected r' hreads _ hrun =>
    obtain ⟨t, ht, huntouched⟩ := hgive .rejected r'
    cases ht.symm.trans h
    exact (stuck_of_rejected hc hreads hrun).of_untouched huntouched
  | @ended r' hreads _ hrun hnil =>
    obtain ⟨t, ht, huntouched⟩ := hgive .ended r'
    cases ht.symm.trans h
    exact (stuck_of_ended hc hne hreads hrun hnil (hended rfl)).of_untouched huntouched

/-- **A step that refuses the bytes leaves the decoder stuck.** -/
theorem stuck_of_refused {d : Decoder} {fault : DecodeFault} (hc : d.input.cursor = 0)
    (hfault : ∀ f, fault ≠ .stream f) (h : d.decodeNext.1 = .error fault) :
    StuckInput fault d.decodeNext.2.input := by
  have hlook : Lookahead.Looked 0 d.input (Lookahead.peek d.input) := by
    have h := Lookahead.peekByte_looked 0 d.input
    rwa [hc] at h
  unfold Decoder.decodeNext Lookahead.hasData at h ⊢
  generalize Lookahead.peek d.input = result at hlook h ⊢
  cases hlook with
  | @failed e r _ _ =>
    cases h
    exact absurd rfl (hfault _)
  | @ended r _ _ _ => cases h
  | @found b r hfetch _ hb _ =>
    have hne : r.stream ≠ [] := by
      intro hnil
      rw [← hfetch.stream, hnil] at hb
      cases hb
    simp only [Option.isSome_some] at h ⊢
    cases hattempt : attempt r with
    | ok i s =>
      rw [hattempt] at h
      cases h
    | error e s =>
      rw [hattempt] at h
      cases h
      exact stuck_of_attempt (hfetch.cursor.trans hc) hne hfault hattempt

/-! ## Runs -/

/-- A step that a user of a decoder can take. -/
inductive Call where
  | decodeNext
  | next
deriving DecidableEq

/-- The decoder after a step. -/
def perform (d : Decoder) : Call → Decoder
  | .decodeNext => d.decodeNext.2
  | .next => d.next.2

/-- The decoder after some steps. -/
def performAll (d : Decoder) (calls : List Call) : Decoder :=
  calls.foldl perform d

/-- A step of the iteration does to the input what a step does, or nothing. -/
theorem input_next (d : Decoder) :
    d.next.2.input = d.input ∨ d.next.2.input = d.decodeNext.2.input := by
  unfold next
  split
  · exact Or.inl rfl
  · right
    split
    · next heq => rw [heq]
    · next heq => rw [heq]
    · next heq => rw [heq]

theorem input_perform (d : Decoder) (c : Call) :
    (d.perform c).input = d.input ∨ (d.perform c).input = d.decodeNext.2.input := by
  cases c with
  | decodeNext => exact Or.inr rfl
  | next => exact d.input_next

/-- What every step keeps of the input, a run keeps. -/
theorem input_performAll {p : Lookahead → Prop}
    (hstep : ∀ d : Decoder, p d.input → p d.decodeNext.2.input) (calls : List Call) :
    ∀ {d : Decoder}, p d.input → p (d.performAll calls).input := by
  induction calls with
  | nil => exact id
  | cons c calls ih =>
    intro d hd
    apply ih (d := d.perform c)
    rcases d.input_perform c with h | h
    · rw [h]
      exact hd
    · rw [h]
      exact hstep d hd

/-- Between steps the cursor is where the next instruction starts. -/
theorem cursor_performAll_start (s : Source) (c : DecoderConfig) (calls : List Call) :
    ((start s c).performAll calls).input.cursor = 0 := by
  refine input_performAll (p := fun r => r.cursor = 0) ?_ calls rfl
  intro d hd
  have hstep := decodeNext_stepped hd
  generalize d.decodeNext = step at hstep ⊢
  cases hstep with
  | answered _ htakes _ => exact htakes.cursor
  | failed htakes _ => exact htakes.cursor

/-- A stuck decoder stays as it is, whatever steps it takes. -/
theorem StuckInput.performAll {fault : DecodeFault} {d : Decoder} (h : StuckInput fault d.input)
    (calls : List Call) : Untouched d.input (d.performAll calls).input := by
  refine input_performAll (p := Untouched d.input) ?_ calls (Untouched.refl _)
  intro e he
  obtain ⟨s, hs, huntouched⟩ := (h.of_untouched he).decodeNext
  rw [hs]
  exact he.trans huntouched

/-- So after any steps it refuses again. -/
theorem StuckInput.decodeNext_performAll {fault : DecodeFault} {d : Decoder} (h : StuckInput fault d.input)
    (calls : List Call) :
    ∃ s, (d.performAll calls).decodeNext = (.error fault, { d.performAll calls with input := s }) ∧
      Untouched d.input s := by
  have hkept := h.performAll calls
  obtain ⟨s, hstep, huntouched⟩ := (h.of_untouched hkept).decodeNext
  exact ⟨s, hstep, hkept.trans huntouched⟩

/-! ## Iterations that are over -/

/-- An iteration is over after its end and after a fault. -/
theorem finished_of_next {d : Decoder} (h : d.next.1 = none ∨ ∃ fault, d.next.1 = some (.error fault)) :
    d.next.2.finished = true := by
  unfold next at h ⊢
  split at h
  · next hfinished =>
    rw [if_pos hfinished]
    exact hfinished
  · next hopen =>
    rw [if_neg hopen]
    split at h
    · rcases h with h | ⟨_, h⟩ <;> cases h
    · rfl
    · rfl

theorem next_of_finished {d : Decoder} (h : d.finished = true) : d.next = (none, d) := by
  rw [next, if_pos h]

/-- An iteration that is over stays over. -/
theorem finished_performAll (calls : List Call) :
    ∀ {d : Decoder}, d.finished = true → (d.performAll calls).finished = true := by
  induction calls with
  | nil => exact id
  | cons c calls ih =>
    intro d hd
    apply ih (d := d.perform c)
    cases c with
    | decodeNext => exact d.finished_decodeNext.trans hd
    | next =>
      show d.next.2.finished = true
      rw [next_of_finished hd]
      exact hd

/-! ## The contract of a refusal -/

/-- A refusal names the offset in question and bytes that stand at the front. -/
theorem of_verdict_error {a offset : UInt64} {bs bytes : List UInt8} {fault : DecodeFault}
    (h : verdict a bs = .error fault)
    (hkind : fault = .truncated offset bytes ∨ fault = .unrecognized offset bytes) :
    offset = a ∧ bytes <+: bs := by
  unfold verdict at h
  split at h
  · cases h
  · cases h
    rcases hkind with hkind | hkind
    · cases hkind
      exact ⟨rfl, List.prefix_refl _⟩
    · cases hkind
  · cases h
    rcases hkind with hkind | hkind
    · cases hkind
    · cases hkind
      exact ⟨rfl, List.take_prefix _ _⟩

/-- What a refusing step comes to: it names the place and the first bytes there, and takes nothing. -/
theorem takes_of_refused {d : Decoder} {fault : DecodeFault} (hc : d.input.cursor = 0)
    (hfault : ∀ f, fault ≠ .stream f) (h : d.decodeNext.1 = .error fault) :
    verdict d.position d.input.stream = .error fault ∧ Takes 0 d.input d.decodeNext.2.input := by
  have hstep := decodeNext_stepped hc
  generalize d.decodeNext = step at hstep h ⊢
  cases hstep with
  | failed _ _ =>
    cases h
    exact absurd rfl (hfault _)
  | @answered result d' hanswer htakes _ =>
    subst h
    refine ⟨?_, htakes⟩
    unfold answer at hanswer
    split at hanswer
    · cases hanswer
    · cases hv : verdict d.position d.input.stream with
      | ok i =>
        rw [hv] at hanswer
        cases hanswer
      | error e =>
        rw [hv] at hanswer
        cases hanswer
        rfl

/-- **Refusals are atomic and stable.**  Take a decoder over any source after any steps.  If its next step
finds the bytes truncated or unrecognized, then it names the position it was at and the first bytes there, and
leaves the position and the cursor where they were; and whatever steps follow, every step after them refuses
the same bytes at the same position, while the source is not read again.  If its iteration reports its end or a
fault, then whatever steps follow, the iteration stays over and leaves the decoder as it is. -/
theorem refusals_are_stable (s : Source) (c : DecoderConfig) (calls : List Call) :
    let d := (start s c).performAll calls
    let d' := d.decodeNext.2
    (∀ fault offset bytes, fault = .truncated offset bytes ∨ fault = .unrecognized offset bytes →
      d.decodeNext.1 = .error fault →
        offset = d.position ∧ bytes <+: d.input.stream ∧ d'.position = d.position ∧
        d.input.cursor = 0 ∧ d'.input.cursor = 0 ∧
        ∀ later,
          let e := d'.performAll later
          e.decodeNext.1 = .error fault ∧ e.decodeNext.2.position = d.position ∧
          e.decodeNext.2.input.source = d'.input.source ∧
          e.decodeNext.2.input.demands = d'.input.demands) ∧
    (d.next.1 = none ∨ (∃ fault, d.next.1 = some (.error fault)) →
      ∀ later, (d.next.2.performAll later).next = (none, d.next.2.performAll later)) := by
  intro d d'
  have hcursor : d.input.cursor = 0 := cursor_performAll_start s c calls
  refine ⟨?_, ?_⟩
  · intro fault offset bytes hkind h
    have hfault : ∀ f, fault ≠ .stream f := by
      intro f hf
      rcases hkind with rfl | rfl <;> cases hf
    obtain ⟨hverdict, htakes⟩ := takes_of_refused hcursor hfault h
    obtain ⟨hoffset, hfront⟩ := of_verdict_error hverdict hkind
    have hplace : d'.position = d.position := htakes.position.trans (UInt64.add_zero _)
    refine ⟨hoffset, hfront, hplace, hcursor, htakes.cursor, ?_⟩
    intro later e
    obtain ⟨r, hstep, hsame⟩ := (stuck_of_refused hcursor hfault h).decodeNext_performAll later
    obtain ⟨journal, rfl⟩ := hsame
    rw [hstep]
    exact ⟨rfl, hplace, rfl, rfl⟩
  · intro h later
    exact next_of_finished (finished_performAll later (finished_of_next h))

/-- A source that ends inside an instruction and would go on after that. -/
def resumingSource : Source :=
  ⟨[.piece [0x90, 0x66], .piece [], .piece [0xB8, 0x34, 0x12]]⟩

/-- The law at work: after the end has been met once, the bytes that would follow are not asked for. -/
theorem refusals_resumingSource :
    let d := (start resumingSource ⟨4, 0x1000⟩).performAll [.next]
    d.decodeNext.1 = .error (.truncated 0x1001 [0x66]) ∧
      (∀ later, (d.decodeNext.2.performAll later).decodeNext.1 = .error (.truncated 0x1001 [0x66]) ∧
        (d.decodeNext.2.performAll later).decodeNext.2.input.source.events =
          [.piece [0xB8, 0x34, 0x12]]) ∧
      d.next.1 = some (.error (.truncated 0x1001 [0x66])) ∧
      ∀ later, (d.next.2.performAll later).next.1 = none := by
  intro d
  have hstep : d.decodeNext.1 = .error (.truncated 0x1001 [0x66]) := by decide +kernel
  have hsource : d.decodeNext.2.input.source.events = [.piece [0xB8, 0x34, 0x12]] := by decide +kernel
  have hnext : d.next.1 = some (.error (.truncated 0x1001 [0x66])) := by decide +kernel
  obtain ⟨hrefused, hover⟩ := refusals_are_stable resumingSource ⟨4, 0x1000⟩ [.next]
  obtain ⟨-, -, -, -, -, hlater⟩ := hrefused _ _ _ (Or.inl rfl) hstep
  refine ⟨hstep, ?_, hnext, ?_⟩
  · intro later
    obtain ⟨hsame, -, hkept, -⟩ := hlater later
    exact ⟨hsame, (congrArg Source.events hkept).trans hsource⟩
  · intro later
    exact congrArg Prod.fst (hover (Or.inr ⟨_, hnext⟩) later)

end CodeAtlas.Decoder
