import CodeAtlas.Proofs.Decoder.Integrity

/-!
# No byte is asked for before it is needed

A read of the source may wait for a long time, so it matters when one is made.  A step of the decoder reads only
while it has fewer bytes than its own answer takes: an instruction is never kept waiting for the bytes after it,
and unrecognized bytes are refused as soon as they are there.

* `Lookahead.Demands` — the reads between two states, and how many bytes were buffered at each;
* `Lookahead.fill_demands`, `Lookahead.follow_demands` — fetching reads only while too little is buffered, and
  following a grammar to its end only before the last byte that it takes;
* `Decoder.decodeNext_demands` — the reads of a step;
* `Decoder.decodeNext_of_buffered` — a step that finds its answer in the buffer;
* `Decoder.reads_are_needed` — both about every run.
-/

namespace CodeAtlas

open Grammar

namespace Lookahead

/-! ## Reads and what was buffered at them -/

/-- The reads that lead from `r` to `r'` met the given numbers of buffered bytes, the latest first.  Bytes were
only added in between, each number is less than `n`, and without a read the source is as it was. -/
structure Demands (n : Nat) (new : List Nat) (r r' : Lookahead) : Prop where
  buffered_le : r.buffered ≤ r'.buffered
  demands : r'.demands = new ++ r.demands
  bounds : ∀ k ∈ new, r.buffered ≤ k ∧ k < n
  source : new = [] → r'.source = r.source

theorem Demands.refl (n : Nat) (r : Lookahead) : Demands n [] r r where
  buffered_le := Nat.le_refl _
  demands := rfl
  bounds := fun _ hk => absurd hk List.not_mem_nil
  source := fun _ => rfl

theorem Demands.trans {m n : Nat} {old new : List Nat} {r s t : Lookahead} (hmn : m ≤ n)
    (h₁ : Demands m old r s) (h₂ : Demands n new s t) : Demands n (new ++ old) r t where
  buffered_le := Nat.le_trans h₁.buffered_le h₂.buffered_le
  demands := by rw [h₂.demands, h₁.demands, List.append_assoc]
  bounds := by
    intro k hk
    have hgrown := h₁.buffered_le
    rcases List.mem_append.1 hk with hk | hk
    · have hbounds := h₂.bounds k hk
      omega
    · have hbounds := h₁.bounds k hk
      omega
  source := by
    intro hnil
    obtain ⟨hnew, hold⟩ := List.append_eq_nil_iff.1 hnil
    rw [h₂.source hnew, h₁.source hold]

/-- Where everything was buffered to begin with, there was no read. -/
theorem Demands.nothing {n : Nat} {new : List Nat} {r r' : Lookahead} (h : Demands n new r r')
    (hn : n ≤ r.buffered) : new = [] := by
  rw [List.eq_nil_iff_forall_not_mem]
  intro k hk
  have hbounds := h.bounds k hk
  omega

/-- One read. -/
theorem demands_read {n : Nat} {r r' : Lookahead} (hn : r.buffered < n) (hle : r.buffered ≤ r'.buffered)
    (hdemands : r'.demands = r.buffered :: r.demands) : Demands n [r.buffered] r r' where
  buffered_le := hle
  demands := hdemands
  bounds := by
    intro k hk
    obtain rfl := List.mem_singleton.1 hk
    exact ⟨Nat.le_refl _, hn⟩
  source := fun hnil => absurd hnil (List.cons_ne_nil _ _)

theorem buffered_le_afterRead (r : Lookahead) (source : Source) : r.buffered ≤ (r.afterRead source).buffered :=
  Nat.le_of_eq (r.buffered_afterRead source).symm

/-- **Fetching** reads only while fewer bytes are buffered than asked for. -/
theorem fill_demands (needed : Nat) (r : Lookahead) :
    ∃ new, Demands needed new r (final (r.fill needed)) := by
  fun_induction fill needed r with
  | case1 r hneed source hread => exact ⟨_, demands_read hneed.1 (r.buffered_le_afterRead source) rfl⟩
  | case2 r hneed b bs source hread buffer hpush ih =>
    obtain ⟨new, hnew⟩ := ih
    have hrem := (Source.of_read_bytes hread).1
    have hgrown := (fetches_push hneed.2 hrem hpush).buffered_le
    exact ⟨_, (demands_read hneed.1 hgrown rfl).trans (Nat.le_refl _) hnew⟩
  | case3 r hneed b bs source hread f hpush =>
    exact ⟨_, demands_read hneed.1 (r.buffered_le_afterRead source) rfl⟩
  | case4 r hneed f source hread hkind ih =>
    obtain ⟨new, hnew⟩ := ih
    exact ⟨_, (demands_read hneed.1 (r.buffered_le_afterRead source) rfl).trans (Nat.le_refl _) hnew⟩
  | case5 r hneed f source hread hkind =>
    exact ⟨_, demands_read hneed.1 (r.buffered_le_afterRead source) rfl⟩
  | case6 r hneed => exact ⟨[], .refl _ _⟩

theorem peek_demands (r : Lookahead) : ∃ new, Demands (r.cursor + 1) new r (final (peek r)) := by
  have hfinal : final (peek r) = final (r.fill (r.cursor + 1)) := final_peekByte 0 r
  rw [hfinal]
  exact r.fill_demands (r.cursor + 1)

/-! ## Following a grammar -/

/-- Following a grammar came to an accepting or a rejecting end in the given state. -/
def EndsIn {α : Type} (r' : Lookahead) (result : EStateM.Result Halt Lookahead α) : Prop :=
  (∃ a, result = .ok a r') ∨ result = .error .rejected r'

/-- What a grammar goes on with after a byte ends where the grammar ends. -/
theorem exists_of_endsIn_byte {α : Type} {next : UInt8 → Grammar α} {r r' : Lookahead}
    (h : EndsIn r' (follow (.byte next) r)) :
    ∃ b s, final (peek r) = s ∧ s.cursor = r.cursor ∧
      EndsIn r' (follow (next b) (s.moveTo (r.cursor + 1))) := by
  have hlook : Looked r.cursor r (peek r) := peekByte_looked 0 r
  unfold follow nextByte at h
  generalize peek r = result at hlook h ⊢
  cases hlook with
  | @found b s hfetch _ _ _ =>
    refine ⟨b, s, rfl, hfetch.cursor, ?_⟩
    rw [← hfetch.cursor]
    exact h
  | ended _ _ _ => rcases h with ⟨a, h⟩ | h <;> cases h
  | failed _ _ => rcases h with ⟨a, h⟩ | h <;> cases h

/-- **Following a grammar** to its end, every read comes before the last byte that is taken. -/
theorem follow_demands {α : Type} (g : Grammar α) :
    ∀ {r r' : Lookahead}, EndsIn r' (follow g r) →
      r.cursor ≤ r'.cursor ∧ ∃ new, Demands r'.cursor new r r' := by
  induction g with
  | accept a =>
    intro r r' h
    rcases h with ⟨b, h⟩ | h
    · cases h
      exact ⟨Nat.le_refl _, [], .refl _ _⟩
    · cases h
  | reject =>
    intro r r' h
    rcases h with ⟨b, h⟩ | h
    · cases h
    · cases h
      exact ⟨Nat.le_refl _, [], .refl _ _⟩
  | byte next ih =>
    intro r r' h
    obtain ⟨b, s, hpeek, hcursor, hend⟩ := exists_of_endsIn_byte h
    obtain ⟨hle, new, hnew⟩ := ih b hend
    obtain ⟨old, hold⟩ := r.peek_demands
    rw [hpeek] at hold
    -- moving the cursor is no read
    have hmoved : Demands (r.cursor + 1) old r (s.moveTo (r.cursor + 1)) :=
      ⟨hold.buffered_le, hold.demands, hold.bounds, hold.source⟩
    exact ⟨Nat.le_of_succ_le hle, _, hmoved.trans hle hnew⟩

end Lookahead

namespace Decoder

open Lookahead

/-! ## Attempts -/

/-- How many bytes an answer takes: those of the instruction, or those that are unrecognized. -/
def needed : Except DecodeFault (Option Decoded) → Option Nat
  | .ok (some i) => some i.length
  | .error (.unrecognized _ bytes) => some bytes.length
  | _ => none

/-- What a step answers after an attempt. -/
def outcome : EStateM.Result DecodeFault Lookahead Decoded → Except DecodeFault (Option Decoded)
  | .ok i _ => .ok (some i)
  | .error fault _ => .error fault

theorem decodeNext_of_hasData {d : Decoder} {r : Lookahead} (h : hasData d.input = .ok true r) :
    d.decodeNext = (outcome (attempt r), { d with input := final (attempt r) }) := by
  unfold decodeNext
  rw [h]
  show (match attempt r with | .ok i r' => _ | .error fault r' => _) = _
  cases attempt r <;> rfl

/-- An attempt that accepts commits what it has read, which is no read of its own. -/
theorem attempt_of_accepted {r r' : Lookahead} {p : Prefixes} {i : Instruction} (hreads : r.Reads r')
    (h : follow Encoding.instruction r = .ok (p, i) r') :
    ∃ s, attempt r = .ok ⟨r.position, r'.cursor, p, i⟩ s ∧ s.demands = r'.demands ∧ s.source = r'.source := by
  obtain ⟨s, haccept, -, -⟩ := accept_eq p i hreads
  have hkept : (final (accept r.position p i r')).demands = r'.demands ∧
      (final (accept r.position p i r')).source = r'.source := by
    unfold accept commit
    cases r'.buffer.discardFront r'.cursor <;> exact ⟨rfl, rfl⟩
  rw [haccept] at hkept
  refine ⟨s, ?_, hkept⟩
  rw [attempt, h]
  exact haccept

/-- An attempt that does not accept puts the cursor back, which is no read either. -/
theorem attempt_of_halted {r r' : Lookahead} {halt : Halt} (hc : r.cursor = 0)
    (h : follow Encoding.instruction r = .error halt r') :
    ∃ s, attempt r = .error (faultOf r.position r' halt) s ∧ s.demands = r'.demands ∧
      s.source = r'.source := by
  have hplace : r.checkpoint.place ≤ r'.buffered := by
    show r.cursor ≤ r'.buffered
    rw [hc]
    exact Nat.zero_le _
  obtain ⟨s, hgive, journal, hs⟩ := giveUp_untouched r.position halt hplace
  refine ⟨s, ?_, ?_, ?_⟩
  · rw [attempt, h]
    exact hgive
  · rw [hs]
    rfl
  · rw [hs]
    rfl

/-- An attempt that accepts or rejects ends after as many bytes as its answer takes. -/
theorem exists_end_of_attempt {r : Lookahead} (hc : r.cursor = 0) {n : Nat}
    (h : needed (outcome (attempt r)) = some n) :
    ∃ r', EndsIn r' (follow Encoding.instruction r) ∧ r'.cursor = n ∧
      (final (attempt r)).demands = r'.demands ∧ (final (attempt r)).source = r'.source := by
  have hfollow := follow_followed Encoding.instruction r (by rw [hc]; exact Nat.zero_le _)
  cases hresult : follow Encoding.instruction r with
  | ok a r' =>
    rw [hresult] at hfollow
    cases hfollow with
    | accepted hreads _ _ =>
      obtain ⟨s, hattempt, hkept⟩ := attempt_of_accepted hreads hresult
      rw [hattempt] at h ⊢
      exact ⟨r', Or.inl ⟨a, rfl⟩, Option.some.inj h, hkept⟩
  | error halt r' =>
    rw [hresult] at hfollow
    obtain ⟨s, hattempt, hkept⟩ := attempt_of_halted hc hresult
    rw [hattempt] at h ⊢
    cases hfollow with
    | rejected hreads _ _ =>
      have hlength : (bytesRead r').length = r'.cursor := by
        have hstream := r'.buffered_le_length_stream
        have hwithin := hreads.within
        rw [bytesRead_eq hreads.within, List.length_take]
        omega
      exact ⟨r', Or.inr rfl, hlength.symm.trans (Option.some.inj h), hkept⟩
    | ended _ _ _ _ => cases h
    | failed _ _ => cases h

/-! ## Steps -/

/-- An instruction begins with a byte. -/
theorem cursor_pos_of_endsIn {r r' : Lookahead} (h : EndsIn r' (follow Encoding.instruction r)) :
    1 ≤ r'.cursor := by
  obtain ⟨next, hbyte⟩ : ∃ next, Encoding.instruction = .byte next := ⟨_, rfl⟩
  rw [hbyte] at h
  obtain ⟨b, s, -, -, hend⟩ := exists_of_endsIn_byte h
  exact Nat.le_trans (Nat.le_add_left 1 r.cursor) (follow_demands (next b) hend).1

/-- **A step** reads only while it has fewer bytes than its answer takes. -/
theorem decodeNext_demands {d : Decoder} (hc : d.input.cursor = 0) {n : Nat}
    (h : needed d.decodeNext.1 = some n) :
    ∃ new r', Demands n new d.input r' ∧ d.decodeNext.2.input.demands = r'.demands ∧
      d.decodeNext.2.input.source = r'.source := by
  obtain ⟨old, hold⟩ := d.input.peek_demands
  cases hdata : hasData d.input with
  | error f r =>
    rw [decodeNext, hdata] at h
    cases h
  | ok b r =>
    have hpeek : final (peek d.input) = r := by
      unfold hasData at hdata
      cases hresult : peek d.input with
      | ok c s =>
        rw [hresult] at hdata
        cases hdata
        rfl
      | error f s =>
        rw [hresult] at hdata
        cases hdata
    rw [hpeek, hc] at hold
    cases b with
    | false =>
      rw [decodeNext, hdata] at h
      cases h
    | true =>
      have hcursor : r.cursor = 0 := (cursor_of_hasData hdata).trans hc
      rw [decodeNext_of_hasData hdata] at h ⊢
      obtain ⟨r', hend, hn, hkept⟩ := exists_end_of_attempt hcursor h
      obtain ⟨-, new, hnew⟩ := follow_demands _ hend
      have hpos := cursor_pos_of_endsIn hend
      rw [hn] at hnew hpos
      exact ⟨_, r', hold.trans hpos hnew, hkept⟩

theorem hasData_of_buffered {r : Lookahead} (h : r.cursor < r.buffered) : hasData r = .ok true r := by
  have hlen : r.cursor < r.buffer.toList.length := by
    rw [length_buffer]
    exact h
  rw [hasData, peek_of_ready (Or.inl h), List.getElem?_eq_getElem hlen]
  rfl

/-- An attempt that finds its answer in the buffer makes no read. -/
theorem attempt_of_buffered {r : Lookahead} (hc : r.cursor = 0)
    (h : Encoding.instruction.run r.buffer.toList ≠ .incomplete) :
    outcome (attempt r) = (verdict r.position r.buffer.toList).map some ∧
      (final (attempt r)).demands = r.demands ∧ (final (attempt r)).source = r.source := by
  have hheld : r.held = r.buffer.toList := by
    rw [held, hc, List.drop_zero]
  have hwithin : r.cursor ≤ r.buffered := by
    rw [hc]
    exact Nat.zero_le _
  have hfollow := follow_eq_atHand Encoding.instruction hwithin (Or.inl (by rw [hheld]; exact h))
  rw [hheld] at hfollow
  cases hrun : Encoding.instruction.run r.buffer.toList with
  | incomplete => exact absurd hrun h
  | accepted a rest =>
    rw [hrun] at hfollow
    have hreads : r.Reads (r.moveTo (r.buffered - rest.length)) :=
      ⟨rfl, rfl, by rw [hc]; exact Nat.zero_le _, Nat.sub_le _ _⟩
    obtain ⟨s, hattempt, hkept⟩ := attempt_of_accepted hreads hfollow
    rw [hattempt, verdict, hrun, r.length_buffer]
    exact ⟨rfl, hkept⟩
  | rejected rest =>
    rw [hrun] at hfollow
    obtain ⟨s, hattempt, hkept⟩ := attempt_of_halted hc hfollow
    rw [hattempt, verdict, hrun, faultOf, bytesRead_moveTo (Nat.sub_le _ _), r.length_buffer]
    exact ⟨rfl, hkept⟩

/-- **A step that finds its answer in the buffer** makes no read, whatever the source would do. -/
theorem decodeNext_of_buffered {d : Decoder} (hc : d.input.cursor = 0)
    (h : Encoding.instruction.run d.input.buffer.toList ≠ .incomplete) :
    d.decodeNext.1 = (verdict d.position d.input.buffer.toList).map some ∧
      d.decodeNext.2.input.demands = d.input.demands ∧
      d.decodeNext.2.input.source = d.input.source := by
  have hsome : d.input.cursor < d.input.buffered := by
    rw [hc, ← length_buffer]
    apply List.length_pos_of_ne_nil
    intro hnil
    rw [hnil] at h
    exact h rfl
  rw [decodeNext_of_hasData (hasData_of_buffered hsome)]
  exact attempt_of_buffered hc h

/-! ## Runs -/

/-- **No over-reading.**  Take a decoder over any source, with any chunk size and base address, after any steps.
Every read of its next step finds fewer bytes buffered than the answer takes, which are those of the instruction
or those that are unrecognized; where these were buffered beforehand, there is no read at all and the source is
as it was.  If the buffered bytes alone decode, to an instruction or to unrecognized bytes, then this is the answer
of the step, and there is no read. -/
theorem reads_are_needed (source : Source) (c : DecoderConfig) (calls : List Call) :
    let d := (start source c).performAll calls
    let d' := d.decodeNext.2
    (∀ n, needed d.decodeNext.1 = some n →
      ∃ new, d'.input.demands = new ++ d.input.demands ∧ (∀ k ∈ new, k < n) ∧
        (n ≤ d.input.buffered → new = [] ∧ d'.input.reads = d.input.reads ∧
          d'.input.source = d.input.source)) ∧
    ∀ result, decodeSingle d.input.buffer.toList d.position = result →
      (∀ offset bytes, result ≠ .error (.truncated offset bytes)) →
      d.decodeNext.1 = result.map some ∧ d'.input.reads = d.input.reads ∧
        d'.input.source = d.input.source := by
  intro d d'
  have hcursor : d.input.cursor = 0 := cursor_performAll_start source c calls
  refine ⟨?_, ?_⟩
  · intro n hn
    obtain ⟨new, r', hnew, hdemands, hsource⟩ := decodeNext_demands hcursor hn
    have hall : d'.input.demands = new ++ d.input.demands := hdemands.trans hnew.demands
    refine ⟨new, hall, fun k hk => (hnew.bounds k hk).2, ?_⟩
    intro hbuffered
    have hnil := hnew.nothing hbuffered
    refine ⟨hnil, ?_, hsource.trans (hnew.source hnil)⟩
    rw [Lookahead.reads, hall, hnil]
    rfl
  · intro result hresult hwhole
    rw [decodeSingle_eq_verdict] at hresult
    have hsettled : Encoding.instruction.run d.input.buffer.toList ≠ .incomplete := by
      intro hincomplete
      rw [verdict, hincomplete] at hresult
      exact hwhole _ _ hresult.symm
    obtain ⟨hanswer, hdemands, hsource⟩ := decodeNext_of_buffered hcursor hsettled
    rw [hresult] at hanswer
    refine ⟨hanswer, ?_, hsource⟩
    rw [Lookahead.reads, hdemands]
    rfl

/-- A source that delivers an instruction in two pieces and more in a third, and would fail then. -/
def promptSource : Source :=
  ⟨[.piece [0x90, 0x81], .piece [0xC0, 0x78, 0x56, 0x34, 0x12, 0xC3], .failure ⟨.brokenPipe, "gone"⟩]⟩

/-- The law at work: the second step needs six bytes and makes one read, with one byte buffered; the third finds
its answer in the buffer, and the failure behind it is not met. -/
theorem reads_are_needed_promptSource :
    let d := (start promptSource ⟨16, 0⟩).performAll [.decodeNext]
    let e := (start promptSource ⟨16, 0⟩).performAll [.decodeNext, .decodeNext]
    (needed d.decodeNext.1 = some 6 ∧
      ∃ new, d.decodeNext.2.input.demands = new ++ d.input.demands ∧ ∀ k ∈ new, k < 6) ∧
    e.input.buffer.toList = [0xC3] ∧ (∃ i, e.decodeNext.1 = .ok (some i)) ∧
      e.decodeNext.2.input.reads = e.input.reads := by
  intro d e
  have hneeded : needed d.decodeNext.1 = some 6 := by decide +kernel
  have hbuffer : e.input.buffer.toList = [0xC3] := by decide +kernel
  obtain ⟨new, hnew, hbounds, -⟩ := (reads_are_needed promptSource ⟨16, 0⟩ [.decodeNext]).1 6 hneeded
  have hret : decodeSingle e.input.buffer.toList e.position = .ok ⟨e.position, 1, .empty, .plain .ret⟩ := by
    have hrun : Encoding.instruction.run [0xC3] = .accepted (.empty, .plain .ret) [] := rfl
    rw [hbuffer]
    exact decodeSingle_of_run hrun e.position
  obtain ⟨hanswer, hreads, -⟩ := (reads_are_needed promptSource ⟨16, 0⟩ [.decodeNext, .decodeNext]).2 _ hret
    (fun _ _ hc => by cases hc)
  exact ⟨⟨hneeded, new, hnew, hbounds⟩, hbuffer, ⟨_, hanswer⟩, hreads⟩

end Decoder

end CodeAtlas
