import CodeAtlas.Decoder.Region
import CodeAtlas.Proofs.Stream.Delivery

/-!
# One step of the decoder

A step of the decoder is a matter of the stream alone.  The grammar of instructions is followed byte by byte
over a buffer that is refilled in between; what comes out is what the grammar says about the whole stream as
one list of bytes, and afterwards the stream is shorter by the instruction, or unchanged.

* `Lookahead.follow_followed` — following a grammar is reading it against the bytes ahead;
* `Decoder.verdict`, `Decoder.answer` — what a step makes of the bytes of the stream;
* `Decoder.decodeNext_stepped` — a step gives that answer, or passes on a failure of the source.
-/

namespace CodeAtlas

namespace Lookahead

/-! ## Following a grammar -/

/-- `r'` is `r` with the cursor moved forward over the stream. -/
structure Reads (r r' : Lookahead) : Prop where
  stream : r'.stream = r.stream
  position : r'.position = r.position
  cursor_le : r.cursor ≤ r'.cursor
  within : r'.cursor ≤ r'.buffered

theorem Reads.trans {r s t : Lookahead} (h₁ : r.Reads s) (h₂ : s.Reads t) : r.Reads t where
  stream := h₂.stream.trans h₁.stream
  position := h₂.position.trans h₁.position
  cursor_le := Nat.le_trans h₁.cursor_le h₂.cursor_le
  within := h₂.within

/-- Fetching leaves the cursor where it is. -/
theorem Fetches.reads {r r' : Lookahead} (h : r.Fetches r') (hc : r.cursor ≤ r.buffered) : r.Reads r' where
  stream := h.stream
  position := h.position
  cursor_le := Nat.le_of_eq h.cursor.symm
  within := by
    rw [h.cursor]
    exact Nat.le_trans hc h.buffered_le

/-- Fetching and then stepping over a fetched byte. -/
theorem Fetches.reads_next {r r' : Lookahead} (h : r.Fetches r') (hlt : r.cursor < r'.buffered) :
    r.Reads (r'.moveTo (r'.cursor + 1)) where
  stream := h.stream
  position := h.position
  cursor_le := by
    show r.cursor ≤ r'.cursor + 1
    rw [h.cursor]
    exact Nat.le_succ _
  within := by
    show r'.cursor + 1 ≤ r'.buffered
    rw [h.cursor]
    exact hlt

/-- What following a grammar comes to, in terms of the bytes ahead. -/
inductive Followed {α : Type} (g : Grammar α) (r : Lookahead) : EStateM.Result Halt Lookahead α → Prop
  | accepted {a : α} {r' : Lookahead} : r.Reads r' → r'.source.failures = r.source.failures →
      g.run r.ahead = .accepted a r'.ahead → Followed g r (.ok a r')
  | rejected {r' : Lookahead} : r.Reads r' → r'.source.failures = r.source.failures →
      g.run r.ahead = .rejected r'.ahead → Followed g r (.error .rejected r')
  | ended {r' : Lookahead} : r.Reads r' → r'.source.failures = r.source.failures →
      g.run r.ahead = .incomplete → r'.ahead = [] → Followed g r (.error .ended r')
  | failed {e : Failure} {r' : Lookahead} : r.Reads r' →
      r.source.failures = e :: r'.source.failures → Followed g r (.error (.stream (.source e)) r')

/-- A grammar that asks for a byte is followed if what it goes on with is. -/
theorem Followed.byte {α : Type} {next : UInt8 → Grammar α} {b : UInt8} {r s : Lookahead}
    {result : EStateM.Result Halt Lookahead α} (hread : r.Reads s)
    (hf : s.source.failures = r.source.failures) (hahead : r.ahead = b :: s.ahead)
    (h : Followed (next b) s result) : Followed (.byte next) r result := by
  have hrun : (Grammar.byte next).run r.ahead = (next b).run s.ahead := by
    rw [hahead]
    rfl
  cases h with
  | accepted hreads hfail hv => exact .accepted (hread.trans hreads) (hfail.trans hf) (hrun.trans hv)
  | rejected hreads hfail hv => exact .rejected (hread.trans hreads) (hfail.trans hf) (hrun.trans hv)
  | ended hreads hfail hv hnil =>
    exact .ended (hread.trans hreads) (hfail.trans hf) (hrun.trans hv) hnil
  | failed hreads hfail => exact .failed (hread.trans hreads) (hf.symm.trans hfail)

/-- The byte under the cursor is the first of those ahead. -/
theorem ahead_eq_cons {r r' : Lookahead} {b : UInt8} (h : r.Fetches r')
    (hb : r.stream[r.cursor]? = some b) : r.ahead = b :: (r'.moveTo (r'.cursor + 1)).ahead := by
  obtain ⟨hlt, hget⟩ := List.getElem?_eq_some_iff.1 hb
  show r.stream.drop r.cursor = b :: r'.stream.drop (r'.cursor + 1)
  rw [h.stream, h.cursor, List.drop_eq_getElem_cons hlt, hget]

/-- **Following a grammar is reading it against the bytes ahead**, wherever the refills fall. -/
theorem follow_followed {α : Type} (g : Grammar α) :
    ∀ r : Lookahead, r.cursor ≤ r.buffered → Followed g r (follow g r) := by
  induction g with
  | accept a =>
    intro r hc
    exact .accepted ((Fetches.refl r).reads hc) rfl (Grammar.run_accept a _)
  | reject =>
    intro r hc
    exact .rejected ((Fetches.refl r).reads hc) rfl (Grammar.run_reject _)
  | byte next ih =>
    intro r hc
    have hlook : Looked r.cursor r (peek r) := peekByte_looked 0 r
    unfold follow nextByte
    generalize peek r = result at hlook ⊢
    cases hlook with
    | found hfetch hfail hb hlt =>
      have hreads := hfetch.reads_next hlt
      exact .byte hreads hfail (ahead_eq_cons hfetch hb) (ih _ _ hreads.within)
    | @ended r' hfetch hfail hlen =>
      have hnil : r.ahead = [] := List.drop_eq_nil_of_le hlen
      have hnil' : r'.ahead = [] := by rw [ahead, hfetch.stream, hfetch.cursor]; exact hnil
      exact .ended (hfetch.reads hc) hfail (by rw [hnil]; rfl) hnil'
    | failed hfetch hfail => exact .failed (hfetch.reads hc) hfail

/-! ## Committing and putting back -/

/-- The bytes that an attempt from the front has read are the first of the stream. -/
theorem bytesRead_eq {r : Lookahead} (h : r.cursor ≤ r.buffered) :
    Decoder.bytesRead r = r.stream.take r.cursor := by
  rw [Decoder.bytesRead, pending_eq h, take_stream h]

/-- Committing bytes takes them from the front of the stream. -/
theorem commit_ok {r : Lookahead} {n : Nat} (h : n ≤ r.buffered) :
    ∃ r', commit n r = .ok () r' ∧ r'.stream = r.stream.drop n ∧
      r'.position = r.position + UInt64.ofNat n ∧ r'.cursor = 0 ∧ r'.source = r.source := by
  have hview : n ≤ r.buffer.toList.length := by
    rw [CircularBuffer.length_toList]
    exact h
  cases hd : r.buffer.discardFront n with
  | error f =>
    have hshort := (CircularBuffer.discardFront_eq_error_iff.1 hd).1
    omega
  | ok buffer =>
    obtain ⟨hdrop, -⟩ := CircularBuffer.toList_of_discardFront hd
    refine ⟨{ r with buffer := buffer, position := r.position + UInt64.ofNat n, cursor := 0 },
      ?_, ?_, rfl, rfl, rfl⟩
    · rw [commit, hd]
    · show buffer.toList ++ _ = (r.buffer.toList ++ _).drop n
      rw [hdrop, List.drop_append_of_le_length hview]

/-- Notes change nothing but the journal. -/
theorem foldl_note (notes : List Note) :
    ∀ r : Lookahead, ∃ journal, notes.foldl (fun s n => s.note n) r = { r with journal := journal } := by
  induction notes with
  | nil => exact fun r => ⟨r.journal, rfl⟩
  | cons n notes ih =>
    intro r
    exact ih (r.note n)

end Lookahead

/-! ## Attempts -/

namespace Decoder

/-- What an attempt at `offset` makes of the bytes of the stream. -/
def verdict (offset : UInt64) (bs : List UInt8) : Except DecodeFault Decoded :=
  match Encoding.instruction.run bs with
  | .accepted (p, i) rest => .ok ⟨offset, bs.length - rest.length, p, i⟩
  | .incomplete => .error (.truncated offset bs)
  | .rejected rest => .error (.unrecognized offset (bs.take (bs.length - rest.length)))

/-- `r'` is `r` with `n` bytes fewer in its stream and the cursor at the front. -/
structure Takes (n : Nat) (r r' : Lookahead) : Prop where
  stream : r'.stream = r.stream.drop n
  position : r'.position = r.position + UInt64.ofNat n
  cursor : r'.cursor = 0

/-- What an attempt comes to. -/
inductive Attempted (r : Lookahead) : EStateM.Result DecodeFault Lookahead Decoded → Prop
  | decoded {d : Decoded} {r' : Lookahead} : verdict r.position r.stream = .ok d →
      Takes d.length r r' → r'.source.failures = r.source.failures → Attempted r (.ok d r')
  | refused {fault : DecodeFault} {r' : Lookahead} : verdict r.position r.stream = .error fault →
      Takes 0 r r' → r'.source.failures = r.source.failures → Attempted r (.error fault r')
  | failed {e : Failure} {r' : Lookahead} : Takes 0 r r' →
      r.source.failures = e :: r'.source.failures → Attempted r (.error (.stream (.source e)) r')

/-- An attempt that fails puts the cursor back to the front and reports what it has read. -/
theorem giveUp_eq {r r' : Lookahead} (halt : Halt) (hc : r.cursor = 0) (h : r.Reads r') :
    ∃ s, giveUp r.position r.checkpoint halt r' = .error (faultOf r.position r' halt) s ∧
      Takes 0 r s ∧ s.source = r'.source := by
  obtain ⟨journal, hnotes⟩ :=
    Lookahead.foldl_note (notesOf r.position (faultOf r.position r' halt)) r'
  refine ⟨({ r' with journal := journal } : Lookahead).moveTo 0, ?_, ⟨?_, ?_, rfl⟩, rfl⟩
  · simp only [giveUp, hnotes, Lookahead.restore, Lookahead.checkpoint, hc, Nat.zero_le, if_true]
  · exact h.stream
  · show r'.position = r.position + 0
    rw [h.position, UInt64.add_zero]

/-- An attempt that accepts commits what it has read. -/
theorem accept_eq {r r' : Lookahead} (p : Prefixes) (i : Instruction) (h : r.Reads r') :
    ∃ s, accept r.position p i r' = .ok ⟨r.position, r'.cursor, p, i⟩ s ∧
      Takes r'.cursor r s ∧ s.source = r'.source := by
  obtain ⟨s, hcommit, hstream, hposition, hcursor, hsource⟩ := Lookahead.commit_ok h.within
  refine ⟨s.note (.decoded i.mnemonic r.position r'.cursor), ?_, ⟨?_, ?_, hcursor⟩, hsource⟩
  · rw [accept, hcommit]
  · rw [← h.stream]
    exact hstream
  · rw [← h.position]
    exact hposition

/-- From the front of the stream, the number of bytes read is the length that the grammar has used. -/
theorem length_sub_ahead {r r' : Lookahead} (h : r.Reads r') :
    r.stream.length - r'.ahead.length = r'.cursor := by
  have hle := Nat.le_trans h.within r'.buffered_le_length_stream
  rw [Lookahead.ahead, List.length_drop, ← h.stream]
  omega

/-- An attempt at the front of the stream comes to what the grammar says about the stream. -/
theorem attempt_attempted {r : Lookahead} (hc : r.cursor = 0) : Attempted r (attempt r) := by
  have hfollow := Lookahead.follow_followed Encoding.instruction r (by rw [hc]; exact Nat.zero_le _)
  have hahead : r.ahead = r.stream := by rw [Lookahead.ahead, hc]; rfl
  unfold attempt
  generalize Lookahead.follow Encoding.instruction r = result at hfollow ⊢
  cases hfollow with
  | @accepted a r' hreads hfail hrun =>
    obtain ⟨p, i⟩ := a
    obtain ⟨s, haccept, htakes, hsource⟩ := accept_eq p i hreads
    rw [hahead] at hrun
    show Attempted r (accept r.position p i r')
    rw [haccept]
    refine .decoded ?_ htakes (by rw [hsource]; exact hfail)
    rw [verdict, hrun]
    show Except.ok (⟨r.position, r.stream.length - r'.ahead.length, p, i⟩ : Decoded) = _
    rw [length_sub_ahead hreads]
  | @rejected r' hreads hfail hrun =>
    obtain ⟨s, hgive, htakes, hsource⟩ := giveUp_eq .rejected hc hreads
    rw [hahead] at hrun
    show Attempted r (giveUp r.position r.checkpoint .rejected r')
    rw [hgive]
    refine .refused ?_ htakes (by rw [hsource]; exact hfail)
    rw [verdict, hrun]
    show Except.error (DecodeFault.unrecognized r.position _) = _
    rw [length_sub_ahead hreads, faultOf, Lookahead.bytesRead_eq hreads.within, hreads.stream]
  | @ended r' hreads hfail hrun hnil =>
    obtain ⟨s, hgive, htakes, hsource⟩ := giveUp_eq .ended hc hreads
    rw [hahead] at hrun
    show Attempted r (giveUp r.position r.checkpoint .ended r')
    rw [hgive]
    refine .refused ?_ htakes (by rw [hsource]; exact hfail)
    -- nothing is ahead, so the bytes read are the whole stream
    have hall : r'.stream.length ≤ r'.cursor := List.drop_eq_nil_iff.1 hnil
    rw [verdict, hrun, faultOf, Lookahead.bytesRead_eq hreads.within, List.take_of_length_le hall,
      hreads.stream]
  | @failed e r' hreads hfail =>
    obtain ⟨s, hgive, htakes, hsource⟩ := giveUp_eq (.stream (.source e)) hc hreads
    show Attempted r (giveUp r.position r.checkpoint (.stream (.source e)) r')
    rw [hgive]
    exact .failed htakes (by rw [hsource]; exact hfail)

/-! ## Steps -/

/-- What a step at `offset` answers: none where nothing is left, else what an attempt comes to. -/
def answer (offset : UInt64) (bs : List UInt8) : Except DecodeFault (Option Decoded) :=
  if bs = [] then .ok none else (verdict offset bs).map some

/-- How many bytes an answer takes from the stream. -/
def consumed : Except DecodeFault (Option Decoded) → Nat
  | .ok (some d) => d.length
  | _ => 0

/-- What a step comes to. -/
inductive Stepped (d : Decoder) : Except DecodeFault (Option Decoded) × Decoder → Prop
  /-- The answer that the stream gives. -/
  | answered {result : Except DecodeFault (Option Decoded)} {d' : Decoder} :
      answer d.position d.input.stream = result → Takes (consumed result) d.input d'.input →
      d'.input.source.failures = d.input.source.failures → Stepped d (result, d')
  /-- A failure of the source. -/
  | failed {e : Failure} {d' : Decoder} : Takes 0 d.input d'.input →
      d.input.source.failures = e :: d'.input.source.failures →
      Stepped d (.error (.stream (.source e)), d')

/-- Bytes taken after fetching are taken from the stream as it was before. -/
theorem takes_of_fetches {n : Nat} {r s t : Lookahead} (h : r.Fetches s) (ht : Takes n s t) :
    Takes n r t where
  stream := by rw [ht.stream, h.stream]
  position := by rw [ht.position, h.position]
  cursor := ht.cursor

theorem takes_zero_of_fetches {r s : Lookahead} (h : r.Fetches s) (hc : r.cursor = 0) : Takes 0 r s where
  stream := h.stream
  position := by
    show s.position = r.position + 0
    rw [h.position, UInt64.add_zero]
  cursor := h.cursor.trans hc

/-- **A step is a matter of the stream.**  From the front of the stream, a step gives the answer of the
stream or passes on a failure of the source, and is at the front of what is left afterwards. -/
theorem decodeNext_stepped {d : Decoder} (hc : d.input.cursor = 0) : Stepped d d.decodeNext := by
  have hlook : Lookahead.Looked 0 d.input (Lookahead.peek d.input) := by
    have h := Lookahead.peekByte_looked 0 d.input
    rwa [hc] at h
  unfold decodeNext Lookahead.hasData
  generalize Lookahead.peek d.input = result at hlook ⊢
  cases hlook with
  | @found b r hfetch hfail hb hlt =>
    have hne : d.input.stream ≠ [] := by
      intro hnil
      rw [hnil] at hb
      cases hb
    have hanswer : answer d.position d.input.stream = (verdict r.position r.stream).map some := by
      rw [answer, if_neg hne, hfetch.stream, hfetch.position]
      rfl
    have hattempt := attempt_attempted (hfetch.cursor.trans hc)
    simp only [Option.isSome_some]
    generalize attempt r = outcome at hattempt ⊢
    cases hattempt with
    | decoded hv htakes hfail' =>
      exact .answered (by rw [hanswer, hv]; rfl) (takes_of_fetches hfetch htakes) (hfail'.trans hfail)
    | refused hv htakes hfail' =>
      exact .answered (by rw [hanswer, hv]; rfl) (takes_of_fetches hfetch htakes) (hfail'.trans hfail)
    | failed htakes hfail' =>
      exact .failed (takes_of_fetches hfetch htakes) (hfail.symm.trans hfail')
  | @ended r hfetch hfail hlen =>
    have hnil : d.input.stream = [] := List.eq_nil_of_length_eq_zero (Nat.le_zero.1 hlen)
    exact .answered (by rw [answer, if_pos hnil]) (takes_zero_of_fetches hfetch hc) hfail
  | @failed e r hfetch hfail => exact .failed (takes_zero_of_fetches hfetch hc) hfail

end Decoder

end CodeAtlas
