import CodeAtlas.Proofs.Decoder.Refusal
import CodeAtlas.Proofs.Stream.Account

/-!
# Only the source can fail

A decoder has faults of its own to report: a full buffer, a place outside the buffered bytes, a field with too
few bytes.  None of them ever comes up.  The buffer is made to grow before each read, the cursor stays within
it, an attempt ends between the place where it started and the end of the buffer, and a field is read only
once all its bytes are there.

* `Lookahead.pushAll_of_read`, `Lookahead.advance_of_peek` — what a read brings has room, and a byte that was
  looked at can be stepped over;
* `Lookahead.exists_of_follow_andThen`, `Lookahead.follow_number` — grammars are followed one after the other,
  and a number is read from as many bytes as it is wide;
* `Lookahead.follow_bounds` — where an attempt ends;
* `Decoder.expected_decodeNext` — all that a step can return;
* `Decoder.only_the_source_fails` — every run.
-/

namespace CodeAtlas

namespace Lookahead

/-! ## Single bytes -/

/-- What a read brings has room in the buffer that was made to grow before it. -/
theorem pushAll_of_read {r : Lookahead} {bs : List UInt8} {source : Source}
    (h : r.source.read r.chunk = (.bytes bs, source)) :
    ∃ buffer, (r.afterRead source).buffer.pushAll bs = .ok buffer := by
  cases bs with
  | nil => exact ⟨_, rfl⟩
  | cons b bs =>
    obtain ⟨-, -, hlen⟩ := Source.of_read_bytes h
    exact pushAll_afterRead hlen

theorem get_of_lt {r : Lookahead} {i : Nat} (h : i < r.buffered) : ∃ b, r.buffer.get i = .ok b := by
  rw [← length_buffer] at h
  rw [CircularBuffer.get_eq, List.getElem?_eq_getElem h]
  exact ⟨_, rfl⟩

/-- **A byte that was looked at can be stepped over**, and the two come to the same as taking the byte. -/
theorem advance_of_peek {r r' : Lookahead} {b : UInt8} (h : peek r = .ok (some b) r') :
    advance r' = .ok () (r'.moveTo (r'.cursor + 1)) ∧
      nextByte r = .ok (some b) (r'.moveTo (r'.cursor + 1)) := by
  have hlt : r'.cursor < r'.buffered := by
    have hsight := r.peekByte_sighted 0
    rw [show peekByte 0 r = .ok (some b) r' from h] at hsight
    generalize final (r.fill (r.cursor + 0 + 1)) = s at hsight
    cases hsight with
    | byte hlt => exact hlt
  have hlen : r'.cursor < r'.buffer.toList.length := by
    rw [length_buffer]
    exact hlt
  constructor
  · rw [advance, peek_of_ready (Or.inl hlt), List.getElem?_eq_getElem hlen]
  · rw [nextByte, h]

/-! ## Fields -/

/-- A grammar that asks for a byte is followed to its end by taking the byte and following what it goes on
with. -/
theorem follow_byte_eq_ok {α : Type} {next : UInt8 → Grammar α} {a : α} {r r' : Lookahead} :
    follow (.byte next) r = .ok a r' ↔
      ∃ b s, nextByte r = .ok (some b) s ∧ follow (next b) s = .ok a r' := by
  constructor
  · intro h
    unfold follow at h
    split at h
    · next b s hnext => exact ⟨b, s, hnext, h⟩
    · cases h
    · cases h
  · intro h
    obtain ⟨b, s, hnext, hrest⟩ := h
    rw [follow]
    beta_reduce
    rw [hnext]
    exact hrest

/-- A grammar that goes on with another is followed to its end by following the two one after the other. -/
theorem exists_of_follow_andThen {α β : Type} (g : Grammar α) {f : α → Grammar β} {b : β} :
    ∀ {r r' : Lookahead}, follow (g.andThen f) r = .ok b r' →
      ∃ a s, follow g r = .ok a s ∧ follow (f a) s = .ok b r' := by
  induction g with
  | accept a =>
    intro r r' h
    exact ⟨a, r, rfl, h⟩
  | reject =>
    intro r r' h
    cases h
  | byte next ih =>
    intro r r' h
    obtain ⟨c, s, hnext, hrest⟩ := follow_byte_eq_ok.1 h
    obtain ⟨a, t, hfirst, hsecond⟩ := ih c hrest
    exact ⟨a, t, follow_byte_eq_ok.2 ⟨c, s, hnext, hfirst⟩, hsecond⟩

/-- A field has as many bytes as were asked for. -/
theorem length_of_follow_bytes {n : Nat} :
    ∀ {field : List UInt8} {r r' : Lookahead}, follow (Grammar.bytes n) r = .ok field r' →
      field.length = n := by
  induction n with
  | zero =>
    intro field r r' h
    cases h
    rfl
  | succ n ih =>
    intro field r r' h
    obtain ⟨b, s, -, hrest⟩ := follow_byte_eq_ok.1 h
    obtain ⟨bs, t, hbytes, haccept⟩ := exists_of_follow_andThen _ hrest
    cases haccept
    rw [List.length_cons, ih hbytes]

/-- **A number is read from as many bytes as it is wide.** -/
theorem follow_number {w : Width} {sign : Signedness} {v : Int} {r r' : Lookahead}
    (h : follow (Grammar.number w sign) r = .ok v r') :
    ∃ field, follow (Grammar.bytes w.size) r = .ok field r' ∧ field.length = w.size ∧
      LittleEndian.read w sign field = .ok v := by
  obtain ⟨field, s, hbytes, haccept⟩ := exists_of_follow_andThen _ h
  cases haccept
  have hlen := length_of_follow_bytes hbytes
  refine ⟨field, hbytes, hlen, ?_⟩
  rw [LittleEndian.read, if_neg (by omega), List.take_of_length_le (by omega)]

/-! ## Attempts -/

/-- An attempt from within the buffer ends within the buffer, not before the place where it started. -/
theorem follow_bounds {α : Type} (g : Grammar α) {r : Lookahead} (hc : r.cursor ≤ r.buffered) :
    r.cursor ≤ (final (follow g r)).cursor ∧
      (final (follow g r)).cursor ≤ (final (follow g r)).buffered := by
  have hfollow := follow_followed g r hc
  generalize follow g r = result at hfollow ⊢
  cases hfollow with
  | accepted hreads _ _ => exact ⟨hreads.cursor_le, hreads.within⟩
  | rejected hreads _ _ => exact ⟨hreads.cursor_le, hreads.within⟩
  | ended hreads _ _ _ => exact ⟨hreads.cursor_le, hreads.within⟩
  | failed hreads _ => exact ⟨hreads.cursor_le, hreads.within⟩

/-- The bytes of an accepted encoding can be committed. -/
theorem commit_of_follow {α : Type} {g : Grammar α} {r r' : Lookahead} {a : α} (hc : r.cursor ≤ r.buffered)
    (h : follow g r = .ok a r') : ∃ s, commit r'.cursor r' = .ok () s := by
  have hbounds := follow_bounds g hc
  rw [h] at hbounds
  obtain ⟨s, hs, -⟩ := commit_ok (show r'.cursor ≤ r'.buffered from hbounds.2)
  exact ⟨s, hs⟩

/-- After an attempt that was not accepted the bytes read are there to be reported, and the cursor can be put
back, whatever is noted in between. -/
theorem restore_of_follow {α : Type} {g : Grammar α} {r r' : Lookahead} {halt : Halt}
    (hc : r.cursor ≤ r.buffered) (h : follow g r = .error halt r') :
    (∃ bs, r'.pending = .ok bs) ∧
      ∀ notes : List Note, ∃ s, restore r.checkpoint (notes.foldl (fun t n => t.note n) r') = .ok () s := by
  have hbounds := follow_bounds g hc
  rw [h] at hbounds
  obtain ⟨hlow, hhigh⟩ := hbounds
  refine ⟨⟨_, pending_eq hhigh⟩, ?_⟩
  intro notes
  obtain ⟨journal, hnotes⟩ := foldl_note notes r'
  have hplace : r.checkpoint.place ≤ ({ r' with journal := journal } : Lookahead).buffered :=
    Nat.le_trans hlow hhigh
  rw [hnotes, restore, if_pos hplace]
  exact ⟨_, rfl⟩

/-- Whether there is a byte is found out without moving. -/
theorem cursor_of_hasData {r r' : Lookahead} {b : Bool} (h : hasData r = .ok b r') : r'.cursor = r.cursor := by
  have hlook : Looked r.cursor r (peek r) := peekByte_looked 0 r
  unfold hasData at h
  generalize peek r = result at hlook h
  cases hlook with
  | found hfetch _ _ _ =>
    cases h
    exact hfetch.cursor
  | ended hfetch _ _ =>
    cases h
    exact hfetch.cursor
  | failed _ _ => cases h

end Lookahead

namespace Decoder

/-! ## Steps -/

/-- What a step may return: an instruction or the end, bytes that are refused, or a failure of the source. -/
inductive Expected : Except DecodeFault (Option Decoded) → Prop
  | ok (i : Option Decoded) : Expected (.ok i)
  | truncated (offset : UInt64) (bytes : List UInt8) : Expected (.error (.truncated offset bytes))
  | unrecognized (offset : UInt64) (bytes : List UInt8) : Expected (.error (.unrecognized offset bytes))
  | source (f : Failure) : Expected (.error (.stream (.source f)))

/-- The answer of the stream is never a fault of the buffer. -/
theorem expected_answer (offset : UInt64) (bs : List UInt8) : Expected (answer offset bs) := by
  unfold answer verdict
  split
  · exact .ok none
  · cases Encoding.instruction.run bs with
    | accepted a rest => exact .ok _
    | incomplete => exact .truncated _ _
    | rejected rest => exact .unrecognized _ _

/-- **All that a step can return.** -/
theorem expected_decodeNext {d : Decoder} (hc : d.input.cursor = 0) : Expected d.decodeNext.1 := by
  have hstep := decodeNext_stepped hc
  generalize d.decodeNext = step at hstep ⊢
  cases hstep with
  | answered hanswer _ _ =>
    subst hanswer
    exact expected_answer _ _
  | failed _ _ => exact .source _

/-- **Only the source can fail.**  Take a decoder over any source, with any chunk size and base address, after any
steps.  Its next step returns an instruction or the end, refuses the bytes as truncated or unrecognized, or passes
on a failure of the source.  In the attempt that such a step makes, an accepted instruction can be committed, and
otherwise the bytes read are there to be reported and the cursor can be put back.  In every lookahead, what a read
brings finds room, a byte that was fetched can be looked at, one that was looked at can be stepped over, and a
number is read from a field that has all its bytes. -/
theorem only_the_source_fails (source : Source) (c : DecoderConfig) (calls : List Call) :
    let d := (start source c).performAll calls
    Expected d.decodeNext.1 ∧
    (∀ r, Lookahead.hasData d.input = .ok true r →
      (∀ a r', Lookahead.follow Encoding.instruction r = .ok a r' →
        ∃ s, Lookahead.commit r'.cursor r' = .ok () s) ∧
      ∀ halt r', Lookahead.follow Encoding.instruction r = .error halt r' →
        (∃ bs, r'.pending = .ok bs) ∧
        ∀ notes : List Note, ∃ s,
          Lookahead.restore r.checkpoint (notes.foldl (fun t n => t.note n) r') = .ok () s) ∧
    (∀ (r : Lookahead) bs source', r.source.read r.chunk = (.bytes bs, source') →
      ∃ buffer, (r.afterRead source').buffer.pushAll bs = .ok buffer) ∧
    (∀ (r r' : Lookahead) k, r.fill (r.cursor + k + 1) = .ok () r' → r'.cursor + k < r'.buffered →
      ∃ b, r'.buffer.get (r'.cursor + k) = .ok b) ∧
    (∀ (r r' : Lookahead) b, Lookahead.peek r = .ok (some b) r' →
      ∃ s, Lookahead.advance r' = .ok () s ∧ Lookahead.nextByte r = .ok (some b) s) ∧
    ∀ (w : Width) (sign : Signedness) (r r' : Lookahead) v,
      Lookahead.follow (Grammar.number w sign) r = .ok v r' →
      ∃ field, Lookahead.follow (Grammar.bytes w.size) r = .ok field r' ∧ field.length = w.size ∧
        LittleEndian.read w sign field = .ok v := by
  intro d
  have hcursor : d.input.cursor = 0 := cursor_performAll_start source c calls
  refine ⟨expected_decodeNext hcursor, ?_, ?_, ?_, ?_, ?_⟩
  · intro r hdata
    have hc : r.cursor ≤ r.buffered := by
      rw [Lookahead.cursor_of_hasData hdata, hcursor]
      exact Nat.zero_le _
    exact ⟨fun a r' => Lookahead.commit_of_follow hc, fun halt r' => Lookahead.restore_of_follow hc⟩
  · exact fun r bs source' => Lookahead.pushAll_of_read
  · exact fun r r' k _ hlt => Lookahead.get_of_lt hlt
  · intro r r' b hpeek
    exact ⟨_, Lookahead.advance_of_peek hpeek⟩
  · exact fun w sign r r' v => Lookahead.follow_number

/-- A source that ends inside its second instruction. -/
def cutShortSource : Source :=
  ⟨[.piece [0x90, 0x66], .failure ⟨.interrupted, "signal"⟩, .piece [0xB8]]⟩

/-- The law at work, read byte by byte: in the attempt that runs out of bytes, the two that were read are
there to be reported and the cursor can be put back. -/
theorem only_the_source_fails_cutShortSource :
    let d := (start cutShortSource ⟨1, 0x1000⟩).performAll [.next, .decodeNext]
    Lookahead.follow Encoding.instruction d.input = .error .ended (d.input.moveTo 2) ∧
      Expected d.decodeNext.1 ∧ (∃ bs, (d.input.moveTo 2).pending = .ok bs) ∧
      ∃ s, Lookahead.restore d.input.checkpoint (d.input.moveTo 2) = .ok () s := by
  intro d
  have hover : d.input.exhausted = true := by decide +kernel
  have hcursor : d.input.cursor = 0 := by decide +kernel
  have hbuffer : d.input.buffer.toList = [0x66, 0xB8] := by decide +kernel
  have hdata : Lookahead.hasData d.input = .ok true d.input := by
    rw [Lookahead.hasData, Lookahead.peek_of_ready (Or.inr hover), hcursor, hbuffer]
    rfl
  have hfollow : Lookahead.follow Encoding.instruction d.input = .error .ended (d.input.moveTo 2) := by
    have hlen := d.input.length_buffer
    rw [hbuffer] at hlen
    rw [Lookahead.follow_eq_atHand Encoding.instruction (by rw [hcursor]; exact Nat.zero_le _) (Or.inr hover),
      Lookahead.held, hcursor, hbuffer]
    show Lookahead.atHand d.input .incomplete = _
    rw [Lookahead.atHand, ← hlen]
    rfl
  obtain ⟨hexpected, hattempt, -⟩ := only_the_source_fails cutShortSource ⟨1, 0x1000⟩ [.next, .decodeNext]
  obtain ⟨hpending, hrestore⟩ := (hattempt d.input hdata).2 _ _ hfollow
  exact ⟨hfollow, hexpected, hpending, hrestore []⟩

end Decoder

end CodeAtlas
