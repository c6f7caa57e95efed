import CodeAtlas.Stream.CircularBuffer.View
import CodeAtlas.Stream.Lookahead
import Mathlib.Data.List.Infix

/-!
# The stream behind a lookahead

However a source cuts its bytes into pieces, a reader that only ever goes forward meets one sequence of
bytes: everything that is delivered before the first read that brings nothing.  A lookahead shows the same
sequence, partly in its buffer and partly still in the source, and fetching moves bytes from one to the
other without changing it.

* `Source.remaining`, `Source.failures` — what a source has still to deliver, and how it will fail;
* `Lookahead.stream` — the buffered bytes and those still to come;
* `fill_filled` — what a fill does, for every source: the stream stays, and there is enough in the buffer
  or nothing left to fetch, or a failure of the source is passed on;
* `peekByte_looked` — looking at a place gives the byte of the stream there.
-/

namespace CodeAtlas

/-! ## Sources -/

namespace Source

/-- The bytes of some events up to the first read that brings nothing. -/
def deliveredBy : List SourceEvent → List UInt8
  | [] => []
  | .failure _ :: events => deliveredBy events
  | .piece [] :: _ => []
  | .piece (b :: bs) :: events => b :: bs ++ deliveredBy events

/-- The bytes that a source delivers before it reports its end, whatever fails in between. -/
def remaining (s : Source) : List UInt8 :=
  deliveredBy s.events

/-- The failure that a reader is told of: interruptions are not, since the read is made again. -/
def failure? : SourceEvent → Option Failure
  | .failure f => if f.kind = .interrupted then none else some f
  | .piece _ => none

/-- The failures to come that a reader is told of, in order. -/
def failures (s : Source) : List Failure :=
  s.events.filterMap failure?

/-- A read that brings nothing is the end. -/
theorem of_read_nothing {limit : Nat} (hl : 0 < limit) {s s' : Source}
    (h : s.read limit = (.bytes [], s')) : s.remaining = [] ∧ s'.failures = s.failures := by
  match s with
  | ⟨[]⟩ =>
    cases h
    exact ⟨rfl, rfl⟩
  | ⟨.failure f :: events⟩ => cases h
  | ⟨.piece [] :: events⟩ =>
    replace h : ((.bytes [], ⟨events⟩) : Reply × Source) = (.bytes [], s') := h
    cases h
    exact ⟨rfl, rfl⟩
  | ⟨.piece (b :: bs) :: events⟩ =>
    rw [read] at h
    split at h
    · cases h
    · obtain ⟨n, rfl⟩ := Nat.exists_eq_succ_of_ne_zero (Nat.ne_of_gt hl)
      cases h

/-- A read that brings bytes brings the first of those that remain. -/
theorem of_read_bytes {limit : Nat} {s s' : Source} {b : UInt8} {bs : List UInt8}
    (h : s.read limit = (.bytes (b :: bs), s')) :
    s.remaining = b :: bs ++ s'.remaining ∧ s'.failures = s.failures ∧ (b :: bs).length ≤ limit := by
  match s with
  | ⟨[]⟩ => cases h
  | ⟨.failure f :: events⟩ => cases h
  | ⟨.piece cs :: events⟩ =>
    rw [read] at h
    split at h
    case isTrue hle =>
      cases h
      exact ⟨rfl, rfl, hle⟩
    case isFalse hgt =>
      -- the piece is cut, and what is left of it stays in front
      injection h with hbs hs
      injection hbs with hbs
      have hrest : cs.drop limit ≠ [] := by
        intro hnil
        have := List.drop_eq_nil_iff.1 hnil
        omega
      obtain ⟨c, rest, hdrop⟩ := List.exists_cons_of_ne_nil hrest
      have hcs : cs = b :: bs ++ c :: rest := by
        rw [← hbs, ← hdrop, List.take_append_drop]
      have hlen : (b :: bs).length ≤ limit := by
        rw [← hbs, List.length_take]
        omega
      subst hs
      refine ⟨?_, rfl, hlen⟩
      rw [remaining, remaining, hdrop, hcs]
      exact List.append_assoc (b :: bs) (c :: rest) (deliveredBy events)

/-- A failed read leaves the bytes to come as they are. -/
theorem of_read_failed {limit : Nat} {s s' : Source} {f : Failure}
    (h : s.read limit = (.failed f, s')) :
    s'.remaining = s.remaining ∧
      s.failures = if f.kind = .interrupted then s'.failures else f :: s'.failures := by
  match s with
  | ⟨[]⟩ => cases h
  | ⟨.failure e :: events⟩ =>
    cases h
    refine ⟨rfl, ?_⟩
    rw [failures, List.filterMap_cons]
    by_cases hf : f.kind = .interrupted
    · rw [if_pos hf, failure?, if_pos hf]
      rfl
    · rw [if_neg hf, failure?, if_neg hf]
      rfl
  | ⟨.piece cs :: events⟩ =>
    rw [read] at h
    split at h <;> cases h

/-- A source that delivers its bytes in one piece delivers just these, without failures. -/
theorem remaining_ofBytes (bs : List UInt8) : (ofBytes bs).remaining = bs := by
  cases bs with
  | nil => rfl
  | cons b bs => exact List.append_nil (b :: bs)

end Source

/-! ## Fetching -/

namespace Lookahead

/-- The uncommitted bytes of the stream: those in the buffer and those still to come. -/
def stream (r : Lookahead) : List UInt8 :=
  r.buffer.toList ++ if r.exhausted then [] else r.source.remaining

/-- The bytes of the stream from the cursor on. -/
def ahead (r : Lookahead) : List UInt8 :=
  r.stream.drop r.cursor

/-- `r'` is `r` with perhaps more of the stream in its buffer. -/
structure Fetches (r r' : Lookahead) : Prop where
  stream : r'.stream = r.stream
  buffer : r.buffer.toList <+: r'.buffer.toList
  cursor : r'.cursor = r.cursor
  position : r'.position = r.position

theorem Fetches.refl (r : Lookahead) : r.Fetches r :=
  ⟨rfl, List.prefix_refl _, rfl, rfl⟩

theorem Fetches.trans {r s t : Lookahead} (h₁ : r.Fetches s) (h₂ : s.Fetches t) : r.Fetches t where
  stream := h₂.stream.trans h₁.stream
  buffer := h₁.buffer.trans h₂.buffer
  cursor := h₂.cursor.trans h₁.cursor
  position := h₂.position.trans h₁.position

theorem Fetches.buffered_le {r r' : Lookahead} (h : r.Fetches r') : r.buffered ≤ r'.buffered := by
  have hlen := h.buffer.length_le
  rwa [CircularBuffer.length_toList, CircularBuffer.length_toList] at hlen

/-- The buffered bytes stand at the front of the stream. -/
theorem getElem?_stream {r : Lookahead} {i : Nat} (hi : i < r.buffered) :
    r.stream[i]? = r.buffer.toList[i]? := by
  rw [stream, List.getElem?_append_left]
  rw [CircularBuffer.length_toList]
  exact hi

theorem buffered_le_length_stream (r : Lookahead) : r.buffered ≤ r.stream.length := by
  rw [stream, List.length_append, CircularBuffer.length_toList]
  exact Nat.le_add_right _ _

/-- Once the source has ended, the stream is what is buffered. -/
theorem length_stream_of_exhausted {r : Lookahead} (h : r.exhausted = true) :
    r.stream.length = r.buffered := by
  rw [stream, if_pos h, List.append_nil, CircularBuffer.length_toList]
  rfl

/-- With the cursor within the buffer, the pending bytes are the buffered ones before it. -/
theorem pending_eq {r : Lookahead} (h : r.cursor ≤ r.buffered) :
    r.pending = .ok (r.buffer.toList.take r.cursor) := by
  have hview : r.cursor ≤ r.buffer.toList.length := by
    rw [CircularBuffer.length_toList]
    exact h
  rw [pending, CircularBuffer.slice_eq, if_pos ⟨Nat.zero_le _, hview⟩, List.drop_zero]

/-- The buffered bytes up to a place within the buffer are the first of the stream. -/
theorem take_stream {r : Lookahead} {n : Nat} (h : n ≤ r.buffered) :
    r.stream.take n = r.buffer.toList.take n := by
  rw [stream, List.take_append_of_le_length]
  rw [CircularBuffer.length_toList]
  exact h

/-! ### One read -/

@[simp] theorem buffer_afterRead (r : Lookahead) (s : Source) :
    (r.afterRead s).buffer.toList = r.buffer.toList := by
  unfold afterRead makeRoom
  split
  · exact CircularBuffer.toList_grow _ _
  · rfl

@[simp] theorem buffered_afterRead (r : Lookahead) (s : Source) :
    (r.afterRead s).buffered = r.buffered := by
  have h := congrArg List.length (r.buffer_afterRead s)
  rwa [CircularBuffer.length_toList, CircularBuffer.length_toList] at h

@[simp] theorem cursor_afterRead (r : Lookahead) (s : Source) : (r.afterRead s).cursor = r.cursor := by
  unfold afterRead makeRoom
  split <;> rfl

@[simp] theorem position_afterRead (r : Lookahead) (s : Source) :
    (r.afterRead s).position = r.position := by
  unfold afterRead makeRoom
  split <;> rfl

@[simp] theorem exhausted_afterRead (r : Lookahead) (s : Source) :
    (r.afterRead s).exhausted = r.exhausted := by
  unfold afterRead makeRoom
  split <;> rfl

/-- After a read a whole chunk fits into the buffer. -/
theorem room_afterRead (r : Lookahead) (s : Source) :
    (r.afterRead s).buffer.size + r.chunk ≤ (r.afterRead s).buffer.capacity := by
  have hsize : (r.afterRead s).buffer.size = r.buffer.size := r.buffered_afterRead s
  rw [hsize]
  unfold afterRead makeRoom
  split
  · show _ ≤ (r.buffer.grow _).capacity
    rw [CircularBuffer.capacity_grow]
    omega
  · next hfree =>
    unfold CircularBuffer.free at hfree
    have hle : r.buffer.size ≤ r.buffer.capacity := r.buffer.size_le
    show r.buffer.size + r.chunk ≤ r.buffer.capacity
    omega

/-- What a read brings always finds room. -/
theorem pushAll_afterRead {r : Lookahead} {s : Source} {bs : List UInt8} (h : bs.length ≤ r.chunk) :
    ∃ buffer, (r.afterRead s).buffer.pushAll bs = .ok buffer :=
  CircularBuffer.pushAll_isOk (Nat.le_trans (Nat.add_le_add_left h _) (r.room_afterRead s))

/-! ### Filling -/

/-- What filling the buffer up to `needed` bytes comes to. -/
inductive Filled (needed : Nat) (r : Lookahead) : EStateM.Result StreamFault Lookahead Unit → Prop
  /-- There is enough in the buffer, or nothing left to fetch. -/
  | done {r' : Lookahead} : r.Fetches r' → r'.source.failures = r.source.failures →
      needed ≤ r'.buffered ∨ r'.exhausted = true → Filled needed r (.ok () r')
  /-- The first failure to come has come. -/
  | failed {e : Failure} {r' : Lookahead} : r.Fetches r' →
      r.source.failures = e :: r'.source.failures → Filled needed r (.error (.source e) r')

/-- A fill that goes on after a step is a fill from before it. -/
theorem Filled.after {needed : Nat} {r s : Lookahead}
    {result : EStateM.Result StreamFault Lookahead Unit} (hstep : r.Fetches s)
    (hf : s.source.failures = r.source.failures) (h : Filled needed s result) :
    Filled needed r result := by
  cases h with
  | done hfetch hfail henough => exact .done (hstep.trans hfetch) (hfail.trans hf) henough
  | failed hfetch hfail => exact .failed (hstep.trans hfetch) (hf.symm.trans hfail)

/-- The state after a read that brought nothing. -/
theorem fetches_atEnd {r : Lookahead} {s : Source} (hend : r.source.remaining = []) :
    r.Fetches (r.afterRead s).atEnd where
  stream := by
    show (r.afterRead s).buffer.toList ++ [] = r.stream
    rw [buffer_afterRead, stream, hend]
    split <;> rfl
  buffer := by
    show r.buffer.toList <+: (r.afterRead s).buffer.toList
    rw [buffer_afterRead]
  cursor := r.cursor_afterRead s
  position := r.position_afterRead s

/-- The state after a failed read. -/
theorem fetches_afterRead {r : Lookahead} {s : Source} (h : s.remaining = r.source.remaining) :
    r.Fetches (r.afterRead s) where
  stream := by
    rw [stream, stream, buffer_afterRead, exhausted_afterRead, ← h]
    rfl
  buffer := by rw [buffer_afterRead]
  cursor := r.cursor_afterRead s
  position := r.position_afterRead s

/-- The state after a read that brought bytes. -/
theorem fetches_push {r : Lookahead} {s : Source} {bs : List UInt8} {buffer : CircularBuffer UInt8}
    (hopen : r.exhausted = false) (h : r.source.remaining = bs ++ s.remaining)
    (hpush : (r.afterRead s).buffer.pushAll bs = .ok buffer) :
    r.Fetches { r.afterRead s with buffer := buffer } := by
  obtain ⟨hview, -⟩ := CircularBuffer.toList_of_pushAll hpush
  rw [buffer_afterRead] at hview
  refine ⟨?_, ?_, r.cursor_afterRead s, r.position_afterRead s⟩
  · show buffer.toList ++ (if (r.afterRead s).exhausted then [] else s.remaining) = r.stream
    rw [stream, exhausted_afterRead, hopen, hview, h, List.append_assoc]
    rfl
  · show r.buffer.toList <+: buffer.toList
    rw [hview]
    exact List.prefix_append _ _

/-- **Filling keeps the stream**, whatever the source does. -/
theorem fill_filled (needed : Nat) (r : Lookahead) : Filled needed r (r.fill needed) := by
  fun_induction fill needed r with
  | case1 r hneed source hread =>
    obtain ⟨hend, hfail⟩ := Source.of_read_nothing r.chunk_pos hread
    exact .done (fetches_atEnd hend) hfail (Or.inr rfl)
  | case2 r hneed b bs source hread buffer hpush ih =>
    obtain ⟨hrem, hfail, -⟩ := Source.of_read_bytes hread
    exact ih.after (fetches_push hneed.2 hrem hpush) hfail
  | case3 r hneed b bs source hread f hpush =>
    obtain ⟨-, -, hlen⟩ := Source.of_read_bytes hread
    obtain ⟨buffer, hok⟩ := pushAll_afterRead (s := source) hlen
    rw [hok] at hpush
    cases hpush
  | case4 r hneed f source hread hkind ih =>
    obtain ⟨hrem, hfail⟩ := Source.of_read_failed hread
    rw [if_pos hkind] at hfail
    exact ih.after (fetches_afterRead hrem) hfail.symm
  | case5 r hneed f source hread hkind =>
    obtain ⟨hrem, hfail⟩ := Source.of_read_failed hread
    rw [if_neg hkind] at hfail
    exact .failed (fetches_afterRead hrem) hfail
  | case6 r hneed =>
    refine .done (Fetches.refl r) rfl ?_
    by_cases hb : r.buffered < needed
    · exact Or.inr (by simpa [hb] using hneed)
    · exact Or.inl (Nat.le_of_not_lt hb)

/-! ### Looking -/

/-- What looking at a place of the stream comes to. -/
inductive Looked (place : Nat) (r : Lookahead) :
    EStateM.Result StreamFault Lookahead (Option UInt8) → Prop
  | found {b : UInt8} {r' : Lookahead} : r.Fetches r' → r'.source.failures = r.source.failures →
      r.stream[place]? = some b → place < r'.buffered → Looked place r (.ok (some b) r')
  | ended {r' : Lookahead} : r.Fetches r' → r'.source.failures = r.source.failures →
      r.stream.length ≤ place → Looked place r (.ok none r')
  | failed {e : Failure} {r' : Lookahead} : r.Fetches r' →
      r.source.failures = e :: r'.source.failures → Looked place r (.error (.source e) r')

theorem peekByte_looked (offset : Nat) (r : Lookahead) :
    Looked (r.cursor + offset) r (peekByte offset r) := by
  have hfill := fill_filled (r.cursor + offset + 1) r
  unfold peekByte
  split
  · next f r' heq =>
    rw [heq] at hfill
    cases hfill with
    | failed hfetch hfail => exact .failed hfetch hfail
  · next r' heq =>
    rw [heq] at hfill
    cases hfill with
    | done hfetch hfail henough =>
      rw [hfetch.cursor]
      split
      · next hlt =>
        have hget : r.stream[r.cursor + offset]? = r'.buffer.toList[r.cursor + offset]? := by
          rw [← hfetch.stream, getElem?_stream hlt]
        obtain ⟨b, hb⟩ : ∃ b, r'.buffer.toList[r.cursor + offset]? = some b :=
          ⟨_, List.getElem?_eq_getElem (by rw [CircularBuffer.length_toList]; exact hlt)⟩
        rw [CircularBuffer.get_eq, hb]
        exact .found hfetch hfail (hget.trans hb) hlt
      · next hge =>
        refine .ended hfetch hfail ?_
        rcases henough with h | h
        · omega
        · rw [← hfetch.stream, length_stream_of_exhausted h]
          omega

end Lookahead

end CodeAtlas
