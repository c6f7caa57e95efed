import CodeAtlas.Proofs.Stream.AtHand

/-!
# Every byte of a lookahead is accounted for

A lookahead is used by requests of ten kinds, in any order and with any arguments.  Whatever they are, no byte
of the source is lost, doubled or put out of order: those that were committed, followed by those in the buffer,
are those that the reads so far have brought.  The cursor stays within the buffer, and the position counts the
committed bytes.

* `Source.replies`, `Source.delivered` — what the first reads of a source bring;
* `Lookahead.Account` — the buffer of a lookahead against the reads made so far, kept by each read
  (`Account.next`) and so by a fill (`Account.fill`);
* `Lookahead.perform_performed` — all that a request can do: fetch and place the cursor, fetch and fail, or
  commit;
* `Usage.Sound`, `Usage.Sound.step`, `Usage.Sound.run` — the invariant of a lookahead in use;
* `Usage.bytes_are_accounted_for` — what it says about every run.
-/

namespace CodeAtlas

/-! ## What reads bring -/

/-- The bytes that a reply brings; a failure brings none. -/
def Reply.delivery : Reply → List UInt8
  | .bytes bs => bs
  | .failed _ => []

namespace Source

/-- The source after `n` reads of at most `limit` bytes. -/
def afterReads (limit : Nat) (s : Source) : (n : Nat) → Source
  | 0 => s
  | n + 1 => ((s.afterReads limit n).read limit).2

/-- The replies to the first `n` reads of at most `limit` bytes, in order. -/
def replies (limit : Nat) (s : Source) : (n : Nat) → List Reply
  | 0 => []
  | n + 1 => s.replies limit n ++ [((s.afterReads limit n).read limit).1]

/-- The bytes that the first `n` reads bring, in order. -/
def delivered (limit : Nat) (s : Source) (n : Nat) : List UInt8 :=
  (s.replies limit n).flatMap Reply.delivery

/-- One of the first `n` reads has reported the end. -/
def ReportsEnd (limit : Nat) (s : Source) (n : Nat) : Prop :=
  .bytes [] ∈ s.replies limit n

theorem delivered_succ (limit : Nat) (s : Source) (n : Nat) :
    s.delivered limit (n + 1) =
      s.delivered limit n ++ ((s.afterReads limit n).read limit).1.delivery := by
  rw [delivered, replies, List.flatMap_append, List.flatMap_singleton]
  rfl

theorem reportsEnd_succ {limit : Nat} {s : Source} {n : Nat} :
    s.ReportsEnd limit (n + 1) ↔
      s.ReportsEnd limit n ∨ ((s.afterReads limit n).read limit).1 = .bytes [] := by
  rw [ReportsEnd, replies, List.mem_append, List.mem_singleton, eq_comm]
  exact Iff.rfl

end Source

namespace Lookahead

/-! ## The account -/

/-- The state in which a step ends, whether it fails or not. -/
def final {ε α : Type} : EStateM.Result ε Lookahead α → Lookahead
  | .ok _ r => r
  | .error _ r => r

/-- The lookahead reads the source `s`, at most `limit` bytes at a time.  After its reads so far the source
stands where they leave it, and the bytes `taken` followed by those in the buffer are what they brought; the
lookahead takes the source for ended exactly if one of them reported the end. -/
structure Account (s : Source) (limit : Nat) (taken : List UInt8) (r : Lookahead) : Prop where
  chunk : r.chunk = limit
  source : r.source = s.afterReads limit r.reads
  delivered : taken ++ r.buffer.toList = s.delivered limit r.reads
  ended : r.exhausted = true ↔ s.ReportsEnd limit r.reads

variable {s : Source} {limit : Nat} {taken : List UInt8}

/-- **One read** keeps the account, if its bytes go to the back of the buffer and the lookahead takes note of
an end. -/
theorem Account.next {r r' : Lookahead} {reply : Reply} (h : Account s limit taken r)
    (hread : r.source.read r.chunk = (reply, r'.source)) (hchunk : r'.chunk = r.chunk)
    (hreads : r'.reads = r.reads + 1)
    (hbuffer : r'.buffer.toList = r.buffer.toList ++ reply.delivery)
    (hend : r'.exhausted = true ↔ r.exhausted = true ∨ reply = .bytes []) : Account s limit taken r' := by
  rw [h.source, h.chunk] at hread
  constructor
  · rw [hchunk, h.chunk]
  · rw [hreads, Source.afterReads, hread]
  · rw [hreads, Source.delivered_succ, hread, hbuffer, ← List.append_assoc, h.delivered]
  · rw [hreads, Source.reportsEnd_succ, hread, hend, h.ended]

@[simp] theorem chunk_afterRead (r : Lookahead) (source : Source) : (r.afterRead source).chunk = r.chunk := by
  unfold afterRead makeRoom
  split <;> rfl

/-- A failed read brings nothing. -/
theorem Account.afterFailure {r : Lookahead} {f : Failure} {source : Source} (h : Account s limit taken r)
    (hread : r.source.read r.chunk = (.failed f, source)) : Account s limit taken (r.afterRead source) := by
  refine h.next hread (r.chunk_afterRead source) rfl ?_ ?_
  · show (r.afterRead source).buffer.toList = r.buffer.toList ++ []
    rw [buffer_afterRead, List.append_nil]
  · simp

/-- Filling keeps the account, read by read. -/
theorem Account.fill {r : Lookahead} (h : Account s limit taken r) (needed : Nat) :
    Account s limit taken (final (r.fill needed)) := by
  fun_induction Lookahead.fill needed r with
  | case1 r hneed source hread =>
    refine h.next hread (r.chunk_afterRead source) rfl ?_ ?_
    · show (r.afterRead source).buffer.toList = r.buffer.toList ++ []
      rw [buffer_afterRead, List.append_nil]
    · exact iff_of_true rfl (Or.inr rfl)
  | case2 r hneed b bs source hread buffer hpush ih =>
    refine ih (h.next hread (r.chunk_afterRead source) rfl ?_ ?_)
    · obtain ⟨hview, -⟩ := CircularBuffer.toList_of_pushAll hpush
      rw [buffer_afterRead] at hview
      exact hview
    · show (r.afterRead source).exhausted = true ↔ _
      simp
  | case3 r hneed b bs source hread f hpush =>
    obtain ⟨-, -, hlen⟩ := Source.of_read_bytes hread
    obtain ⟨buffer, hok⟩ := pushAll_afterRead (s := source) hlen
    rw [hok] at hpush
    cases hpush
  | case4 r hneed f source hread hkind ih => exact ih (h.afterFailure hread)
  | case5 r hneed f source hread hkind => exact h.afterFailure hread
  | case6 r hneed => exact h

/-- Fetching does not touch the account in any other way. -/
theorem fetches_fill (r : Lookahead) (needed : Nat) : r.Fetches (final (r.fill needed)) := by
  have h := fill_filled needed r
  generalize r.fill needed = result at h ⊢
  cases h with
  | done hfetch _ _ => exact hfetch
  | failed hfetch _ => exact hfetch

/-! ## Requests -/

/-- What a user can ask of a lookahead. -/
inductive Request where
  | peekByte (offset : Nat)
  | peek
  | nextByte
  | hasData
  | advance
  | retreat
  | checkpoint
  | restore (c : Checkpoint)
  | pending
  | commit (count : Nat)
deriving DecidableEq

/-- A step without its answer. -/
def silent {α : Type} : EStateM.Result StreamFault Lookahead α → EStateM.Result StreamFault Lookahead Unit
  | .ok _ r => .ok () r
  | .error f r => .error f r

/-- What a request does to a lookahead. -/
def perform (r : Lookahead) : Request → EStateM.Result StreamFault Lookahead Unit
  | .peekByte offset => silent (Lookahead.peekByte offset r)
  | .peek => silent (Lookahead.peek r)
  | .nextByte => silent (Lookahead.nextByte r)
  | .hasData => silent (Lookahead.hasData r)
  | .advance => Lookahead.advance r
  | .retreat => Lookahead.retreat r
  | .checkpoint => .ok () r
  | .restore c => Lookahead.restore c r
  | .pending =>
    match r.pending with
    | .ok _ => .ok () r
    | .error f => .error f r
  | .commit count => Lookahead.commit count r

/-- The bytes that a request gives up: the first of the buffer, if a commit succeeds. -/
def commits (r : Lookahead) : Request → List UInt8
  | .commit count => if count ≤ r.buffered then r.buffer.toList.take count else []
  | _ => []

/-- What a request comes to, with the bytes that it gives up. -/
inductive Performed (r : Lookahead) : List UInt8 → EStateM.Result StreamFault Lookahead Unit → Prop
  /-- It fetches and places the cursor. -/
  | placed (needed : Nat) {place : Nat} : place ≤ (final (r.fill needed)).buffered →
      Performed r [] (.ok () ((final (r.fill needed)).moveTo place))
  /-- It fetches and fails. -/
  | refused (needed : Nat) {f : StreamFault} : Performed r [] (.error f (final (r.fill needed)))
  /-- It commits. -/
  | committed {count : Nat} {buffer : CircularBuffer UInt8} : r.buffer.discardFront count = .ok buffer →
      Performed r (r.buffer.toList.take count)
        (.ok () { r with buffer := buffer, position := r.position + UInt64.ofNat count, cursor := 0 })

/-- Nothing has to be fetched. -/
theorem fill_zero (r : Lookahead) : r.fill 0 = .ok () r :=
  fill_of_ready (Or.inl (Nat.zero_le _))

/-- Placing the cursor without fetching. -/
theorem performed_moveTo {r : Lookahead} {place : Nat} (h : place ≤ r.buffered) :
    Performed r [] (.ok () (r.moveTo place)) := by
  have hplaced := @Performed.placed r 0 place
  rw [fill_zero] at hplaced
  exact hplaced h

/-- Failing without fetching. -/
theorem performed_error (r : Lookahead) (f : StreamFault) : Performed r [] (.error f r) := by
  have hrefused := @Performed.refused r 0 f
  rwa [fill_zero] at hrefused

/-- Fetching alone. -/
theorem performed_fill {r : Lookahead} (hc : r.cursor ≤ r.buffered) (needed : Nat) :
    Performed r [] (.ok () (final (r.fill needed))) := by
  have hfetch := r.fetches_fill needed
  have hplace : (final (r.fill needed)).cursor ≤ (final (r.fill needed)).buffered := by
    rw [hfetch.cursor]
    exact Nat.le_trans hc hfetch.buffered_le
  exact .placed needed hplace

/-- What looking at a place comes to, with the state that fetching leads to. -/
inductive Sighted (offset : Nat) (r : Lookahead) :
    EStateM.Result StreamFault Lookahead (Option UInt8) → Prop
  | byte {b : UInt8} : r.cursor + offset < r.buffered → Sighted offset r (.ok (some b) r)
  | nothing : Sighted offset r (.ok none r)
  | failed {f : StreamFault} : Sighted offset r (.error f r)

/-- Looking at a place fetches what it takes, and finds a byte there, finds none or fails. -/
theorem peekByte_sighted (offset : Nat) (r : Lookahead) :
    Sighted offset (final (r.fill (r.cursor + offset + 1))) (Lookahead.peekByte offset r) := by
  unfold Lookahead.peekByte
  generalize r.fill (r.cursor + offset + 1) = result
  cases result with
  | error f r' => exact .failed
  | ok u r' =>
    show Sighted offset r' (if r'.cursor + offset < r'.buffered then _ else _)
    split
    · next hlt =>
      cases r'.buffer.get (r'.cursor + offset) with
      | ok b => exact .byte hlt
      | error f => exact .failed
    · exact .nothing

theorem final_peekByte (offset : Nat) (r : Lookahead) :
    final (Lookahead.peekByte offset r) = final (r.fill (r.cursor + offset + 1)) := by
  have h := r.peekByte_sighted offset
  generalize Lookahead.peekByte offset r = result at h ⊢
  cases h <;> rfl

theorem performed_peekByte {r : Lookahead} (hc : r.cursor ≤ r.buffered) (offset : Nat) :
    Performed r [] (silent (Lookahead.peekByte offset r)) := by
  have h := r.peekByte_sighted offset
  generalize Lookahead.peekByte offset r = result at h ⊢
  cases h with
  | byte _ => exact performed_fill hc _
  | nothing => exact performed_fill hc _
  | failed => exact .refused _

theorem performed_commit (r : Lookahead) (count : Nat) :
    Performed r (r.commits (.commit count)) (Lookahead.commit count r) := by
  show Performed r (if count ≤ r.buffered then r.buffer.toList.take count else []) _
  unfold Lookahead.commit
  cases hdrop : r.buffer.discardFront count with
  | ok buffer =>
    have hle := CircularBuffer.le_of_discardFront hdrop
    rw [length_buffer] at hle
    rw [if_pos hle]
    exact .committed hdrop
  | error f =>
    have hshort := (CircularBuffer.discardFront_eq_error_iff.1 hdrop).1
    rw [length_buffer] at hshort
    rw [if_neg (Nat.not_le_of_lt hshort)]
    exact performed_error r f

/-- **All that a request can do.** -/
theorem perform_performed {r : Lookahead} (hc : r.cursor ≤ r.buffered) (q : Request) :
    Performed r (r.commits q) (r.perform q) := by
  have hpeek := r.peekByte_sighted 0
  cases q with
  | peekByte offset => exact performed_peekByte hc offset
  | peek => exact performed_peekByte hc 0
  | nextByte =>
    show Performed r [] (silent (Lookahead.nextByte r))
    unfold Lookahead.nextByte Lookahead.peek
    generalize Lookahead.peekByte 0 r = result at hpeek ⊢
    cases hpeek with
    | byte hlt => exact .placed _ hlt
    | nothing => exact performed_fill hc _
    | failed => exact .refused _
  | hasData =>
    show Performed r [] (silent (Lookahead.hasData r))
    unfold Lookahead.hasData Lookahead.peek
    generalize Lookahead.peekByte 0 r = result at hpeek ⊢
    cases hpeek with
    | byte _ => exact performed_fill hc _
    | nothing => exact performed_fill hc _
    | failed => exact .refused _
  | advance =>
    show Performed r [] (Lookahead.advance r)
    unfold Lookahead.advance Lookahead.peek
    generalize Lookahead.peekByte 0 r = result at hpeek ⊢
    cases hpeek with
    | byte hlt => exact .placed _ hlt
    | nothing => exact .refused _
    | failed => exact .refused _
  | retreat =>
    show Performed r [] (Lookahead.retreat r)
    unfold Lookahead.retreat
    split
    · exact performed_error r _
    · exact performed_moveTo (by omega)
  | checkpoint => exact performed_moveTo hc
  | restore c =>
    show Performed r [] (Lookahead.restore c r)
    unfold Lookahead.restore
    split
    · next hle => exact performed_moveTo hle
    · exact performed_error r _
  | pending =>
    unfold perform
    cases r.pending with
    | ok bs => exact performed_moveTo hc
    | error f => exact performed_error r f
  | commit count => exact performed_commit r count

/-- A request that fails leaves the position, the cursor and what is buffered as they are. -/
theorem kept_of_perform_error {r r' : Lookahead} {q : Request} {f : StreamFault} (hc : r.cursor ≤ r.buffered)
    (h : r.perform q = .error f r') :
    r'.position = r.position ∧ r'.cursor = r.cursor ∧ r.buffer.toList <+: r'.buffer.toList := by
  have hdone := perform_performed hc q
  rw [h] at hdone
  generalize r.commits q = taken at hdone
  cases hdone with
  | refused needed =>
    have hfetch := r.fetches_fill needed
    exact ⟨hfetch.position, hfetch.cursor, hfetch.buffer⟩

/-- After the end of the source no request reads it. -/
theorem perform_of_exhausted {r : Lookahead} (hc : r.cursor ≤ r.buffered) (h : r.exhausted = true)
    (q : Request) :
    (final (r.perform q)).demands = r.demands ∧ (final (r.perform q)).source = r.source ∧
      (final (r.perform q)).exhausted = true := by
  have hdone := perform_performed hc q
  have hfill : ∀ needed, r.fill needed = .ok () r := fun _ => fill_of_ready (Or.inr h)
  generalize r.commits q = taken at hdone
  generalize r.perform q = result at hdone ⊢
  cases hdone with
  | placed needed _ =>
    rw [hfill]
    exact ⟨rfl, rfl, h⟩
  | refused needed =>
    rw [hfill]
    exact ⟨rfl, rfl, h⟩
  | committed _ => exact ⟨rfl, rfl, h⟩

end Lookahead

/-! ## A lookahead in use -/

/-- A lookahead, and the bytes that have been committed so far. -/
structure Usage where
  reader : Lookahead
  committed : List UInt8

namespace Usage

open Lookahead

/-- A fresh lookahead. -/
def start (source : Source) (chunk : Nat) (base : UInt64) : Usage :=
  ⟨.start source chunk base, []⟩

/-- One request. -/
def step (u : Usage) (q : Request) : Usage :=
  ⟨final (u.reader.perform q), u.committed ++ u.reader.commits q⟩

/-- Requests one after the other. -/
def run (u : Usage) (qs : List Request) : Usage :=
  qs.foldl step u

/-- What holds of a lookahead in use: the cursor is within the buffer, the bytes are accounted for, what is
committed and what is still ahead make up the stream of the source, and the position counts the committed
bytes. -/
structure Sound (source : Source) (chunk : Nat) (base : UInt64) (u : Usage) : Prop where
  within : u.reader.cursor ≤ u.reader.buffered
  account : Account source (max chunk 1) u.committed u.reader
  stream : u.committed ++ u.reader.stream = source.remaining
  position : u.reader.position = base + UInt64.ofNat u.committed.length

theorem sound_start (source : Source) (chunk : Nat) (base : UInt64) :
    Sound source chunk base (start source chunk base) where
  within := Nat.le_refl _
  account := ⟨rfl, rfl, rfl, iff_of_false Bool.false_ne_true (List.not_mem_nil)⟩
  stream := rfl
  position := (UInt64.add_zero base).symm

variable {source : Source} {chunk : Nat} {base : UInt64} {u : Usage}

/-- Fetching keeps what holds. -/
theorem Sound.fill (h : Sound source chunk base u) (needed : Nat) :
    Sound source chunk base ⟨final (u.reader.fill needed), u.committed⟩ := by
  have hfetch := u.reader.fetches_fill needed
  constructor
  · show (final (u.reader.fill needed)).cursor ≤ _
    rw [hfetch.cursor]
    exact Nat.le_trans h.within hfetch.buffered_le
  · exact h.account.fill needed
  · show u.committed ++ (final (u.reader.fill needed)).stream = _
    rw [hfetch.stream, h.stream]
  · show (final (u.reader.fill needed)).position = _
    rw [hfetch.position, h.position]

/-- Placing the cursor within the buffer keeps what holds. -/
theorem Sound.moveTo {r : Lookahead} {taken : List UInt8} (h : Sound source chunk base ⟨r, taken⟩)
    {place : Nat} (hplace : place ≤ r.buffered) : Sound source chunk base ⟨r.moveTo place, taken⟩ where
  within := hplace
  account := ⟨h.account.chunk, h.account.source, h.account.delivered, h.account.ended⟩
  stream := h.stream
  position := h.position

/-- Committing keeps what holds: the bytes change their place in the account. -/
theorem Sound.commit (h : Sound source chunk base u) {count : Nat} {buffer : CircularBuffer UInt8}
    (hdrop : u.reader.buffer.discardFront count = .ok buffer) :
    Sound source chunk base
      ⟨{ u.reader with
          buffer := buffer, position := u.reader.position + UInt64.ofNat count, cursor := 0 },
        u.committed ++ u.reader.buffer.toList.take count⟩ := by
  obtain ⟨hview, -⟩ := CircularBuffer.toList_of_discardFront hdrop
  have hle := CircularBuffer.le_of_discardFront hdrop
  have hjoin : ∀ rest, u.committed ++ u.reader.buffer.toList.take count ++ (buffer.toList ++ rest) =
      u.committed ++ (u.reader.buffer.toList ++ rest) := by
    intro rest
    rw [hview, List.append_assoc, ← List.append_assoc (List.take _ _), List.take_append_drop]
  refine ⟨Nat.zero_le _, ⟨h.account.chunk, h.account.source, ?_, h.account.ended⟩, ?_, ?_⟩
  · have hnil := hjoin []
    rw [List.append_nil, List.append_nil] at hnil
    exact hnil.trans h.account.delivered
  · exact (hjoin _).trans h.stream
  · show u.reader.position + UInt64.ofNat count = base + UInt64.ofNat (List.length _)
    rw [h.position, List.length_append, List.length_take_of_le hle, UInt64.ofNat_add, UInt64.add_assoc]

/-- **One request** keeps what holds. -/
theorem Sound.step (h : Sound source chunk base u) (q : Request) : Sound source chunk base (u.step q) := by
  have hdone := perform_performed h.within q
  unfold Usage.step
  generalize u.reader.commits q = taken at hdone ⊢
  generalize u.reader.perform q = result at hdone ⊢
  cases hdone with
  | placed needed hplace =>
    rw [List.append_nil]
    exact (h.fill needed).moveTo hplace
  | refused needed =>
    rw [List.append_nil]
    exact h.fill needed
  | committed hdrop => exact h.commit hdrop

/-- **Whole runs.** -/
theorem Sound.run (qs : List Request) :
    ∀ {u : Usage}, Sound source chunk base u → Sound source chunk base (u.run qs) := by
  induction qs with
  | nil => exact id
  | cons q qs ih => exact fun h => ih (h.step q)

/-- After the end of the source no run of requests reads it. -/
theorem Sound.run_of_exhausted (qs : List Request) :
    ∀ {u : Usage}, Sound source chunk base u → u.reader.exhausted = true →
      (u.run qs).reader.demands = u.reader.demands ∧ (u.run qs).reader.source = u.reader.source := by
  induction qs with
  | nil => exact fun _ _ => ⟨rfl, rfl⟩
  | cons q qs ih =>
    intro u h hend
    obtain ⟨hdemands, hsource, hstill⟩ := perform_of_exhausted h.within hend q
    obtain ⟨hdemands', hsource'⟩ := ih (h.step q) hstill
    exact ⟨hdemands'.trans hdemands, hsource'.trans hsource⟩

/-- What is still ahead is the stream of the source without the committed bytes. -/
theorem Sound.stream_eq (h : Sound source chunk base u) :
    u.reader.stream = source.remaining.drop u.committed.length := by
  rw [← h.stream, List.drop_left]

/-- A byte that is looked at is the byte of the stream at its place. -/
theorem Sound.peekByte_some (h : Sound source chunk base u) {offset : Nat} {b : UInt8} {r' : Lookahead}
    (hpeek : peekByte offset u.reader = .ok (some b) r') :
    source.remaining[u.committed.length + u.reader.cursor + offset]? = some b := by
  have hlook := peekByte_looked offset u.reader
  rw [hpeek] at hlook
  cases hlook with
  | found _ _ hb _ =>
    rw [h.stream_eq, List.getElem?_drop, ← Nat.add_assoc] at hb
    exact hb

/-- A byte is missing only where the source has reported its end before it. -/
theorem Sound.peekByte_none (h : Sound source chunk base u) {offset : Nat} {r' : Lookahead}
    (hpeek : peekByte offset u.reader = .ok none r') :
    source.ReportsEnd (max chunk 1) r'.reads ∧
      source.remaining.length ≤ u.committed.length + u.reader.cursor + offset := by
  have hlook := peekByte_looked offset u.reader
  have hfinal := final_peekByte offset u.reader
  rw [hpeek] at hlook hfinal
  replace hfinal : r' = final (u.reader.fill (u.reader.cursor + offset + 1)) := hfinal
  constructor
  · have haccount := h.account.fill (u.reader.cursor + offset + 1)
    rw [← hfinal] at haccount
    exact haccount.ended.1 (exhausted_of_peekByte hpeek)
  · cases hlook with
    | ended _ _ hlen =>
      rw [h.stream_eq, List.length_drop] at hlen
      omega

/-- **Every byte is accounted for.**  Take a lookahead over any source, with any chunk size and start position,
after any requests.  Its cursor is within the buffer.  The committed bytes followed by the buffered ones are what
the reads so far have brought, which is the beginning of the stream of the source; the position counts the
committed bytes; and the source is taken for ended exactly if it has reported its end.  A byte that is looked at
is the one of the stream at its place, and is missing only if the source has reported its end before it.  The
pending bytes are those of the stream from the last commit to the cursor.  After its end the source is not read
again, whatever requests follow.  A request that fails leaves the position, the cursor and the buffered bytes as
they are, perhaps with more bytes behind them. -/
theorem bytes_are_accounted_for (source : Source) (chunk : Nat) (base : UInt64) (qs : List Request) :
    let u := (start source chunk base).run qs
    let r := u.reader
    let limit := max chunk 1
    r.cursor ≤ r.buffered ∧
    u.committed ++ r.buffer.toList = source.delivered limit r.reads ∧
    r.source = source.afterReads limit r.reads ∧
    source.delivered limit r.reads <+: source.remaining ∧
    r.position = base + UInt64.ofNat u.committed.length ∧
    (r.exhausted = true ↔ source.ReportsEnd limit r.reads) ∧
    (∀ k b r', peekByte k r = .ok (some b) r' →
      source.remaining[u.committed.length + r.cursor + k]? = some b) ∧
    (∀ k r', peekByte k r = .ok none r' →
      source.ReportsEnd limit r'.reads ∧ source.remaining.length ≤ u.committed.length + r.cursor + k) ∧
    r.pending = .ok ((source.remaining.drop u.committed.length).take r.cursor) ∧
    (r.exhausted = true → ∀ later,
      (u.run later).reader.reads = r.reads ∧ (u.run later).reader.source = r.source) ∧
    ∀ q f r', r.perform q = .error f r' →
      r'.position = r.position ∧ r'.cursor = r.cursor ∧ r.buffer.toList <+: r'.buffer.toList := by
  intro u r limit
  have h : Sound source chunk base u := (sound_start source chunk base).run qs
  refine ⟨h.within, h.account.delivered, h.account.source, ?_, h.position, h.account.ended, ?_, ?_, ?_,
    ?_, ?_⟩
  · rw [← h.account.delivered, ← h.stream, Lookahead.stream, ← List.append_assoc]
    exact List.prefix_append _ _
  · exact fun k b r' => h.peekByte_some
  · exact fun k r' => h.peekByte_none
  · rw [pending_eq h.within, ← h.stream_eq, take_stream h.within]
  · intro hend later
    obtain ⟨hdemands, hsource⟩ := h.run_of_exhausted later hend
    exact ⟨congrArg List.length hdemands, hsource⟩
  · exact fun q f r' => kept_of_perform_error h.within

/-- A source that fails after its first byte, reports its end too early and would go on after that. -/
def patchySource : Source :=
  ⟨[.piece [0x10], .failure ⟨.brokenPipe, "reset"⟩, .piece [0x20, 0x30], .piece [], .piece [0x40]]⟩

/-- The law at work: one byte is committed, two are buffered, and the last one is never asked for. -/
theorem bytes_are_accounted_for_patchySource :
    let u := (start patchySource 4 0x1000).run [.nextByte, .commit 1, .nextByte, .nextByte, .peekByte 5]
    u.committed = [0x10] ∧ u.reader.position = 0x1001 ∧
      Lookahead.peekByte 0 u.reader = .ok (some 0x30) u.reader ∧ patchySource.remaining[2]? = some 0x30 ∧
      (∀ later, (u.run later).reader.source.events = [.piece [0x40]]) ∧
      ∃ f r', u.reader.perform (.restore ⟨3⟩) = .error f r' ∧ r'.cursor = u.reader.cursor := by
  intro u
  have hcommitted : u.committed = [0x10] := by decide +kernel
  have hcursor : u.reader.cursor = 1 := by decide +kernel
  have hbuffer : u.reader.buffer.toList = [0x20, 0x30] := by decide +kernel
  have hover : u.reader.exhausted = true := by decide +kernel
  have hevents : u.reader.source.events = [.piece [0x40]] := by decide +kernel
  have hpeek : Lookahead.peekByte 0 u.reader = .ok (some 0x30) u.reader := by
    show Lookahead.peek u.reader = _
    rw [peek_of_ready (Or.inr hover), hcursor, hbuffer]
    rfl
  have hfail : u.reader.perform (.restore ⟨3⟩) = .error .outOfBounds u.reader := by
    have hlen := u.reader.length_buffer
    rw [hbuffer] at hlen
    show Lookahead.restore ⟨3⟩ u.reader = _
    rw [Lookahead.restore, ← hlen]
    rfl
  obtain ⟨-, -, -, -, hposition, -, hsome, -, -, hlater, hkept⟩ := bytes_are_accounted_for patchySource 4 0x1000
    [.nextByte, .commit 1, .nextByte, .nextByte, .peekByte 5]
  have hplace := hsome _ _ _ hpeek
  refine ⟨hcommitted, ?_, hpeek, ?_, ?_, ⟨_, _, hfail, (hkept _ _ _ hfail).2.1⟩⟩
  · rw [hposition, hcommitted]
    rfl
  · rw [hcommitted, hcursor] at hplace
    exact hplace
  · intro later
    exact (congrArg Source.events (hlater hover later).2).trans hevents

end Usage

end CodeAtlas
