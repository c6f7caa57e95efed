import CodeAtlas.Note
import CodeAtlas.Stream.CircularBuffer

/-!
# Reading ahead

A `Lookahead` fetches bytes from a source in chunks and keeps them in a circular buffer until they are
committed.  A cursor walks over the buffered bytes and can be put back, so bytes may be looked at and left
for later.

The operations are state transformers that may fail; a failure keeps whatever was fetched before it.

* `fill` — fetches until enough bytes are buffered or the source has ended;
* `peekByte`, `nextByte`, `advance`, `retreat`, `checkpoint`, `restore` — moves of the cursor;
* `commit` — gives up the first buffered bytes and moves the stream position past them.
-/

namespace CodeAtlas

/-- A source with the bytes fetched from it and not yet committed. -/
structure Lookahead where
  source : Source
  buffer : CircularBuffer UInt8
  /-- How many bytes a read asks for. -/
  chunk : Nat
  chunk_pos : 0 < chunk
  /-- Place of the next byte, counted from the front of the buffer. -/
  cursor : Nat
  /-- Stream offset of the front of the buffer. -/
  position : UInt64
  /-- Whether the source has ended; it is not read again then. -/
  exhausted : Bool
  /-- For every read so far, the latest first, how many bytes were buffered when it was made. -/
  demands : List Nat
  /-- What was worth noting so far, the latest first. -/
  journal : List Note

namespace Lookahead

/-- A step that may fail. -/
abbrev Step : Type → Type := EStateM StreamFault Lookahead

/-- How many bytes a read asks for if nothing else is said. -/
def defaultChunk : Nat := 16

/-- A fresh lookahead over a source that reads `chunk` bytes at a time, or one if `chunk` is zero, and
counts stream offsets from `position`. -/
def start (source : Source) (chunk : Nat) (position : UInt64) : Lookahead where
  source := source
  buffer := .withCapacity (2 * max chunk 1)
  chunk := max chunk 1
  chunk_pos := Nat.lt_of_lt_of_le Nat.one_pos (Nat.le_max_right _ _)
  cursor := 0
  position := position
  exhausted := false
  demands := []
  journal := []

/-- Number of buffered bytes. -/
def buffered (r : Lookahead) : Nat :=
  r.buffer.size

/-- Number of reads made so far, failed ones included. -/
def reads (r : Lookahead) : Nat :=
  r.demands.length

/-- Adds a note to the journal. -/
def note (n : Note) (r : Lookahead) : Lookahead :=
  { r with journal := n :: r.journal }

/-- What was noted since an earlier state, in order. -/
def notesSince (before r : Lookahead) : List Note :=
  (r.journal.take (r.journal.length - before.journal.length)).reverse

/-- Makes sure that a whole chunk fits into the buffer. -/
def makeRoom (r : Lookahead) : Lookahead :=
  if r.buffer.free < r.chunk then
    { r with buffer := r.buffer.grow (max (2 * r.buffer.capacity) (r.buffer.size + r.chunk)) }
  else r

/-- The state after a read: the source has moved on and the read is recorded. -/
def afterRead (r : Lookahead) (source : Source) : Lookahead :=
  { r.makeRoom with source := source, demands := r.buffered :: r.demands }

/-- The state after a read that brought nothing. -/
def atEnd (r : Lookahead) : Lookahead :=
  { r with exhausted := true }.note
    (.exhausted (r.position + UInt64.ofNat r.buffered) r.buffered)

/-- Reads chunks until `needed` bytes are buffered or the source has ended.  Interrupted reads are made
again; any other failure of the source ends the attempt. -/
def fill (needed : Nat) (r : Lookahead) : EStateM.Result StreamFault Lookahead Unit :=
  if r.buffered < needed ∧ r.exhausted = false then
    match _hread : r.source.read r.chunk with
    | (.bytes [], source) => .ok () (r.afterRead source).atEnd
    | (.bytes (b :: bs), source) =>
      match (r.afterRead source).buffer.pushAll (b :: bs) with
      | .ok buffer => fill needed { r.afterRead source with buffer := buffer }
      | .error f => .error f (r.afterRead source)
    | (.failed f, source) =>
      if f.kind = .interrupted then fill needed (r.afterRead source)
      else .error (.source f) (r.afterRead source)
  else .ok () r
termination_by r.source.weight
decreasing_by
  all_goals
    have h := r.source.weight_read_lt r.chunk_pos (by rw [_hread]; simp)
    rw [_hread] at h
    exact h

/-- The byte `offset` places after the cursor, if the source goes that far. -/
def peekByte (offset : Nat) : Step (Option UInt8) := fun r =>
  match r.fill (r.cursor + offset + 1) with
  | .error f r' => .error f r'
  | .ok () r' =>
    if r'.cursor + offset < r'.buffered then
      match r'.buffer.get (r'.cursor + offset) with
      | .ok b => .ok (some b) r'
      | .error f => .error f r'
    else .ok none r'

/-- The byte under the cursor. -/
def peek : Step (Option UInt8) :=
  peekByte 0

/-- The same state with the cursor at another place. -/
def moveTo (place : Nat) (r : Lookahead) : Lookahead :=
  { r with cursor := place }

/-- The byte under the cursor, and moves past it; at the end of the source the cursor stays. -/
def nextByte : Step (Option UInt8) := fun r =>
  match peek r with
  | .ok (some b) r' => .ok (some b) (r'.moveTo (r'.cursor + 1))
  | .ok none r' => .ok none r'
  | .error f r' => .error f r'

/-- Whether there is a byte under the cursor. -/
def hasData : Step Bool := fun r =>
  match peek r with
  | .ok b r' => .ok b.isSome r'
  | .error f r' => .error f r'

/-- Moves past the byte under the cursor, which must be there. -/
def advance : Step Unit := fun r =>
  match peek r with
  | .ok (some _) r' => .ok () (r'.moveTo (r'.cursor + 1))
  | .ok none r' => .error .outOfBounds r'
  | .error f r' => .error f r'

/-- Moves back by one byte, but not past the last commit. -/
def retreat : Step Unit := fun r =>
  if r.cursor = 0 then .error .outOfBounds r
  else .ok () (r.moveTo (r.cursor - 1))

/-- A saved place of the cursor.  It means something only until the next commit. -/
structure Checkpoint where
  place : Nat
deriving DecidableEq

/-- The present place of the cursor. -/
def checkpoint (r : Lookahead) : Checkpoint :=
  ⟨r.cursor⟩

/-- Puts the cursor at a saved place, which must not lie past the buffered bytes. -/
def restore (c : Checkpoint) : Step Unit := fun r =>
  if c.place ≤ r.buffered then .ok () (r.moveTo c.place)
  else .error .outOfBounds r

/-- The bytes between the last commit and the cursor. -/
def pending (r : Lookahead) : Except StreamFault (List UInt8) :=
  r.buffer.slice 0 r.cursor

/-- Gives up the first `count` buffered bytes; the cursor goes to the new front. -/
def commit (count : Nat) : Step Unit := fun r =>
  match r.buffer.discardFront count with
  | .ok buffer =>
    .ok () { r with buffer := buffer, position := r.position + UInt64.ofNat count, cursor := 0 }
  | .error f => .error f r

end Lookahead

end CodeAtlas
