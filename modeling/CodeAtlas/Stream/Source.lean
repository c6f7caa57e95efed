/-!
# Byte sources

A source delivers its bytes in pieces and can fail in between.  It is given by the events still to come:
each read meets the first of them.  A read asks for at most `limit` bytes; a piece that is longer stays in
front with what is left of it.  A read that brings no bytes means the end of the source, whether no event
is left or an empty piece was met.

* `Source.read` — one read;
* `Source.weight` — a measure that every read with a result of its own makes smaller.
-/

namespace CodeAtlas

/-- The kind of a failed read. -/
inductive FailureKind where
  | interrupted
  | brokenPipe
  | unexpectedEnd
  | other
deriving DecidableEq

/-- A failed read. -/
structure Failure where
  kind : FailureKind
  message : String
deriving DecidableEq

/-- What a source does next. -/
inductive SourceEvent where
  /-- It delivers a piece of its bytes. -/
  | piece (bytes : List UInt8)
  /-- It fails once. -/
  | failure (f : Failure)
deriving DecidableEq

/-- A source, by the events still to come. -/
structure Source where
  events : List SourceEvent
deriving DecidableEq

/-- The result of one read. -/
inductive Reply where
  | bytes (bs : List UInt8)
  | failed (f : Failure)
deriving DecidableEq

namespace Source

/-- The source that delivers all its bytes in one piece. -/
def ofBytes (bs : List UInt8) : Source :=
  ⟨[.piece bs]⟩

/-- One read of at most `limit` bytes, and the source after it. -/
def read (limit : Nat) : Source → Reply × Source
  | ⟨[]⟩ => (.bytes [], ⟨[]⟩)
  | ⟨.failure f :: events⟩ => (.failed f, ⟨events⟩)
  | ⟨.piece bs :: events⟩ =>
    if bs.length ≤ limit then (.bytes bs, ⟨events⟩)
    else (.bytes (bs.take limit), ⟨.piece (bs.drop limit) :: events⟩)

/-- The weight of an event: one, and one more for each byte. -/
def eventWeight : SourceEvent → Nat
  | .piece bs => bs.length + 1
  | .failure _ => 1

/-- The weight of all events to come. -/
def weight (s : Source) : Nat :=
  s.events.foldr (fun e n => eventWeight e + n) 0

/-- A read that fails or brings bytes makes the source lighter. -/
theorem weight_read_lt {limit : Nat} (s : Source) (hl : 0 < limit)
    (hr : (s.read limit).1 ≠ .bytes []) : (s.read limit).2.weight < s.weight := by
  match s with
  | ⟨[]⟩ => exact absurd rfl hr
  | ⟨.failure f :: events⟩ =>
    simp only [read, weight, eventWeight, List.foldr_cons]
    omega
  | ⟨.piece bs :: events⟩ =>
    by_cases h : bs.length ≤ limit
    · simp only [read, h, if_true, weight, eventWeight, List.foldr_cons]
      omega
    · simp only [read, h, if_false, weight, eventWeight, List.foldr_cons, List.length_drop]
      omega

end Source

end CodeAtlas
