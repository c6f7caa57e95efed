import CodeAtlas.Interval.Set

/-!
# Interval maps

A map from disjoint intervals to values.  The stored keys are in ascending order; keys that touch are kept
apart, even with equal values.

* `addWith` — maps an interval to a value, and combines it with what is stored where it overlaps;
* `insert`, `erase` — maps an interval to a value, or to nothing;
* `get?` — the value at a point.
-/

namespace CodeAtlas

universe u v

/-- Disjoint intervals with their values, stored in ascending order. -/
structure IntervalMap (K : Type u) (V : Type v) where
  entries : Array (Interval K × V)

namespace IntervalMap

variable {K : Type u} {V : Type v}

/-- The map without entries. -/
def empty : IntervalMap K V :=
  ⟨#[]⟩

/-- The stored entries in ascending order. -/
def toList (m : IntervalMap K V) : List (Interval K × V) :=
  m.entries.toList

/-- Number of stored entries. -/
def size (m : IntervalMap K V) : Nat :=
  m.entries.size

/-- Whether nothing is stored. -/
def isEmpty (m : IntervalMap K V) : Bool :=
  m.entries.isEmpty

variable [Ord K]

instance [DecidableEq K] [BEq V] : BEq (IntervalMap K V) where
  beq m n := m.toList == n.toList

/-- The value at a point. -/
def get? (m : IntervalMap K V) (x : K) : Option V :=
  match m.entries[Row.partitionPoint m.entries fun e => e.1.endsBefore x]? with
  | some e => if e.1.contains x then some e.2 else none
  | none => none

/-- The points that have a value. -/
def covered (m : IntervalMap K V) : IntervalSet K :=
  .ofList (m.toList.map Prod.fst)

/-- The notes about building the set of points that have a value. -/
def coveredNotes (m : IntervalMap K V) : List Note :=
  IntervalSet.empty.notes (m.toList.map fun e => .insert e.1)

/-- The places of the entries whose keys overlap an interval. -/
def overlappingRange (m : IntervalMap K V) (keys : Interval K) : Nat × Nat :=
  if keys.isEmpty then (0, 0)
  else
    let start := Row.partitionPoint m.entries fun e => e.1.isBefore keys
    let stop := Row.partitionPoint m.entries fun e => !keys.isBefore e.1
    (start, max stop start)

/-- The entries whose keys overlap an interval, in ascending order. -/
def overlapping (m : IntervalMap K V) (keys : Interval K) : List (Interval K × V) :=
  let (start, stop) := m.overlappingRange keys
  (m.entries.extract start stop).toList

/-! ## Adding -/

/-- The part of an entry before `keys`, if there is one. -/
def leftPart (keys : Interval K) (e : Interval K × V) : List (Interval K × V) :=
  (Interval.until? e.1.lower keys.lower).toList.map fun i => (i, e.2)

/-- The part of an entry after `keys`, if there is one. -/
def rightPart (keys : Interval K) (e : Interval K × V) : List (Interval K × V) :=
  (Interval.after? keys.upper e.1.upper).toList.map fun i => (i, e.2)

/-- The part of an entry inside `keys`, with the combined value. -/
def corePart (combine : V → V → V) (keys : Interval K) (value : V) (e : Interval K × V) :
    List (Interval K × V) :=
  (e.1.intersection? keys).toList.map fun i => (i, combine e.2 value)

/-- Lays `keys` with `value` over entries that overlap it, in ascending order.  `uncovered` is where the part
of `keys` begins that no entry so far has met; there is none once an entry has no upper limit. -/
def overlay (combine : V → V → V) (keys : Interval K) (value : V) :
    (uncovered : Option (Bound K)) → List (Interval K × V) → List (Interval K × V)
  | none, [] => []
  | some lower, [] =>
    let tail : Interval K := ⟨lower, keys.upper⟩
    if tail.isEmpty then [] else [(tail, value)]
  | uncovered, e :: rest =>
    let gap := uncovered.bind fun lower => Interval.until? lower e.1.lower
    leftPart keys e ++ gap.toList.map (fun i => (i, value)) ++ corePart combine keys value e
      ++ rightPart keys e ++ overlay combine keys value e.1.upper.complement? rest

/-- What adding `keys` with `value` changes. -/
def addition? (m : IntervalMap K V) (combine : V → V → V) (keys : Interval K) (value : V) :
    Option (Row.Edit (Interval K × V)) :=
  if keys.isEmpty then none
  else
    let (start, stop) := m.overlappingRange keys
    if start < stop then
      some ⟨start, stop, overlay combine keys value (some keys.lower) (m.overlapping keys)⟩
    else some ⟨start, start, [(keys, value)]⟩

/-- Maps `keys` to `value`.  Where a value is stored already, the two are combined, the stored one first. -/
def addWith (m : IntervalMap K V) (combine : V → V → V) (keys : Interval K) (value : V) :
    IntervalMap K V :=
  match m.addition? combine keys value with
  | some e => ⟨e.apply m.entries⟩
  | none => m

/-- The pairs of a stored and a new value that adding combines, in the order of the keys. -/
def collisions (m : IntervalMap K V) (keys : Interval K) (value : V) : List (V × V) :=
  (m.overlapping keys).map fun e => (e.2, value)

/-- What is worth noting about adding: that it meets more than one entry. -/
def additionNotes (m : IntervalMap K V) (keys : Interval K) : List Note :=
  let met := (m.overlapping keys).length
  if 1 < met then [.spans met] else []

/-- Maps `keys` to `value`, whatever was stored there. -/
def insert (m : IntervalMap K V) (keys : Interval K) (value : V) : IntervalMap K V :=
  m.addWith (fun _ new => new) keys value

/-! ## Erasing -/

/-- What erasing `keys` changes: the entries that it overlaps give way to their parts before and after. -/
def erasure? (m : IntervalMap K V) (keys : Interval K) : Option (Row.Edit (Interval K × V)) :=
  let (start, stop) := m.overlappingRange keys
  if start < stop then
    some ⟨start, stop, (m.overlapping keys).flatMap fun e => leftPart keys e ++ rightPart keys e⟩
  else none

/-- Maps `keys` to nothing. -/
def erase (m : IntervalMap K V) (keys : Interval K) : IntervalMap K V :=
  match m.erasure? keys with
  | some e => ⟨e.apply m.entries⟩
  | none => m

end IntervalMap

end CodeAtlas
