import CodeAtlas.Stream.Source

/-!
# Faults of the stream layer
-/

namespace CodeAtlas

/-- Why an operation on a buffer or a stream failed. -/
inductive StreamFault where
  /-- A buffer of the given capacity has no free slot. -/
  | full (capacity : Nat)
  /-- A position outside the stored data was asked for. -/
  | outOfBounds
  /-- The source failed. -/
  | source (f : Failure)
deriving DecidableEq

namespace StreamFault

/-- The wording of a fault. -/
def message : StreamFault → String
  | full capacity => "Ring buffer is full - capacity " ++ toString capacity
  | outOfBounds => "Out of Bound read would have occurred!"
  | source f => f.message

end StreamFault

end CodeAtlas
