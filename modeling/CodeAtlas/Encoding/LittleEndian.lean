import CodeAtlas.Machine.Width
import CodeAtlas.Stream.Fault

/-!
# Little-endian numbers

A field of several bytes holds its least significant byte first.
-/

namespace CodeAtlas.LittleEndian

/-- The plain number that a sequence of bytes holds. -/
def toNat : List UInt8 → Nat
  | [] => 0
  | b :: bs => b.toNat + 256 * toNat bs

/-- The number that a field holds: plain, or in two's complement over all the bits of the field. -/
def toInt : Signedness → List UInt8 → Int
  | .unsigned, bs => Int.ofNat (toNat bs)
  | .signed, bs => Int.bmod (Int.ofNat (toNat bs)) (Nat.pow 256 bs.length)

/-- The number in the first bytes of a sequence, as many as the width says; bytes after them do not
matter, and too few bytes are a fault. -/
def read (w : Width) (s : Signedness) (bs : List UInt8) : Except StreamFault Int :=
  if bs.length < w.size then .error .outOfBounds else .ok (toInt s (bs.take w.size))

end CodeAtlas.LittleEndian
