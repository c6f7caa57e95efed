import CodeAtlas.Stream.Fault
import CodeAtlas.Text.Hex

/-!
# Faults of decoding
-/

namespace CodeAtlas

/-- Why no instruction was decoded. -/
inductive DecodeFault where
  /-- The bytes ran out inside the instruction that starts at `offset`, after `bytes`. -/
  | truncated (offset : UInt64) (bytes : List UInt8)
  /-- No instruction begins with `bytes`, which stand at `offset`. -/
  | unrecognized (offset : UInt64) (bytes : List UInt8)
  /-- The bytes could not be had. -/
  | stream (f : StreamFault)
deriving DecidableEq

namespace DecodeFault

/-- The wording of a fault. -/
def message : DecodeFault → String
  | truncated offset bytes =>
    "Unexpected end of stream at " ++ Text.hexOffset offset ++ " after " ++ Text.hexBytes bytes
  | unrecognized offset bytes =>
    "Unrecognized opcode at " ++ Text.hexOffset offset ++ ": " ++ Text.hexBytes bytes
  | stream f => f.message

/-- Whether more bytes could have helped. -/
def isTruncation : DecodeFault → Bool
  | truncated _ _ => true
  | _ => false

/-- The bytes that the fault is about. -/
def bytes? : DecodeFault → Option (List UInt8)
  | truncated _ bytes => some bytes
  | unrecognized _ bytes => some bytes
  | stream _ => none

/-- The offset of the instruction that the fault is about. -/
def offset? : DecodeFault → Option UInt64
  | truncated offset _ => some offset
  | unrecognized offset _ => some offset
  | stream _ => none

end DecodeFault

end CodeAtlas
