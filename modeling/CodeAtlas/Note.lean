import CodeAtlas.Decoder.Fault
import CodeAtlas.Machine.Mnemonic

/-!
# Notes

While it works the library notes what happens, for whoever wants to follow it.  A note is a value; it is
put into words only when it is shown.
-/

namespace CodeAtlas

/-- How much a note matters. -/
inductive Level where
  | trace
  | debug
deriving DecidableEq

/-- The name of a level. -/
def Level.name : Level → String
  | trace => "TRACE"
  | debug => "DEBUG"

/-- Something worth noting. -/
inductive Note where
  /-- The source ended at `offset`, with `buffered` bytes still to be used. -/
  | exhausted (offset : UInt64) (buffered : Nat)
  /-- An instruction was decoded. -/
  | decoded (mnemonic : Mnemonic) (offset : UInt64) (length : Nat)
  /-- The source ended inside the instruction at `offset`. -/
  | truncated (offset : UInt64) (bytes : List UInt8)
  /-- No instruction begins with the bytes at `offset`. -/
  | unrecognized (offset : UInt64) (bytes : List UInt8)
  /-- No instruction was decoded at `offset`. -/
  | failed (offset : UInt64) (fault : DecodeFault)
  /-- An interval added to a set joined several stored ones. -/
  | merges (count : Nat)
  /-- An interval removed from a set met several stored ones. -/
  | removes (count : Nat)
  /-- A key added to a map met several stored ones. -/
  | spans (count : Nat)
deriving DecidableEq

namespace Note

/-- How much a note matters. -/
def level : Note → Level
  | exhausted _ _ => .debug
  | decoded _ _ _ => .trace
  | truncated _ _ => .debug
  | unrecognized _ _ => .debug
  | failed _ _ => .debug
  | merges _ => .trace
  | removes _ => .trace
  | spans _ => .trace

/-- The wording of a note. -/
def message : Note → String
  | exhausted offset buffered =>
    "byte source exhausted at offset " ++ Text.hexOffset offset ++ " with " ++ toString buffered
      ++ " bytes buffered"
  | decoded mnemonic offset length =>
    "decoded " ++ mnemonic.name ++ " at " ++ Text.hexOffset offset ++ " (" ++ toString length
      ++ " bytes)"
  | truncated offset bytes =>
    "source ended inside instruction at " ++ Text.hexOffset offset ++ ": " ++ Text.hexBytes bytes
  | unrecognized offset bytes =>
    "unrecognized opcode at " ++ Text.hexOffset offset ++ ": " ++ Text.hexBytes bytes
  | failed offset fault =>
    "decoding failed at " ++ Text.hexOffset offset ++ ": " ++ fault.message
  | merges count => "interval merges " ++ toString count ++ " stored intervals"
  | removes count => "interval removes " ++ toString count ++ " stored intervals"
  | spans count => "key spans " ++ toString count ++ " stored entries"

/-- A note as one line: its level and its wording. -/
def line (n : Note) : String :=
  n.level.name ++ " " ++ n.message

end Note

end CodeAtlas
