/-!
# Hexadecimal text

Stream offsets and byte sequences in messages are written in base sixteen with small letters.
-/

namespace CodeAtlas.Text

/-- Base sixteen digits without leading zeros; zero is written `0`. -/
def hexDigits (n : Nat) : String :=
  String.ofList (Nat.toDigits 16 n)

/-- A stream offset: `0x` and its digits. -/
def hexOffset (offset : UInt64) : String :=
  "0x" ++ hexDigits offset.toNat

/-- A byte as exactly two digits. -/
def hexByte (b : UInt8) : String :=
  if b < 16 then "0" ++ hexDigits b.toNat else hexDigits b.toNat

/-- A byte sequence: two digits a byte, separated by commas, in square brackets. -/
def hexBytes (bs : List UInt8) : String :=
  "[" ++ ", ".intercalate (bs.map hexByte) ++ "]"

end CodeAtlas.Text
