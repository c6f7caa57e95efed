import CodeAtlas.Machine.Width
import CodeAtlas.Text.Quoted

/-!
# Values with a text

The end points of intervals are read from text and written to it.  `TextValue` says how, for the types of
end points: whole numbers of a limited range (`Numeral`), characters and texts.
-/

namespace CodeAtlas

universe u

/-- A type whose values can be read from text and written to it. -/
class TextValue (T : Type u) where
  /-- The value of a text, if it is the text of one. -/
  read? : List Char → Option T
  /-- The text of a value. -/
  write : T → List Char
  /-- The text of a value inside a message. -/
  quote : T → List Char

/-! ## Whole numbers of a limited range -/

/-- A range of whole numbers: those that fit into so many bits, with or without a sign. -/
structure IntegerKind where
  signedness : Signedness
  bits : Nat
deriving DecidableEq

namespace IntegerKind

/-- The least number of the range. -/
def least (k : IntegerKind) : Int :=
  match k.signedness with
  | .signed => -Int.ofNat (Nat.pow 2 (k.bits - 1))
  | .unsigned => 0

/-- The greatest number of the range. -/
def greatest (k : IntegerKind) : Int :=
  match k.signedness with
  | .signed => Int.ofNat (Nat.pow 2 (k.bits - 1)) - 1
  | .unsigned => Int.ofNat (Nat.pow 2 k.bits) - 1

end IntegerKind

/-- A whole number of a given range. -/
structure Numeral (k : IntegerKind) where
  val : Int
  least_le : k.least ≤ val
  le_greatest : val ≤ k.greatest
deriving DecidableEq

namespace Numeral

instance {k : IntegerKind} : Ord (Numeral k) where
  compare a b := compare a.val b.val

/-- The number of the given value, if it lies in the range. -/
def ofInt? (k : IntegerKind) (n : Int) : Option (Numeral k) :=
  if h : k.least ≤ n ∧ n ≤ k.greatest then some ⟨n, h.1, h.2⟩ else none

/-- The natural number that a sequence of decimal digits stands for; there must be at least one digit. -/
def digits? (s : List Char) : Option Nat :=
  if s ≠ [] ∧ s.all Char.isDigit then some (Nat.ofDigitChars 10 s 0) else none

/-- Reads a number: an optional sign and decimal digits.  A minus sign is allowed only in ranges of signed
numbers. -/
def read? (k : IntegerKind) : List Char → Option (Numeral k)
  | '+' :: s => (digits? s).bind fun n => ofInt? k n
  | '-' :: s =>
    match k.signedness with
    | .signed => (digits? s).bind fun n => ofInt? k (-n)
    | .unsigned => none
  | s => (digits? s).bind fun n => ofInt? k n

/-- Writes a number: a minus sign if it is negative, and its decimal digits. -/
def write {k : IntegerKind} (a : Numeral k) : List Char :=
  if a.val < 0 then '-' :: Nat.toDigits 10 a.val.natAbs else Nat.toDigits 10 a.val.natAbs

end Numeral

instance {k : IntegerKind} : TextValue (Numeral k) where
  read? := Numeral.read? k
  write := Numeral.write
  quote := Numeral.write

/-! ## Characters and texts -/

instance : TextValue Char where
  read?
    | [c] => some c
    | _ => none
  write c := [c]
  quote c := Text.quoted '\'' [c]

instance : TextValue String where
  read? s := some (String.ofList s)
  write := String.toList
  quote s := Text.quoted '"' s.toList

end CodeAtlas
