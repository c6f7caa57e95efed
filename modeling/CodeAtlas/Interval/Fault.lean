import CodeAtlas.Interval.Basic
import CodeAtlas.Text.Value

/-!
# Faults about intervals

Bounds can be the wrong way round (`Interval.Inverted`), and a text can fail to be an interval (`Malformed`).
-/

namespace CodeAtlas

universe u

/-- What is wrong with the text of an interval. -/
inductive Malformed.Cause where
  /-- It does not begin with a bracket. -/
  | noOpening
  /-- It does not end with a bracket. -/
  | noClosing
  /-- No semicolon divides the end points. -/
  | noSeparator
  /-- An end point is neither infinite nor a value. -/
  | unreadable (token : List Char)
deriving DecidableEq

/-- A text that is no interval. -/
structure Malformed where
  text : List Char
  cause : Malformed.Cause
deriving DecidableEq

namespace Malformed

/-- The wording of a cause. -/
def Cause.message : Cause → String
  | noOpening => "expected '[' or '(' at the start"
  | noClosing => "expected ']' or ')' at the end"
  | noSeparator => "missing ';' between the bounds"
  | unreadable token => "cannot parse bound '" ++ String.ofList token ++ "'"

/-- The whole message. -/
def message (m : Malformed) : String :=
  "Malformed interval '" ++ String.ofList m.text ++ "': " ++ m.cause.message

end Malformed

/-- The text of a bound inside a message. -/
def Bound.quote {T : Type u} [TextValue T] : Bound T → String
  | .unbounded => "Unbounded"
  | .inclusive x => "Inclusive(" ++ String.ofList (TextValue.quote x) ++ ")"
  | .exclusive x => "Exclusive(" ++ String.ofList (TextValue.quote x) ++ ")"

/-- The message about bounds that leave nothing between them. -/
def Interval.Inverted.message {T : Type u} [TextValue T] (b : Interval.Inverted T) : String :=
  "Invalid interval - lower bound " ++ b.lower.quote ++ " lies after upper bound " ++ b.upper.quote

end CodeAtlas
