/-!
# Looking things up by name

Registers, widths, conditions and mnemonics have fixed names.  A look-up goes through all things of a kind in
their order and fails if none fits.
-/

namespace CodeAtlas

/-- Why a look-up by name failed. -/
inductive NameFault where
  /-- Nothing of the kind asked for is called so. -/
  | unknown
deriving DecidableEq

/-- The wording of a failed look-up. -/
def NameFault.message : NameFault → String
  | unknown => "Matching variant not found"

/-- The first of the given things that a name fits. -/
def findNamed {α : Type} (all : List α) (fits : α → Bool) : Except NameFault α :=
  match all.find? fits with
  | some a => .ok a
  | none => .error .unknown

end CodeAtlas
