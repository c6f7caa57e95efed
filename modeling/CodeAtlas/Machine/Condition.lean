import CodeAtlas.Machine.Naming

/-!
# Condition codes

Conditional jumps, moves and byte stores test one of sixteen conditions, coded in four bits.  Conditions
come in pairs that differ in the lowest bit of their codes; the two of a pair are each other's negation.
-/

namespace CodeAtlas

/-- A condition on the flags, in the order of the codes. -/
inductive Condition where
  | o
  | no
  | b
  | ae
  | e
  | ne
  | be
  | a
  | s
  | ns
  | p
  | np
  | l
  | ge
  | le
  | g
deriving DecidableEq, Inhabited

namespace Condition

/-- Every condition, in the order of the codes. -/
def all : List Condition :=
  [o, no, b, ae, e, ne, be, a, s, ns, p, np, l, ge, le, g]

/-- The condition of a four-bit code. -/
def ofCode : Fin 16 → Condition
  | 0 => o
  | 1 => no
  | 2 => b
  | 3 => ae
  | 4 => e
  | 5 => ne
  | 6 => be
  | 7 => a
  | 8 => s
  | 9 => ns
  | 10 => p
  | 11 => np
  | 12 => l
  | 13 => ge
  | 14 => le
  | _ => g

/-- The four-bit code of a condition. -/
def code : Condition → Fin 16
  | o => 0
  | no => 1
  | b => 2
  | ae => 3
  | e => 4
  | ne => 5
  | be => 6
  | a => 7
  | s => 8
  | ns => 9
  | p => 10
  | np => 11
  | l => 12
  | ge => 13
  | le => 14
  | g => 15

/-- The condition coded in the low four bits of a byte. -/
def ofByte (x : UInt8) : Condition :=
  ofCode ⟨x.toNat % 16, Nat.mod_lt _ (by decide)⟩

/-- The condition that holds exactly when this one does not: its code differs in the lowest bit. -/
def negate (c : Condition) : Condition :=
  ofCode (c.code ^^^ 1)

/-- The assembler's suffix for a condition. -/
def name : Condition → String
  | o => "o"
  | no => "no"
  | b => "b"
  | ae => "ae"
  | e => "e"
  | ne => "ne"
  | be => "be"
  | a => "a"
  | s => "s"
  | ns => "ns"
  | p => "p"
  | np => "np"
  | l => "l"
  | ge => "ge"
  | le => "le"
  | g => "g"

/-- The condition of a given name; capitals are not accepted. -/
def ofName (x : String) : Except NameFault Condition :=
  findNamed all fun c => c.name == x

/-- Reading back the code of a condition gives the condition. -/
@[simp] theorem ofCode_code (c : Condition) : ofCode c.code = c := by
  cases c <;> rfl

end Condition

end CodeAtlas
