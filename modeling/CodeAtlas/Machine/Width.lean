import CodeAtlas.Machine.Naming

/-!
# Operand widths

A data access of the machine is one, two or four bytes wide.  The bytes of an immediate field are read
either as a two's complement number or as a plain one (`Signedness`).
-/

namespace CodeAtlas

/-- The width of a data access. -/
inductive Width where
  | byte
  | word
  | dword
deriving DecidableEq, Inhabited

namespace Width

/-- Number of bytes. -/
def size : Width → Nat
  | byte => 1
  | word => 2
  | dword => 4

/-- Number of bits. -/
def bits (w : Width) : Nat :=
  8 * w.size

/-- How many different contents a place of this width can have: two to the number of bits. -/
def contents : Width → Nat
  | byte => 0x100
  | word => 0x10000
  | dword => 0x100000000

/-- The assembler's word for the width. -/
def name : Width → String
  | byte => "byte"
  | word => "word"
  | dword => "dword"

/-- Every width, narrowest first. -/
def all : List Width :=
  [byte, word, dword]

/-- The width of a given name; capitals are not accepted. -/
def ofName (s : String) : Except NameFault Width :=
  findNamed all fun w => w.name == s

end Width

/-- How the bytes of a field are read as a number. -/
inductive Signedness where
  | signed
  | unsigned
deriving DecidableEq, Inhabited

end CodeAtlas
