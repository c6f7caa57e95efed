import CodeAtlas.Machine.Bits

/-!
# ModRM and SIB bytes

A ModRM byte packs a two-bit addressing mode, a three-bit register field `reg` and a three-bit field `rm`.
When the mode addresses memory and `rm` is `100`, a SIB byte follows, which packs a scale, an index register
and a base register.
-/

namespace CodeAtlas

/-- The three fields of a ModRM byte. -/
structure ModRM where
  mode : Fin 4
  reg : Fin 8
  rm : Fin 8
deriving DecidableEq

namespace ModRM

/-- Splits a byte into its fields. -/
def ofByte (b : UInt8) : ModRM :=
  ⟨topField b, middleField b, bottomField b⟩

/-- Whether `rm` names a register and not a place in memory. -/
def isRegister (m : ModRM) : Bool :=
  m.mode == 3

/-- Whether a SIB byte follows. -/
def hasSIB (m : ModRM) : Bool :=
  m.mode != 3 && m.rm == 4

/-- Whether the address is a bare 32-bit displacement. -/
def isAbsolute (m : ModRM) : Bool :=
  m.mode == 0 && m.rm == 5

end ModRM

/-- The three fields of a SIB byte. -/
structure SIB where
  scale : Fin 4
  index : Fin 8
  base : Fin 8
deriving DecidableEq

namespace SIB

/-- Splits a byte into its fields. -/
def ofByte (b : UInt8) : SIB :=
  ⟨topField b, middleField b, bottomField b⟩

/-- Whether there is an index register: the number `100` stands for none. -/
def hasIndex (s : SIB) : Bool :=
  s.index != 4

/-- Whether there is a base register: under mode `00` the number `101` stands for none. -/
def hasBase (s : SIB) (mode : Fin 4) : Bool :=
  !(s.base == 5 && mode == 0)

end SIB

end CodeAtlas
