import CodeAtlas.Encoding.Grammar
import CodeAtlas.Encoding.Secondary

/-!
# Opcodes

An opcode is one byte, or two bytes that begin with the escape `0F`, or three bytes that begin with `0F 01`.
-/

namespace CodeAtlas

/-- An opcode, by its last byte and the number of its bytes. -/
inductive Opcode where
  | primary (b : UInt8)
  | secondary (b : UInt8)
  | tertiary (b : UInt8)
deriving DecidableEq

namespace Opcode

/-- Completes the opcode that begins with a given byte. -/
def startingWith (first : UInt8) : Grammar Opcode :=
  if first = 0x0F then
    .byte fun second =>
      if second = 0x01 then .byte fun third => .accept (tertiary third)
      else .accept (secondary second)
  else .accept (primary first)

/-- The meaning of an opcode. -/
def entry : Opcode → Entry
  | primary b => OpcodeMap.primary b
  | secondary b => OpcodeMap.secondary b
  | tertiary b => OpcodeMap.tertiary b

end Opcode

end CodeAtlas
