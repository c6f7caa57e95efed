import CodeAtlas.Encoding.Form

/-!
# The map of one-byte opcodes

`primary` gives the meaning of every one-byte opcode.  The first quarter of the map holds the eight
arithmetic operations in six forms each; most of the rest is regular in rows of eight.
-/

namespace CodeAtlas.OpcodeMap

/-- The arithmetic operation of a three-bit number. -/
def arithmeticOp : Fin 8 → BinaryOp
  | 0 => .add
  | 1 => .or
  | 2 => .adc
  | 3 => .sbb
  | 4 => .and
  | 5 => .sub
  | 6 => .xor
  | 7 => .cmp

/-- Immediates of the bitwise operations are plain numbers, those of the others are signed. -/
def arithmeticSign (n : Fin 8) : Signedness :=
  match arithmeticOp n with
  | .or | .and | .xor => .unsigned
  | _ => .signed

/-- The shift or rotation of a three-bit number; six stands for none. -/
def shiftOp? : Fin 8 → Option BinaryOp
  | 0 => some .rol
  | 1 => some .ror
  | 2 => some .rcl
  | 3 => some .rcr
  | 4 => some .shl
  | 5 => some .shr
  | 6 => none
  | 7 => some .sar

/-- Opcodes below `40`: an arithmetic operation by the middle bits, its form by the low bits, and the four
decimal adjustments. -/
def arithmetic (b : UInt8) : Entry :=
  let n := middleField b
  let op := arithmeticOp n
  let size := Size.ofOpcode b
  match bottomField b with
  | 0 | 1 => .fields (.binary op (.rm size) (.reg size))
  | 2 | 3 => .fields (.binary op (.reg size) (.rm size))
  | 4 | 5 => .form (.binary op (.accumulator size) (.immediate size (arithmeticSign n)))
  | 6 => .undefined
  | 7 =>
    match n with
    | 4 => .plain .daa
    | 5 => .plain .das
    | 6 => .plain .aaa
    | 7 => .plain .aas
    | _ => .undefined

/-- An arithmetic operation with an immediate, selected by `reg`. -/
def immediateGroup (size : Size) (immediate : Fin 8 → Slot) : Entry :=
  .group fun n => .form (.binary (arithmeticOp n) (.rm size) (.slot (immediate n)))

/-- A shift or rotation by a count, selected by `reg`. -/
def shiftGroup (size : Size) (count : Slot) : Entry :=
  .group fun n =>
    match shiftOp? n with
    | some op => .form (.binary op (.rm size) (.slot count))
    | none => .undefined

/-- The one-operand group `F6`, `F7`; its first member tests against an immediate. -/
def unaryGroup (size : Size) : Entry :=
  .group fun
    | 0 => .form (.binary .test (.rm size) (.slot (.immediate size .unsigned)))
    | 1 => .undefined
    | 2 => .form (.unary .not (.rm size))
    | 3 => .form (.unary .neg (.rm size))
    | 4 => .form (.unary .mul (.rm size))
    | 5 => .form (.unary .imulAcc (.rm size))
    | 6 => .form (.unary .div (.rm size))
    | 7 => .form (.unary .idiv (.rm size))

/-- The group `FE`: increment and decrement of a byte. -/
def byteStepGroup : Entry :=
  .group fun
    | 0 => .form (.unary .inc (.rm (.fixed .byte)))
    | 1 => .form (.unary .dec (.rm (.fixed .byte)))
    | _ => .undefined

/-- The group `FF`: increment, decrement, near call and jump through an operand, push. -/
def stepGroup : Entry :=
  .group fun
    | 0 => .form (.unary .inc (.rm .operand))
    | 1 => .form (.unary .dec (.rm .operand))
    | 2 => .form (.unary .call (.rm .operand))
    | 4 => .form (.unary .jmp (.rm .operand))
    | 6 => .form (.unary .push (.rm .operand))
    | _ => .undefined

/-- A group with a single member, at `reg` zero. -/
def soleMember (i : InstructionOf Field) : Entry :=
  .group fun
    | 0 => .form i
    | _ => .undefined

/-- The meaning of a one-byte opcode. -/
def primary (b : UInt8) : Entry :=
  let n := bottomField b
  let size := Size.ofOpcode b
  if b < 0x40 then arithmetic b
  else if b < 0x48 then .form (.unary .inc (.register n .operand))
  else if b < 0x50 then .form (.unary .dec (.register n .operand))
  else if b < 0x58 then .form (.unary .push (.register n .operand))
  else if b < 0x60 then .form (.unary .pop (.register n .operand))
  else if 0x70 ≤ b ∧ b < 0x80 then .form (.jcc (.ofByte b) (.branch (.fixed .byte)))
  else if 0x91 ≤ b ∧ b < 0x98 then
    .form (.binary .xchg (.accumulator .operand) (.register n .operand))
  else if 0xB0 ≤ b ∧ b < 0xB8 then
    .form (.binary .mov (.register n (.fixed .byte)) (.immediate (.fixed .byte) .unsigned))
  else if 0xB8 ≤ b ∧ b < 0xC0 then
    .form (.binary .mov (.register n .operand) (.immediate .operand .unsigned))
  else
    match b with
    | 0x60 => .sized .pusha .pushad
    | 0x61 => .sized .popa .popad
    | 0x68 => .form (.unary .push (.immediate .operand .signed))
    | 0x69 => .fields (.imul (.reg .operand) (.rm .operand) (some (.slot (.immediate .operand .signed))))
    | 0x6A => .form (.unary .push (.immediate (.fixed .byte) .signed))
    | 0x6B =>
      .fields (.imul (.reg .operand) (.rm .operand) (some (.slot (.immediate (.fixed .byte) .signed))))
    | 0x80 | 0x81 => immediateGroup size fun k => .immediate size (arithmeticSign k)
    | 0x83 => immediateGroup .operand fun _ => .immediate (.fixed .byte) .signed
    | 0x84 | 0x85 => .fields (.binary .test (.rm size) (.reg size))
    | 0x86 | 0x87 => .fields (.binary .xchg (.rm size) (.reg size))
    | 0x88 | 0x89 => .fields (.binary .mov (.rm size) (.reg size))
    | 0x8A | 0x8B => .fields (.binary .mov (.reg size) (.rm size))
    | 0x8D => .modRM fun _ _ => .lea
    | 0x8F => soleMember (.unary .pop (.rm .operand))
    | 0x90 => .idle
    | 0x98 => .sized .cbw .cwde
    | 0x99 => .sized .cwd .cdq
    | 0x9C => .sized .pushf .pushfd
    | 0x9D => .sized .popf .popfd
    | 0x9E => .plain .sahf
    | 0x9F => .plain .lahf
    | 0xA0 | 0xA1 => .form (.binary .mov (.accumulator size) (.absolute size))
    | 0xA2 | 0xA3 => .form (.binary .mov (.absolute size) (.accumulator size))
    | 0xA4 => .plain .movsb
    | 0xA5 => .sized .movsw .movsd
    | 0xA6 => .plain .cmpsb
    | 0xA7 => .sized .cmpsw .cmpsd
    | 0xA8 | 0xA9 => .form (.binary .test (.accumulator size) (.immediate size .unsigned))
    | 0xAA => .plain .stosb
    | 0xAB => .sized .stosw .stosd
    | 0xAC => .plain .lodsb
    | 0xAD => .sized .lodsw .lodsd
    | 0xAE => .plain .scasb
    | 0xAF => .sized .scasw .scasd
    | 0xC0 | 0xC1 => shiftGroup size (.immediate (.fixed .byte) .unsigned)
    | 0xC2 => .form (.unary .retn (.immediate (.fixed .word) .unsigned))
    | 0xC3 => .plain .ret
    | 0xC6 | 0xC7 => soleMember (.binary .mov (.rm size) (.slot (.immediate size .unsigned)))
    | 0xC8 =>
      .form (.binary .enter (.immediate (.fixed .word) .unsigned) (.immediate (.fixed .byte) .unsigned))
    | 0xC9 => .plain .leave
    | 0xCC => .plain .int3
    | 0xCD => .form (.unary .int (.immediate (.fixed .byte) .unsigned))
    | 0xD0 | 0xD1 => shiftGroup size .one
    | 0xD2 | 0xD3 => shiftGroup size .cl
    | 0xE0 => .form (.unary .loopne (.branch (.fixed .byte)))
    | 0xE1 => .form (.unary .loope (.branch (.fixed .byte)))
    | 0xE2 => .form (.unary .loop (.branch (.fixed .byte)))
    | 0xE3 => .form (.unary .jecxz (.branch (.fixed .byte)))
    | 0xE8 => .form (.unary .call (.branch .operand))
    | 0xE9 => .form (.unary .jmp (.branch .operand))
    | 0xEB => .form (.unary .jmp (.branch (.fixed .byte)))
    | 0xF4 => .plain .hlt
    | 0xF5 => .plain .cmc
    | 0xF6 | 0xF7 => unaryGroup size
    | 0xF8 => .plain .clc
    | 0xF9 => .plain .stc
    | 0xFA => .plain .cli
    | 0xFB => .plain .sti
    | 0xFC => .plain .cld
    | 0xFD => .plain .std
    | 0xFE => byteStepGroup
    | 0xFF => stepGroup
    | _ => .undefined

end CodeAtlas.OpcodeMap
