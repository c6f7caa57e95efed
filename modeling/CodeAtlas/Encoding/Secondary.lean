import CodeAtlas.Encoding.Primary

/-!
# The maps of two-byte and three-byte opcodes

`secondary` gives the meaning of the byte after the escape `0F`, `tertiary` that of the byte after `0F 01`.
-/

namespace CodeAtlas.OpcodeMap

/-- The bit test of a two-bit number. -/
def bitTestOp : Fin 4 → BinaryOp
  | 0 => .bt
  | 1 => .bts
  | 2 => .btr
  | 3 => .btc

/-- The low two bits of a three-bit number. -/
def lowPair (n : Fin 8) : Fin 4 :=
  ⟨n.val % 4, Nat.mod_lt _ (by decide)⟩

/-- The group `0F 18`: hints to fetch a line of memory. -/
def fetchGroup : Entry :=
  .group fun
    | 0 => .address .prefetchnta
    | 1 => .address .prefetcht0
    | 2 => .address .prefetcht1
    | 3 => .address .prefetcht2
    | _ => .undefined

/-- The group `0F BA`: a bit test by an immediate; the lower half of the group is empty. -/
def bitTestGroup : Entry :=
  .group fun n =>
    if 4 ≤ n.val then
      .form (.binary (bitTestOp (lowPair n)) (.rm .operand) (.slot (.immediate (.fixed .byte) .unsigned)))
    else .undefined

/-- The group `0F AE`: fences where a register is named, saved state and cache lines in memory. -/
def stateGroup : Entry :=
  .modRM fun
    | 5, true => .form (.plain .lfence)
    | 6, true => .form (.plain .mfence)
    | 7, true => .form (.plain .sfence)
    | _, true => .undefined
    | 0, false => .address .fxsave
    | 1, false => .address .fxrstor
    | 2, false => .form (.unary .ldmxcsr (.rm (.fixed .dword)))
    | 3, false => .form (.unary .stmxcsr (.rm (.fixed .dword)))
    | 7, false => .address .clflush
    | _, false => .undefined

/-- A double shift, by an immediate for the even opcode of a pair and by `cl` for the odd one. -/
def doubleShift (op : DoubleShift) (b : UInt8) : Entry :=
  let count : Slot :=
    if b % 2 = 0 then .immediate (.fixed .byte) .unsigned else .cl
  .fields (.doubleShift op (.rm .operand) (.reg .operand) (.slot count))

/-- A move that widens its source: a byte for the even opcode of a pair, a word for the odd one. -/
def widening (op : BinaryOp) (b : UInt8) : Entry :=
  .fields (.binary op (.reg .operand) (.rm (.fixed (if b % 2 = 0 then .byte else .word))))

/-- The meaning of a byte after the escape `0F`. -/
def secondary (b : UInt8) : Entry :=
  let size := Size.ofOpcode b
  if 0x40 ≤ b ∧ b < 0x50 then .fields (.cmovcc (.ofByte b) (.reg .operand) (.rm .operand))
  else if 0x80 ≤ b ∧ b < 0x90 then .form (.jcc (.ofByte b) (.branch .operand))
  else if 0x90 ≤ b ∧ b < 0xA0 then .fields (.setcc (.ofByte b) (.rm (.fixed .byte)))
  else if 0xC8 ≤ b ∧ b < 0xD0 then .form (.bswap (.ofByte b .dword))
  else
    match b with
    | 0x08 => .plain .invd
    | 0x09 => .plain .wbinvd
    | 0x0B => .plain .ud2
    | 0x18 => fetchGroup
    | 0x1F => soleMember (.unary .longNop (.rm .operand))
    | 0x30 => .plain .wrmsr
    | 0x31 => .plain .rdtsc
    | 0x32 => .plain .rdmsr
    | 0x33 => .plain .rdpmc
    | 0x34 => .plain .sysenter
    | 0x77 => .plain .emms
    | 0xA2 => .plain .cpuid
    | 0xA3 | 0xAB | 0xB3 | 0xBB =>
      .fields (.binary (bitTestOp (lowPair (middleField b))) (.rm .operand) (.reg .operand))
    | 0xA4 | 0xA5 => doubleShift .shld b
    | 0xAC | 0xAD => doubleShift .shrd b
    | 0xAE => stateGroup
    | 0xAF => .fields (.imul (.reg .operand) (.rm .operand) none)
    | 0xB0 | 0xB1 => .fields (.binary .cmpxchg (.rm size) (.reg size))
    | 0xB6 | 0xB7 => widening .movzx b
    | 0xBA => bitTestGroup
    | 0xBC => .fields (.binary .bsf (.reg .operand) (.rm .operand))
    | 0xBD => .fields (.binary .bsr (.reg .operand) (.rm .operand))
    | 0xBE | 0xBF => widening .movsx b
    | 0xC0 | 0xC1 => .fields (.binary .xadd (.rm size) (.reg size))
    | _ => .undefined

/-- The meaning of a byte after the escape `0F 01`. -/
def tertiary (b : UInt8) : Entry :=
  match b with
  | 0xC8 => .plain .monitor
  | 0xC9 => .plain .mwait
  | 0xD0 => .plain .xgetbv
  | 0xF9 => .plain .rdtscp
  | _ => .undefined

end CodeAtlas.OpcodeMap
