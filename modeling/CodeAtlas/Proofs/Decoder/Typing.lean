import CodeAtlas.Proofs.Decoder.Length
import CodeAtlas.Proofs.Encoding.Outline
import Mathlib.Tactic.MkIffOfInductiveProp

/-!
# The typing of operands

Decoded instructions obey rules about the kinds and widths of their operands.  The rules do not look at
register numbers, values or addresses, so an instruction obeys them if its outline does, and the opcode maps
have finitely many outlines.

* `Instruction.Arranged`, `Instruction.Sized` — the rules about kinds, and those about widths under the
  operand-size override or without it;
* `Opcode.accessesMemory` — when an operand is in memory;
* `Opcode.outlines_typed` — every outline in the opcode maps obeys the rules;
* `decodeSingle_typed` — and so does every instruction that is decoded.
-/

namespace CodeAtlas

open Grammar Encoding

/-! ## The rules -/

/-- Whether the operand is a bare address. -/
def Operand.isAddress : Operand → Bool
  | address _ => true
  | _ => false

/-- Whether the operand is a code offset. -/
def Operand.isCodeOffset : Operand → Bool
  | codeOffset _ => true
  | _ => false

/-- Whether the operand holds data that an instruction can change: a register or a place in memory. -/
def Operand.isPlace (x : Operand) : Bool :=
  x.isRegister || x.isMemory

/-- Whether the operand is a constant of one byte, read as a signed number. -/
def Operand.isSignedByte : Operand → Bool
  | constant c => c.width == .byte && c.signedness == .signed
  | _ => false

/-- The first two operands. -/
def InstructionOf.pair? {α : Type} (i : InstructionOf α) : Option (α × α) :=
  match i.operands with
  | x :: y :: _ => some (x, y)
  | _ => none

namespace Mnemonic

/-- Jumps, calls and loops. -/
def isBranch : Mnemonic → Bool
  | jcc | unary .jmp | unary .call | unary .loop | unary .loope | unary .loopne | unary .jecxz => true
  | _ => false

/-- The branches that never go through an operand. -/
def isDirectBranch : Mnemonic → Bool
  | jcc | unary .loop | unary .loope | unary .loopne | unary .jecxz => true
  | _ => false

/-- The instructions whose first two operands go together. -/
def isPaired : Mnemonic → Bool
  | binary .add | binary .or | binary .adc | binary .sbb | binary .and | binary .sub | binary .xor
  | binary .cmp | binary .test | binary .mov | binary .xchg | binary .xadd | binary .cmpxchg
  | cmovcc | binary .bsf | binary .bsr | imul | doubleShift .shld | doubleShift .shrd => true
  | _ => false

/-- The moves that widen. -/
def isWidening : Mnemonic → Bool
  | binary .movzx | binary .movsx => true
  | _ => false

/-- The instructions that take an address and visit no memory there. -/
def isAddressing : Mnemonic → Bool
  | lea | address .prefetchnta | address .prefetcht0 | address .prefetcht1 | address .prefetcht2
  | address .clflush | address .fxsave | address .fxrstor => true
  | _ => false

/-- The instructions on the control register of the vector unit, which has four bytes whatever the prefixes. -/
def isControlWord : Mnemonic → Bool
  | unary .ldmxcsr | unary .stmxcsr => true
  | _ => false

end Mnemonic

/-- The rules about the kinds of operands. -/
@[mk_iff]
structure Instruction.Arranged (i : Instruction) : Prop where
  /-- No operand is a bare address. -/
  no_address : ∀ x ∈ i.operands, x.isAddress = false
  /-- At most one operand is in memory. -/
  memory_once : i.operands.countP Operand.isMemory ≤ 1
  /-- A code offset is the target of a branch. -/
  codeOffset : ∀ x ∈ i.operands, x.isCodeOffset = true → i.mnemonic.isBranch = true ∧ i.target? = some x
  /-- The target of a direct branch is a code offset. -/
  target : i.mnemonic.isDirectBranch = true → ∃ x ∈ i.target?, x.isCodeOffset = true

/-- The rules about the widths of operands, given whether the operand-size override is in force. -/
@[mk_iff]
structure Instruction.Sized (override : Bool) (i : Instruction) : Prop where
  /-- Operands that go together are of one width, but the second may be a signed byte that is extended. -/
  paired : i.mnemonic.isPaired = true →
    ∃ q ∈ i.pair?, q.1.width?.isSome = true ∧ (q.2.width? = q.1.width? ∨ q.2.isSignedByte = true)
  /-- The source of a widening move is no wider than its destination. -/
  widening : i.mnemonic.isWidening = true →
    ∃ q ∈ i.pair?, ∃ v ∈ q.1.width?, ∃ w ∈ q.2.width?, w.size ≤ v.size
  /-- A word in a register or in memory is the source of a widening move, or the override is in force. -/
  word : ∀ q ∈ i.operands.zipIdx, q.1.isPlace = true → q.1.width? = some .word →
    override = true ∨ (i.mnemonic.isWidening = true ∧ q.2 = 1)
  /-- A dword in a register or in memory is a control word, or the override is not in force. -/
  dword : ∀ x ∈ i.operands, x.isPlace = true → x.width? = some .dword →
    override = false ∨ i.mnemonic.isControlWord = true

instance (i : Instruction) : Decidable i.Arranged :=
  decidable_of_iff' _ (Instruction.arranged_iff i)

instance (override : Bool) (i : Instruction) : Decidable (i.Sized override) :=
  decidable_of_iff' _ (Instruction.sized_iff override i)

/-! ## The rules in outline -/

namespace Operand

@[simp] theorem isAddress_outline (x : Operand) : x.outline.isAddress = x.isAddress := by
  cases x <;> rfl

@[simp] theorem isMemory_outline (x : Operand) : x.outline.isMemory = x.isMemory := by
  cases x <;> rfl

@[simp] theorem isCodeOffset_outline (x : Operand) : x.outline.isCodeOffset = x.isCodeOffset := by
  cases x <;> rfl

@[simp] theorem isPlace_outline (x : Operand) : x.outline.isPlace = x.isPlace := by
  cases x <;> rfl

@[simp] theorem isSignedByte_outline (x : Operand) : x.outline.isSignedByte = x.isSignedByte := by
  cases x <;> rfl

@[simp] theorem width?_outline (x : Operand) : x.outline.width? = x.width? := by
  cases x <;> rfl

end Operand

/-- A branch has no other operand than its target. -/
theorem InstructionOf.operands_of_target? {α : Type} {i : InstructionOf α} {x : α} (h : i.target? = some x) :
    i.operands = [x] := by
  unfold target? at h
  split at h <;> cases h <;> rfl

namespace Instruction

theorem pair?_outline (i : Instruction) :
    i.outline.pair? = i.pair?.map fun q => (q.1.outline, q.2.outline) := by
  rw [InstructionOf.pair?, InstructionOf.pair?, operands_outline]
  match i.operands with
  | [] => rfl
  | [_] => rfl
  | _ :: _ :: _ => rfl

theorem countP_memory_outline (i : Instruction) :
    i.outline.operands.countP Operand.isMemory = i.operands.countP Operand.isMemory := by
  rw [operands_outline, List.countP_map]
  congr 1
  funext x
  exact x.isMemory_outline

theorem accessesMemory_outline (i : Instruction) : i.outline.accessesMemory = i.accessesMemory := by
  rw [accessesMemory, accessesMemory, operands_outline, List.any_map]
  congr 1
  funext x
  exact x.isMemory_outline

/-- **Kinds.**  An instruction obeys the rules about kinds if its outline does. -/
theorem Arranged.of_outline {i : Instruction} (h : i.outline.Arranged) : i.Arranged where
  no_address x hx := by
    have hrule := h.no_address x.outline (i.operands_outline ▸ List.mem_map_of_mem hx)
    rwa [Operand.isAddress_outline] at hrule
  memory_once := i.countP_memory_outline ▸ h.memory_once
  codeOffset x hx hcode := by
    have hrule := h.codeOffset x.outline (i.operands_outline ▸ List.mem_map_of_mem hx)
      (x.isCodeOffset_outline.trans hcode)
    rw [mnemonic_outline, target?_outline] at hrule
    obtain ⟨hbranch, htarget⟩ := hrule
    -- in outline all offsets are the same, but a branch has a single operand
    obtain ⟨t, ht, -⟩ := Option.map_eq_some_iff.1 htarget
    rw [InstructionOf.operands_of_target? ht] at hx
    exact ⟨hbranch, List.mem_singleton.1 hx ▸ ht⟩
  target hi := by
    obtain ⟨x, hx, hcode⟩ := h.target (i.mnemonic_outline ▸ hi)
    rw [target?_outline] at hx
    obtain ⟨y, hy, rfl⟩ := Option.map_eq_some_iff.1 hx
    exact ⟨y, hy, y.isCodeOffset_outline ▸ hcode⟩

/-- **Widths.**  An instruction obeys the rules about widths if its outline does. -/
theorem Sized.of_outline {override : Bool} {i : Instruction} (h : i.outline.Sized override) : i.Sized override where
  paired hi := by
    obtain ⟨q, hq, hwidth⟩ := h.paired (i.mnemonic_outline ▸ hi)
    rw [pair?_outline] at hq
    obtain ⟨r, hr, rfl⟩ := Option.map_eq_some_iff.1 hq
    exact ⟨r, hr, by simpa using hwidth⟩
  widening hi := by
    obtain ⟨q, hq, hwidth⟩ := h.widening (i.mnemonic_outline ▸ hi)
    rw [pair?_outline] at hq
    obtain ⟨r, hr, rfl⟩ := Option.map_eq_some_iff.1 hq
    exact ⟨r, hr, by simpa using hwidth⟩
  word q hq hplace hwidth := by
    have hmem : (q.1.outline, q.2) ∈ i.outline.operands.zipIdx := by
      rw [operands_outline, List.zipIdx_map]
      exact List.mem_map_of_mem hq
    have hrule := h.word _ hmem (q.1.isPlace_outline.trans hplace) (q.1.width?_outline.trans hwidth)
    rwa [mnemonic_outline] at hrule
  dword x hx hplace hwidth := by
    have hrule := h.dword x.outline (i.operands_outline ▸ List.mem_map_of_mem hx)
      (x.isPlace_outline.trans hplace) (x.width?_outline.trans hwidth)
    rwa [mnemonic_outline] at hrule

end Instruction

/-! ## The opcode maps -/

/-- Whether an operand is in memory, by the opcode, by whether the ModRM byte names a register and by the
instruction that is read. -/
def Opcode.accessesMemory (o : Opcode) (direct : Bool) (m : Mnemonic) : Bool :=
  [.primary 0xA0, .primary 0xA1, .primary 0xA2, .primary 0xA3].contains o ||
    (o.hasModRM && !direct && !m.isAddressing)

/-- **The opcode maps.**  Every outline obeys the rules, and is in memory where the opcode says. -/
theorem Opcode.outlines_typed :
    ∀ (o : Opcode) (override direct : Bool), ∀ i ∈ o.entry.outlines override direct,
      i.Arranged ∧ i.Sized override ∧ i.accessesMemory = o.accessesMemory direct i.mnemonic := by
  refine forall_of_bytes ?_ ?_ ?_ <;> decide +kernel

theorem Opcode.accessesMemory_iff {o : Opcode} {m : ModRM} {n : Mnemonic} :
    o.accessesMemory m.isRegister n = true ↔
      o ∈ [.primary 0xA0, .primary 0xA1, .primary 0xA2, .primary 0xA3] ∨
        (o.hasModRM = true ∧ m.mode ≠ 3 ∧ n.isAddressing = false) := by
  rw [accessesMemory, Bool.or_eq_true, List.contains_iff_mem, Bool.and_eq_true, Bool.and_eq_true,
    Bool.not_eq_true', Bool.not_eq_true', ModRM.isRegister, beq_eq_false_iff_ne, and_assoc]

/-! ## Decoded instructions -/

/-- An instruction with one operand in memory at most has one exactly if it visits memory. -/
theorem Instruction.Arranged.accessesMemory_iff {i : Instruction} (h : i.Arranged) :
    i.accessesMemory = true ↔ i.operands.countP Operand.isMemory = 1 := by
  have honce := h.memory_once
  have hpos : i.accessesMemory = true ↔ 0 < i.operands.countP Operand.isMemory := by
    rw [Instruction.accessesMemory, List.any_eq_true, List.countP_pos_iff]
  rw [hpos]
  omega

/-- **Decoded instructions are typed.**  They obey the rules about kinds and widths, under the operand-size
override if its byte is among the prefixes.  One operand is in memory exactly if the opcode has an absolute
offset, or if it has a ModRM byte that names no register and the instruction does more than to compute an
address. -/
theorem decodeSingle_typed {bs : List UInt8} {a : UInt64} {d : Decoded} (hd : decodeSingle bs a = .ok d) :
    d.instruction.Arranged ∧ d.instruction.Sized (d.prefixes.bytes.contains 0x66) ∧
    (d.instruction.accessesMemory = true ↔ d.instruction.operands.countP Operand.isMemory = 1) ∧
    ∃ o tail, opcode? bs = some (o, tail) ∧
      (d.instruction.accessesMemory = true ↔
        o ∈ [.primary 0xA0, .primary 0xA1, .primary 0xA2, .primary 0xA3] ∨
          (o.hasModRM = true ∧ (ModRM.ofByte (tail.headD 0)).mode ≠ 3 ∧
            d.instruction.mnemonic.isAddressing = false)) := by
  obtain ⟨o, tail, rest, -, hopcode, hread, -⟩ := exists_parts hd
  obtain ⟨harranged, hsized, hmemory⟩ := Opcode.outlines_typed o _ _ _ (Entry.outline_of_run hread)
  rw [Instruction.accessesMemory_outline, Instruction.mnemonic_outline] at hmemory
  rw [← Prefixes.contains_operandSize] at hsized
  have hkinds := harranged.of_outline
  refine ⟨hkinds, hsized.of_outline, hkinds.accessesMemory_iff, o, tail, hopcode, ?_⟩
  rw [hmemory]
  exact Opcode.accessesMemory_iff

/-- A widening load of a word from a table. -/
theorem decodeSingle_typed_wideningLoad :
    ∃ d, decodeSingle [0x0F, 0xB7, 0x04, 0x8D, 0x00, 0x10, 0x00, 0x00] 0 = .ok d ∧
      d.instruction.Sized false ∧ d.instruction.operands.countP Operand.isMemory = 1 ∧
      ∃ q ∈ d.instruction.operands.zipIdx, q.1.width? = some .word ∧ q.2 = 1 := by
  have hrun : ∃ x y, instruction.run [0x0F, 0xB7, 0x04, 0x8D, 0x00, 0x10, 0x00, 0x00] =
      .accepted (.empty, .binary .movzx x (.memory y .word)) [] := ⟨_, _, rfl⟩
  obtain ⟨x, y, hrun⟩ := hrun
  have hd := decodeSingle_of_run hrun 0
  obtain ⟨-, hsized, hcount, o, tail, hopcode, haccess⟩ := decodeSingle_typed hd
  cases hopcode
  have hmemory := haccess.2 (.inr ⟨rfl, by decide, rfl⟩)
  exact ⟨_, hd, hsized, hcount.1 hmemory, (.memory y .word, 1), by simp [InstructionOf.operands], rfl, rfl⟩

end CodeAtlas
