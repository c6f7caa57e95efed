import CodeAtlas.Encoding.LittleEndian
import CodeAtlas.Encoding.Opcode

/-!
# The grammar of instructions

`Encoding.instruction` is the grammar of one complete instruction: prefixes, the opcode, and whatever the
opcode's entry asks for.  It is put together from the grammars of the parts:

* `ModRM.address` — the SIB byte and the displacement that a ModRM byte calls for;
* `Slot.read`, `Field.read` — one operand;
* `InstructionOf.traverse` — the operands of an instruction, left to right;
* `Entry.read` — all that follows an opcode.

A meaningless combination is rejected as soon as the bytes read so far show it.
-/

namespace CodeAtlas

/-- A number of a given width, least significant byte first. -/
def Grammar.number (w : Width) (s : Signedness) : Grammar Int :=
  (Grammar.bytes w.size).andThen fun bs => .accept (LittleEndian.toInt s bs)

/-! ## Addresses -/

/-- The displacement under an addressing mode: one byte under mode `01`, four under mode `10`, and four
also where there is no base register. -/
def ModRM.displacement (mode : Fin 4) (baseless : Bool) : Grammar (Option Int) :=
  match mode, baseless with
  | 1, _ => some <$> Grammar.number .byte .signed
  | 2, _ => some <$> Grammar.number .dword .signed
  | _, true => some <$> Grammar.number .dword .signed
  | _, false => .accept none

/-- The address that a ModRM byte describes.  A byte that names a register describes none. -/
def ModRM.address (m : ModRM) : Grammar Address :=
  if m.isRegister then .reject
  else if m.hasSIB then do
    let sib := SIB.ofByte (← Grammar.anyByte)
    let base := if sib.hasBase m.mode then some (Register.mk .dword sib.base) else none
    let index :=
      if sib.hasIndex then some (ScaledIndex.mk ⟨.dword, sib.index⟩ (.ofExponent sib.scale)) else none
    let displacement ← displacement m.mode base.isNone
    return ⟨base, index, displacement⟩
  else do
    let base := if m.isAbsolute then none else some (Register.mk .dword m.rm)
    let displacement ← displacement m.mode base.isNone
    return ⟨base, none, displacement⟩

/-! ## Operands -/

/-- The operand of a slot. -/
def Slot.read (p : Prefixes) : Slot → Grammar Operand
  | .register n s => .accept (.register ⟨s.width p, n⟩)
  | .one => .accept (.constant ⟨1, .byte, .unsigned⟩)
  | .immediate s sign => do
    let value ← Grammar.number (s.width p) sign
    return .constant ⟨value, s.width p, sign⟩
  | .branch s => do
    let displacement ← Grammar.number (s.width p) .signed
    return .codeOffset displacement
  | .absolute s => do
    let displacement ← Grammar.number .dword .signed
    return .memory (.absolute displacement) (s.width p)

/-- The operand of a field, after the given ModRM byte. -/
def Field.read (p : Prefixes) (m : ModRM) : Field → Grammar Operand
  | .reg s => .accept (.register ⟨s.width p, m.reg⟩)
  | .rm s =>
    if m.isRegister then .accept (.register ⟨s.width p, m.rm⟩)
    else do
      let a ← m.address
      return .memory a (s.width p)
  | .slot s => s.read p

/-- Replaces the operands of an instruction, left to right, by what a grammar reads for each. -/
def InstructionOf.traverse {α β : Type} (f : α → Grammar β) :
    InstructionOf α → Grammar (InstructionOf β)
  | .plain op => return .plain op
  | .unary op x => return .unary op (← f x)
  | .binary op x y => return .binary op (← f x) (← f y)
  | .imul dst src none => return .imul (← f dst) (← f src) none
  | .imul dst src (some factor) => return .imul (← f dst) (← f src) (some (← f factor))
  | .doubleShift op dst src count => return .doubleShift op (← f dst) (← f src) (← f count)
  | .cmovcc c dst src => return .cmovcc c (← f dst) (← f src)
  | .setcc c dst => return .setcc c (← f dst)
  | .jcc c target => return .jcc c (← f target)
  | .bswap r => return .bswap r
  | .lea dst src => return .lea dst src
  | .address op a => return .address op a

/-! ## Whole instructions -/

/-- What follows a ModRM byte. -/
def Selection.read (p : Prefixes) (m : ModRM) : Selection → Grammar Instruction
  | .undefined => .reject
  | .form i => i.traverse (Field.read p m)
  | .lea => return .lea ⟨Size.operand.width p, m.reg⟩ (← m.address)
  | .address op => return .address op (← m.address)

/-- What follows an opcode. -/
def Entry.read (p : Prefixes) : Entry → Grammar Instruction
  | .undefined => .reject
  | .form i => i.traverse (Slot.read p)
  | .sized word dword =>
    .accept (.plain (if p.isFlagged .operandSize then word else dword))
  | .idle => .accept (.plain (if p.has .rep then .pause else .nop))
  | .modRM choose =>
    .byte fun b =>
      let m := ModRM.ofByte b
      (choose m.reg m.isRegister).read p m

namespace Encoding

/-- Prefix bytes, at most `room` more than those already recorded, and the first byte that is none.  Once
there is no room left, any byte is taken for the first byte of the opcode. -/
def prefixed : (room : Nat) → Prefixes → Grammar (Prefixes × UInt8)
  | 0, p => .byte fun b => .accept (p, b)
  | room + 1, p =>
    .byte fun b =>
      match p.push? b with
      | some q => prefixed room q
      | none => .accept (p, b)

/-- One complete instruction with its prefixes. -/
def instruction : Grammar (Prefixes × Instruction) := do
  let (p, first) ← prefixed Prefixes.limit .empty
  let opcode ← Opcode.startingWith first
  let i ← opcode.entry.read p
  return (p, i)

end Encoding

end CodeAtlas
