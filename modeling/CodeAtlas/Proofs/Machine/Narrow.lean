import CodeAtlas.Encoding.LittleEndian
import CodeAtlas.Machine.Instruction

/-!
# Word forms of instructions

What becomes of an instruction when its operands are words instead of dwords.  Registers keep their numbers
and addresses all their parts; constants and code offsets keep their low halves.  Bytes and words are left
as they are.  The operations that name a dword in their mnemonic give way to those that name a word, and a
few instructions work on a dword under any operand size.

* `Instruction.narrow` — the word form of an instruction, put together from those of its parts;
* `LittleEndian.lowHalf_toInt` — the first two bytes of a field hold the low half of what its four bytes
  hold.
-/

namespace CodeAtlas

/-! ## Operands -/

/-- Words for dwords. -/
def Width.narrow : Width → Width
  | .dword => .word
  | w => w

/-- The register of the same number. -/
def Register.narrow (r : Register) : Register :=
  ⟨r.width.narrow, r.number⟩

/-- The low sixteen bits of a number, read as a plain number or in two's complement. -/
def Signedness.lowHalf (s : Signedness) (v : Int) : Int :=
  match s with
  | .unsigned => v % Int.ofNat Width.word.contents
  | .signed => Int.bmod v Width.word.contents

/-- A dword becomes the word of its low half, under the same signedness. -/
def Constant.narrow (c : Constant) : Constant :=
  match c.width with
  | .dword => ⟨c.signedness.lowHalf c.value, .word, c.signedness⟩
  | _ => c

/-- The word form of an operand. -/
def Operand.narrow : Operand → Operand
  | .register r => .register r.narrow
  | .constant c => .constant c.narrow
  | .memory a w => .memory a w.narrow
  | .address a => .address a
  | .codeOffset displacement => .codeOffset (Signedness.signed.lowHalf displacement)

/-! ## Instructions -/

/-- The operation that does with words what an operation does with dwords. -/
def PlainOp.narrow : PlainOp → PlainOp
  | .pushad => .pusha
  | .popad => .popa
  | .pushfd => .pushf
  | .popfd => .popf
  | .cwde => .cbw
  | .cdq => .cwd
  | .movsd => .movsw
  | .cmpsd => .cmpsw
  | .stosd => .stosw
  | .lodsd => .lodsw
  | .scasd => .scasw
  | op => op

/-- Whether an operation has a dword operand under any operand size. -/
def UnaryOp.isRigid : UnaryOp → Bool
  | .ldmxcsr | .stmxcsr => true
  | _ => false

/-- The word form of an instruction.  The byte swap and the operations that are rigid keep their dwords. -/
def Instruction.narrow : Instruction → Instruction
  | .plain op => .plain op.narrow
  | .unary op x => .unary op (if op.isRigid then x else x.narrow)
  | .binary op x y => .binary op x.narrow y.narrow
  | .imul dst src factor => .imul dst.narrow src.narrow (factor.map Operand.narrow)
  | .doubleShift op dst src count => .doubleShift op dst.narrow src.narrow count.narrow
  | .cmovcc c dst src => .cmovcc c dst.narrow src.narrow
  | .setcc c dst => .setcc c dst.narrow
  | .jcc c target => .jcc c target.narrow
  | .bswap r => .bswap r
  | .lea dst src => .lea dst.narrow src
  | .address op a => .address op a

/-! ## Numbers in fields -/

namespace LittleEndian

/-- The first two bytes of a field hold the low half of what its four bytes hold. -/
theorem lowHalf_toInt (s : Signedness) (b₀ b₁ b₂ b₃ : UInt8) :
    s.lowHalf (toInt s [b₀, b₁, b₂, b₃]) = toInt s [b₀, b₁] := by
  have hsplit : toNat [b₀, b₁, b₂, b₃] = toNat [b₀, b₁] + 65536 * toNat [b₂, b₃] := by
    simp only [toNat]
    omega
  have hlow : toNat [b₀, b₁] < 65536 := by
    have h₀ := b₀.toNat_lt
    have h₁ := b₁.toNat_lt
    simp only [toNat]
    omega
  cases s with
  | unsigned =>
    show Int.ofNat (toNat [b₀, b₁, b₂, b₃]) % 65536 = Int.ofNat (toNat [b₀, b₁])
    rw [hsplit]
    simp only [Int.ofNat_eq_natCast]
    omega
  | signed =>
    show Int.bmod (Int.bmod (Int.ofNat (toNat [b₀, b₁, b₂, b₃])) (Nat.pow 256 4)) 65536 =
      Int.bmod (Int.ofNat (toNat [b₀, b₁])) (Nat.pow 256 2)
    rw [Int.bmod_bmod_of_dvd (by decide), hsplit]
    simp only [Int.ofNat_eq_natCast, Int.natCast_add, Int.natCast_mul]
    exact Int.add_mul_bmod_self_left _ _ _

/-- A signed byte is its own low half. -/
theorem lowHalf_toInt_byte (b : UInt8) :
    Signedness.signed.lowHalf (toInt .signed [b]) = toInt .signed [b] := by
  have hpos : 0 < 256 := by decide
  have hlow : -(256 / 2) ≤ toInt .signed [b] := Int.le_bmod hpos
  have hhigh : toInt .signed [b] < (256 + 1) / 2 := Int.bmod_lt hpos
  apply Int.bmod_eq_of_le
  · simp only [Width.contents]
    omega
  · simp only [Width.contents]
    omega

end LittleEndian

end CodeAtlas
