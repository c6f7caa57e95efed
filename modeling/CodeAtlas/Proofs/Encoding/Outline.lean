import CodeAtlas.Proofs.Encoding.Operands
import CodeAtlas.Proofs.Machine.Flags

/-!
# Instructions in outline

The bytes after an opcode decide about register numbers, values and addresses.  What kind of operands there are,
and how wide they are, is decided before: by the opcode, the operand size in force and the ModRM byte.

* `Operand.outline`, `Instruction.outline` — what is left without register numbers, values and addresses;
* `Slot.outline`, `Field.outline`, `Entry.outlines` — the outlines of all that an entry of the opcode map
  stands for;
* `Entry.outline_of_run` — what is read for an entry has one of them.
-/

namespace CodeAtlas

open Grammar

/-! ## Outlines -/

/-- The address without its parts. -/
def Address.blank : Address :=
  ⟨none, none, none⟩

/-- The operand without register numbers, values and addresses. -/
def Operand.outline : Operand → Operand
  | register r => register ⟨r.width, 0⟩
  | constant c => constant ⟨0, c.width, c.signedness⟩
  | memory _ w => memory .blank w
  | address _ => address .blank
  | codeOffset _ => codeOffset 0

namespace InstructionOf

variable {α β : Type}

/-- Replaces every operand. -/
def map (f : α → β) : InstructionOf α → InstructionOf β
  | plain op => plain op
  | unary op x => unary op (f x)
  | binary op x y => binary op (f x) (f y)
  | imul dst src factor => imul (f dst) (f src) (factor.map f)
  | doubleShift op dst src count => doubleShift op (f dst) (f src) (f count)
  | cmovcc c dst src => cmovcc c (f dst) (f src)
  | setcc c dst => setcc c (f dst)
  | jcc c target => jcc c (f target)
  | bswap r => bswap r
  | lea dst src => lea dst src
  | address op a => address op a

theorem operands_map (f : α → β) (i : InstructionOf α) : (i.map f).operands = i.operands.map f := by
  cases i with
  | imul dst src factor => cases factor <;> rfl
  | _ => rfl

/-- The instruction without the registers and addresses that it carries outside its operands. -/
def withoutBare : InstructionOf α → InstructionOf α
  | bswap r => bswap ⟨r.width, 0⟩
  | lea dst _ => lea ⟨dst.width, 0⟩ .blank
  | address op _ => address op .blank
  | i => i

end InstructionOf

/-- The instruction without register numbers, values and addresses. -/
def Instruction.outline (i : Instruction) : Instruction :=
  (i.map Operand.outline).withoutBare

namespace Instruction

@[simp] theorem operands_outline (i : Instruction) : i.outline.operands = i.operands.map Operand.outline := by
  rw [← InstructionOf.operands_map]
  cases i <;> rfl

@[simp] theorem mnemonic_outline (i : Instruction) : i.outline.mnemonic = i.mnemonic := by
  cases i <;> rfl

@[simp] theorem target?_outline (i : Instruction) : i.outline.target? = i.target?.map Operand.outline := by
  cases i with
  | unary op x => cases op <;> rfl
  | _ => rfl

end Instruction

/-! ## Reading operands in outline -/

namespace InstructionOf

variable {α β γ : Type}

theorem withOperands?_operands_map (f : α → β) (i : InstructionOf α) :
    i.withOperands? (i.operands.map f) = some (i.map f) := by
  cases i with
  | imul dst src factor => cases factor <;> rfl
  | _ => rfl

/-- Operands that are put in and then seen through a view, or the other way round. -/
theorem map_of_withOperands? {i : InstructionOf α} {ys : List β} {j : InstructionOf β}
    (hj : i.withOperands? ys = some j) (f : β → γ) : i.withOperands? (ys.map f) = some (j.map f) := by
  unfold withOperands? at hj
  split at hj <;> cases hj <;> rfl

/-- If the outline of every operand is known beforehand, then so is that of the instruction. -/
theorem outline_of_traverse {g : α → Grammar Operand} {f : α → Operand}
    (h : ∀ x y, (g x).Yields y → y.outline = f x) {i : InstructionOf α} {j : Instruction}
    (hj : (i.traverse g).Yields j) : j.outline = (i.map f).withoutBare := by
  rw [traverse_eq] at hj
  obtain ⟨ys, hys, hgiven⟩ := hj.of_andThen
  obtain ⟨k, hk⟩ := i.exists_withOperands? hys.of_each.length_eq
  rw [hk] at hgiven
  obtain rfl := hgiven.eq_of_accept
  have hoperands : i.operands.map f = ys.map Operand.outline := by
    rw [← List.forall₂_eq_eq_eq, List.forall₂_map_left_iff, List.forall₂_map_right_iff]
    exact hys.of_each.imp fun x y hy => (h x y hy).symm
  have hview := map_of_withOperands? hk Operand.outline
  rw [← hoperands, withOperands?_operands_map] at hview
  rw [Instruction.outline, ← Option.some.inj hview]

end InstructionOf

/-- The width under the operand-size override or without it. -/
def Size.widthUnder (override : Bool) : Size → Width
  | .fixed w => w
  | .operand => if override then .word else .dword

theorem Size.width_eq (p : Prefixes) (s : Size) : s.width p = s.widthUnder (p.has .operandSize) := by
  rw [← p.isFlagged_eq_has]
  cases s <;> rfl

/-- The outline of what the slot holds. -/
def Slot.outline (override : Bool) : Slot → Operand
  | .register _ s => .register ⟨s.widthUnder override, 0⟩
  | .one => .constant ⟨0, .byte, .unsigned⟩
  | .immediate s sign => .constant ⟨0, s.widthUnder override, sign⟩
  | .branch _ => .codeOffset 0
  | .absolute s => .memory .blank (s.widthUnder override)

theorem Slot.outline_of_read {p : Prefixes} (s : Slot) (y : Operand) (h : (s.read p).Yields y) :
    y.outline = s.outline (p.has .operandSize) := by
  cases s with
  | register n s =>
    obtain rfl := h.eq_of_accept
    rw [outline, ← s.width_eq p]
    rfl
  | one =>
    obtain rfl := h.eq_of_accept
    rfl
  | immediate s sign =>
    obtain ⟨value, -, hy⟩ := h.of_andThen
    obtain rfl := hy.eq_of_accept
    rw [outline, ← s.width_eq p]
    rfl
  | branch s =>
    obtain ⟨displacement, -, hy⟩ := h.of_andThen
    obtain rfl := hy.eq_of_accept
    rfl
  | absolute s =>
    obtain ⟨displacement, -, hy⟩ := h.of_andThen
    obtain rfl := hy.eq_of_accept
    rw [outline, ← s.width_eq p]
    rfl

/-- The outline of what the field holds, after a ModRM byte that names a register or not. -/
def Field.outline (override direct : Bool) : Field → Operand
  | .reg s => .register ⟨s.widthUnder override, 0⟩
  | .rm s => if direct then .register ⟨s.widthUnder override, 0⟩ else .memory .blank (s.widthUnder override)
  | .slot s => s.outline override

theorem Field.outline_of_read {p : Prefixes} {m : ModRM} (f : Field) (y : Operand) (h : (f.read p m).Yields y) :
    y.outline = f.outline (p.has .operandSize) m.isRegister := by
  cases f with
  | reg s =>
    obtain rfl := h.eq_of_accept
    rw [outline, ← s.width_eq p]
    rfl
  | rm s =>
    rw [outline, ← s.width_eq p]
    cases hm : m.isRegister with
    | true =>
      rw [read, if_pos hm] at h
      obtain rfl := h.eq_of_accept
      rfl
    | false =>
      rw [read, if_neg (Bool.eq_false_iff.1 hm)] at h
      obtain ⟨a, -, hy⟩ := h.of_andThen
      obtain rfl := hy.eq_of_accept
      rfl
  | slot s => exact s.outline_of_read y h

/-! ## Reading instructions in outline -/

/-- The outline of what the selection stands for. -/
def Selection.outline? (override direct : Bool) : Selection → Option Instruction
  | .undefined => none
  | .form i => some (i.map (Field.outline override direct)).withoutBare
  | .lea => some (.lea ⟨Size.operand.widthUnder override, 0⟩ .blank)
  | .address op => some (.address op .blank)

theorem Selection.outline_of_read {p : Prefixes} {m : ModRM} {s : Selection} {i : Instruction}
    (h : (s.read p m).Yields i) : s.outline? (p.has .operandSize) m.isRegister = some i.outline := by
  cases s with
  | undefined =>
    obtain ⟨bs, rest, hrun⟩ := h
    cases (run_reject bs).symm.trans hrun
  | form form => exact congrArg some (InstructionOf.outline_of_traverse Field.outline_of_read h).symm
  | lea =>
    obtain ⟨a, -, hi⟩ := h.of_andThen
    obtain rfl := hi.eq_of_accept
    rw [outline?, ← Size.width_eq]
    rfl
  | address op =>
    obtain ⟨a, -, hi⟩ := h.of_andThen
    obtain rfl := hi.eq_of_accept
    rfl

/-- The outlines of all that the entry stands for. -/
def Entry.outlines (override direct : Bool) : Entry → List Instruction
  | .undefined => []
  | .form i => [(i.map (Slot.outline override)).withoutBare]
  | .sized word dword => [.plain word, .plain dword]
  | .idle => [.plain .nop, .plain .pause]
  | .modRM choose => (List.finRange 8).filterMap fun reg => (choose reg direct).outline? override direct

/-- **What is read for an entry has one of its outlines.** -/
theorem Entry.outline_of_run {p : Prefixes} {e : Entry} {i : Instruction} {bs rest : List UInt8}
    (h : (e.read p).run bs = .accepted i rest) :
    i.outline ∈ e.outlines (p.has .operandSize) (ModRM.ofByte (bs.headD 0)).isRegister := by
  cases e with
  | undefined => cases (run_reject bs).symm.trans h
  | form form =>
    exact List.mem_singleton.2 (InstructionOf.outline_of_traverse Slot.outline_of_read ⟨bs, rest, h⟩)
  | sized word dword =>
    obtain rfl := Yields.eq_of_accept ⟨bs, rest, h⟩
    show InstructionOf.plain _ ∈ [InstructionOf.plain word, .plain dword]
    cases p.isFlagged .operandSize <;> simp
  | idle =>
    obtain rfl := Yields.eq_of_accept ⟨bs, rest, h⟩
    show InstructionOf.plain _ ∈ [InstructionOf.plain .nop, .plain .pause]
    cases p.has .rep <;> simp
  | modRM choose =>
    cases bs with
    | nil => cases h
    | cons b tail =>
      have hread := Selection.outline_of_read ⟨tail, rest, h⟩
      exact List.mem_filterMap.2 ⟨(ModRM.ofByte b).reg, List.mem_finRange _, hread⟩

end CodeAtlas
