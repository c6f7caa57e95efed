import CodeAtlas.Encoding.Instruction
import CodeAtlas.Proofs.Grammar.Viability

/-!
# The grammar of instructions rejects at the first hopeless byte

Operands are read by grammars that never reject, so the only places where an encoding can go wrong are the
opcode and the ModRM byte.  What remains is that every opcode that asks for a ModRM byte has a use for at
least one, which is a fact about the opcode maps (`Opcode.entry_selectable`).

* `Slot.read_unfailing`, `Field.read_unfailing`, `InstructionOf.traverse_unfailing` — operands;
* `Entry.read_prompt` — all that follows an opcode;
* `Encoding.instruction_prompt` — one complete instruction.
-/

namespace CodeAtlas

open Grammar

/-! ## Operands never fail -/

theorem Grammar.bytes_unfailing (n : Nat) : (Grammar.bytes n).Unfailing := by
  induction n with
  | zero => exact trivial
  | succ n ih =>
    intro b
    exact ih.andThen fun _ => trivial

theorem Grammar.number_unfailing (w : Width) (s : Signedness) : (Grammar.number w s).Unfailing :=
  (bytes_unfailing w.size).andThen fun _ => trivial

theorem ModRM.displacement_unfailing (mode : Fin 4) (baseless : Bool) :
    (ModRM.displacement mode baseless).Unfailing := by
  have hsome : ∀ w, (some <$> Grammar.number w .signed : Grammar (Option Int)).Unfailing :=
    fun w => (number_unfailing w .signed).andThen fun _ => trivial
  unfold ModRM.displacement
  split
  · exact hsome .byte
  · exact hsome .dword
  · exact hsome .dword
  · exact trivial

/-- A ModRM byte that names no register describes an address, whatever follows it. -/
theorem ModRM.address_unfailing {m : ModRM} (h : m.isRegister = false) : m.address.Unfailing := by
  unfold ModRM.address
  rw [h, if_neg Bool.false_ne_true]
  split
  · intro b
    exact (displacement_unfailing _ _).andThen fun _ => trivial
  · exact (displacement_unfailing _ _).andThen fun _ => trivial

theorem Slot.read_unfailing (p : Prefixes) (s : Slot) : (s.read p).Unfailing := by
  cases s with
  | register n s => exact trivial
  | one => exact trivial
  | immediate s sign => exact (number_unfailing _ _).andThen fun _ => trivial
  | branch s => exact (number_unfailing _ _).andThen fun _ => trivial
  | absolute s => exact (number_unfailing _ _).andThen fun _ => trivial

theorem Field.read_unfailing (p : Prefixes) (m : ModRM) (f : Field) : (f.read p m).Unfailing := by
  cases f with
  | reg s => exact trivial
  | rm s =>
    show (if m.isRegister = true then _ else _ : Grammar Operand).Unfailing
    by_cases h : m.isRegister = true
    · rw [if_pos h]
      exact trivial
    · rw [if_neg h]
      exact (ModRM.address_unfailing (Bool.not_eq_true _ ▸ h)).andThen fun _ => trivial
  | slot s => exact s.read_unfailing p

/-- An instruction whose operands are read without fail is read without fail. -/
theorem InstructionOf.traverse_unfailing {α β : Type} {f : α → Grammar β}
    (hf : ∀ a, (f a).Unfailing) (i : InstructionOf α) : (i.traverse f).Unfailing := by
  cases i with
  | plain op => exact trivial
  | unary op x => exact (hf x).andThen fun _ => trivial
  | binary op x y => exact (hf x).andThen fun _ => (hf y).andThen fun _ => trivial
  | imul dst src factor =>
    cases factor with
    | none => exact (hf dst).andThen fun _ => (hf src).andThen fun _ => trivial
    | some factor =>
      exact (hf dst).andThen fun _ => (hf src).andThen fun _ => (hf factor).andThen fun _ => trivial
  | doubleShift op dst src count =>
    exact (hf dst).andThen fun _ => (hf src).andThen fun _ => (hf count).andThen fun _ => trivial
  | cmovcc c dst src => exact (hf dst).andThen fun _ => (hf src).andThen fun _ => trivial
  | setcc c dst => exact (hf dst).andThen fun _ => trivial
  | jcc c target => exact (hf target).andThen fun _ => trivial
  | bswap r => exact trivial
  | lea dst src => exact trivial
  | address op a => exact trivial

/-! ## What follows a ModRM byte -/

/-- Whether a selection has a use for a ModRM byte that names a register (`direct`) or a place in memory. -/
def Selection.admits (direct : Bool) : Selection → Bool
  | .undefined => false
  | .form _ => true
  | .lea => !direct
  | .address _ => !direct

/-- A selection that has a use for the byte is read without fail. -/
theorem Selection.read_unfailing {p : Prefixes} {m : ModRM} {s : Selection}
    (h : s.admits m.isRegister = true) : (s.read p m).Unfailing := by
  cases s with
  | undefined => cases h
  | form i => exact i.traverse_unfailing (Field.read_unfailing p m)
  | lea => exact (ModRM.address_unfailing (by simpa [admits] using h)).andThen fun _ => trivial
  | address op => exact (ModRM.address_unfailing (by simpa [admits] using h)).andThen fun _ => trivial

/-- A selection that has no use for the byte rejects it without reading on. -/
theorem Selection.read_eq_reject {p : Prefixes} {m : ModRM} {s : Selection}
    (h : s.admits m.isRegister = false) : s.read p m = .reject := by
  have haddress : m.isRegister = true → m.address = .reject := by
    intro hm
    rw [ModRM.address, if_pos hm]
  cases s with
  | undefined => rfl
  | form i => cases h
  | lea =>
    show m.address.andThen _ = .reject
    rw [haddress (by simpa [admits] using h)]
    rfl
  | address op =>
    show m.address.andThen _ = .reject
    rw [haddress (by simpa [admits] using h)]
    rfl

theorem Selection.read_prompt (p : Prefixes) (m : ModRM) (s : Selection) : Prompt (s.read p m) := by
  cases h : s.admits m.isRegister with
  | true => exact (read_unfailing h).prompt
  | false =>
    rw [read_eq_reject h]
    exact prompt_reject

/-! ## What follows an opcode -/

/-- A ModRM byte with the given `reg` field that names a register or a place in memory. -/
def ModRM.sample (reg : Fin 8) (direct : Bool) : UInt8 :=
  UInt8.ofNat ((if direct then 192 else 0) + 8 * reg.val)

theorem ModRM.ofByte_sample (reg : Fin 8) (direct : Bool) :
    (ofByte (sample reg direct)).reg = reg ∧ (ofByte (sample reg direct)).isRegister = direct := by
  revert reg direct
  decide

/-- Whether an entry that asks for a ModRM byte has a use for some. -/
def Entry.selectable : Entry → Bool
  | .modRM choose =>
    (List.finRange 8).any fun reg => [true, false].any fun direct => (choose reg direct).admits direct
  | _ => true

/-- What follows an opcode is read promptly if the opcode has a use for some ModRM byte. -/
theorem Entry.read_prompt (p : Prefixes) {e : Entry} (h : e.selectable = true) : Prompt (e.read p) := by
  cases e with
  | undefined => exact prompt_reject
  | form i => exact (i.traverse_unfailing (Slot.read_unfailing p)).prompt
  | sized word dword => exact prompt_accept _
  | idle => exact prompt_accept _
  | modRM choose =>
    refine prompt_byte ?_ fun b => Selection.read_prompt p (ModRM.ofByte b) _
    obtain ⟨reg, -, hreg⟩ := List.any_eq_true.1 h
    obtain ⟨direct, -, hadmits⟩ := List.any_eq_true.1 hreg
    obtain ⟨h₁, h₂⟩ := ModRM.ofByte_sample reg direct
    refine productive_byte (ModRM.sample reg direct) (Unfailing.productive ?_)
    apply Selection.read_unfailing
    rw [h₁, h₂]
    exact hadmits

/-! ## The opcode maps -/

theorem OpcodeMap.primary_selectable (b : UInt8) : (primary b).selectable = true := by
  have h : ∀ n : Fin 256, (primary (UInt8.ofFin n)).selectable = true := by decide +kernel
  exact h b.toFin

theorem OpcodeMap.secondary_selectable (b : UInt8) : (secondary b).selectable = true := by
  have h : ∀ n : Fin 256, (secondary (UInt8.ofFin n)).selectable = true := by decide +kernel
  exact h b.toFin

theorem OpcodeMap.tertiary_selectable (b : UInt8) : (tertiary b).selectable = true := by
  unfold tertiary
  split <;> rfl

/-- Every opcode that asks for a ModRM byte has a use for some. -/
theorem Opcode.entry_selectable (o : Opcode) : o.entry.selectable = true := by
  cases o with
  | primary b => exact OpcodeMap.primary_selectable b
  | secondary b => exact OpcodeMap.secondary_selectable b
  | tertiary b => exact OpcodeMap.tertiary_selectable b

/-! ## Whole instructions -/

namespace Encoding

/-- What follows the first byte of an opcode. -/
def remainder (p : Prefixes) (first : UInt8) : Grammar (Prefixes × Instruction) :=
  (Opcode.startingWith first).andThen fun o => (o.entry.read p).andThen fun i => .accept (p, i)

theorem instruction_eq :
    instruction = (prefixed Prefixes.limit .empty).andThen fun r => remainder r.1 r.2 := rfl

/-- All that follows a complete opcode. -/
theorem entry_prompt (p : Prefixes) (o : Opcode) :
    Prompt ((o.entry.read p).andThen fun i => .accept (p, i)) :=
  (Entry.read_prompt p o.entry_selectable).andThen
    (fun i => prompt_accept (p, i)) fun i => productive_accept (p, i)

/-- After the escape byte some two-byte and some three-byte opcode is complete as it stands. -/
theorem remainder_prompt (p : Prefixes) (first : UInt8) : Prompt (remainder p first) := by
  unfold remainder Opcode.startingWith
  by_cases hescape : first = 0x0F
  · rw [if_pos hescape]
    refine prompt_byte ?_ fun second => ?_
    · exact productive_byte 0x31 ⟨[], (p, .plain .rdtsc), rfl⟩
    · show Prompt (Grammar.andThen (if second = 0x01 then _ else _) _)
      by_cases hsecond : second = 0x01
      · rw [if_pos hsecond]
        refine prompt_byte ?_ fun third => entry_prompt p (.tertiary third)
        exact productive_byte 0xC8 ⟨[], (p, .plain .monitor), rfl⟩
      · rw [if_neg hsecond]
        exact entry_prompt p (.secondary second)
  · rw [if_neg hescape]
    exact entry_prompt p (.primary first)

/-- A return can follow any prefixes. -/
theorem remainder_productive (p : Prefixes) : Productive (remainder p 0xC3) :=
  ⟨[], (p, .plain .ret), rfl⟩

theorem prefixed_productive (room : Nat) (p : Prefixes) :
    Productive ((prefixed room p).andThen fun r => remainder r.1 r.2) := by
  cases room with
  | zero => exact productive_byte 0xC3 (remainder_productive p)
  | succ room => exact productive_byte 0xC3 (remainder_productive p)

theorem prefixed_prompt (room : Nat) :
    ∀ p, Prompt ((prefixed room p).andThen fun r => remainder r.1 r.2) := by
  induction room with
  | zero =>
    intro p
    exact prompt_byte (prefixed_productive 0 p) fun b => remainder_prompt p b
  | succ room ih =>
    intro p
    refine prompt_byte (prefixed_productive (room + 1) p) fun b => ?_
    beta_reduce
    cases p.push? b with
    | some q => exact ih q
    | none => exact remainder_prompt p b

/-- **Rejection is prompt.**  As long as an instruction asks for another byte, some bytes complete it. -/
theorem instruction_prompt : Prompt instruction := by
  rw [instruction_eq]
  exact prefixed_prompt Prefixes.limit .empty

end Encoding

end CodeAtlas
