import CodeAtlas.Proofs.Decoder.Length
import CodeAtlas.Proofs.Encoding.Outline

/-!
# Synonymous encodings

Many instructions have more than one encoding.  The opcode maps describe these in different places, each with its
own order, widths and signs of the operands, and nothing in the maps says that the descriptions agree.

* `Encodes` — after some prefixes and whatever follows, some bytes decode to an instruction;
* `Field.slotAt`, `Entry.slotsAt?` — a ModRM byte that names a register or an absolute address leaves nothing
  to be read, so what follows it is described like what follows an opcode without one;
* `Shortens` — opcodes that do without such a ModRM byte, and `Shortens.sameSlots` — they describe the same;
* `OpcodeMap.hasDirection`, `decodeSingle_toggle` — the opcodes with a direction bit, which swaps the operands;
* `Redundant`, `decodeSingle_synonyms` — all pairs of encodings of one instruction.
-/

namespace CodeAtlas

open Grammar Encoding

/-! ## Encodings after some prefixes -/

theorem Prefixes.eq_of_bytes {p q : Prefixes} (h : p.bytes = q.bytes) : p = q := by
  have hkinds : p.kinds = q.kinds :=
    List.map_injective_iff.2 (fun _ _ => LegacyPrefix.byte_injective) h
  cases p
  cases q
  cases hkinds
  rfl

theorem Prefixes.isPrefixByte_of_mem {p : Prefixes} {b : UInt8} (h : b ∈ p.bytes) : isPrefixByte b = true := by
  obtain ⟨k, -, rfl⟩ := List.mem_map.1 h
  rw [isPrefixByte, LegacyPrefix.ofByte?_byte]
  rfl

/-- Decoding what follows the prefixes `p`. -/
theorem decodeSingle_prefixed {b : UInt8} (hb : isPrefixByte b = false) (p : Prefixes) (bs : List UInt8)
    (a : UInt64) :
    decodeSingle (p.bytes ++ b :: bs) a = report a p (b :: bs) ((operation p b).run bs) := by
  have hrest : ∀ c ∈ (b :: bs).head?, isPrefixByte c = false := by
    intro c hc
    cases hc
    exact hb
  obtain ⟨hleading, hbody⟩ := leading_append (fun _ => Prefixes.isPrefixByte_of_mem) hrest
  have hroom : (leading (p.bytes ++ b :: bs)).length ≤ Prefixes.limit := by
    rw [hleading, p.length_bytes]
    exact p.length_le
  obtain ⟨q, hq, hdecode⟩ := decodeSingle_eq_report (p.bytes ++ b :: bs) hroom a
  obtain rfl := Prefixes.eq_of_bytes (hq.trans hleading)
  rw [hdecode, hbody]
  rfl

/-- After the prefixes `p`, and whatever follows, the bytes `e` are an encoding of `i`. -/
def Encodes (p : Prefixes) (e : List UInt8) (i : Instruction) : Prop :=
  ∀ rest a, decodeSingle (p.bytes ++ e ++ rest) a = .ok ⟨a, p.count + e.length, p, i⟩

theorem encodes_of_run {p : Prefixes} {b : UInt8} {bs : List UInt8} {i : Instruction}
    (h : (operation p b).run bs = .accepted i []) : Encodes p (b :: bs) i := by
  have hb : isPrefixByte b = false := by
    rw [Bool.eq_false_iff]
    intro hkind
    have hreject := run_remainder_of_isPrefixByte hkind p bs
    rw [run_remainder, h] at hreject
    cases hreject
  intro rest a
  rw [List.append_assoc, List.cons_append, decodeSingle_prefixed hb, run_append_of_accepted h]
  show Except.ok (⟨a, p.bytes.length + ((b :: bs ++ rest).length - rest.length), p, i⟩ : Decoded) = _
  rw [List.length_append, Nat.add_sub_cancel, p.length_bytes]

/-- A one-byte opcode is its entry in the first map. -/
theorem Encoding.operation_primary {b : UInt8} (hb : b ≠ 0x0F) (p : Prefixes) :
    operation p b = (OpcodeMap.primary b).read p := by
  rw [operation, Opcode.startingWith, if_neg hb]
  rfl

/-- What an entry of the first map reads is encoded after the byte of the entry: the escape has none. -/
theorem encodes_of_primary {p : Prefixes} {b : UInt8} {bs : List UInt8} {i : Instruction}
    (h : ((OpcodeMap.primary b).read p).run bs = .accepted i []) : Encodes p (b :: bs) i := by
  have hb : b ≠ 0x0F := by
    intro heq
    rw [heq] at h
    cases (run_reject bs).symm.trans h
  apply encodes_of_run
  rw [operation_primary hb]
  exact h

/-- The same for the second map: the second escape has no entry there. -/
theorem encodes_of_secondary {p : Prefixes} {b : UInt8} {bs : List UInt8} {i : Instruction}
    (h : ((OpcodeMap.secondary b).read p).run bs = .accepted i []) : Encodes p (0x0F :: b :: bs) i := by
  have hb : b ≠ 0x01 := by
    intro heq
    rw [heq] at h
    cases (run_reject bs).symm.trans h
  apply encodes_of_run
  show ((if b = 0x01 then _ else _ : Grammar Opcode).andThen _).run bs = _
  rw [if_neg hb]
  exact h

/-! ## ModRM bytes that leave nothing to be read -/

/-- The byte of three fields. -/
def ModRM.toByte (m : ModRM) : UInt8 :=
  UInt8.ofNat (64 * m.mode + 8 * m.reg + m.rm)

theorem ModRM.ofByte_toByte (m : ModRM) : ofByte m.toByte = m := by
  have h : ∀ mode reg rm, ofByte (toByte ⟨mode, reg, rm⟩) = ⟨mode, reg, rm⟩ := by decide +kernel
  exact h m.mode m.reg m.rm

/-- The slot that a field stands for after a ModRM byte which names a register or an absolute address. -/
def Field.slotAt (m : ModRM) : Field → Slot
  | .reg s => .register m.reg s
  | .rm s => if m.isRegister then .register m.rm s else .absolute s
  | .slot s => s

theorem Field.read_eq_slotAt {m : ModRM} (hm : m.isRegister = true ∨ m.isAbsolute = true) (p : Prefixes)
    (f : Field) : f.read p m = (f.slotAt m).read p := by
  cases f with
  | reg s => rfl
  | slot s => rfl
  | rm s =>
    rw [read, slotAt]
    split
    · rfl
    · next hno =>
      -- mode `00` with `rm` five has neither a SIB byte nor a base: four bytes of displacement are all there is
      obtain ⟨mode, reg, rm⟩ := m
      obtain ⟨hmode, hrm⟩ := (Bool.and_eq_true _ _).mp (hm.resolve_left hno)
      obtain rfl : mode = 0 := eq_of_beq hmode
      obtain rfl : rm = 5 := eq_of_beq hrm
      show (((number .dword .signed).andThen _).andThen _).andThen _ = (number .dword .signed).andThen _
      rw [andThen_assoc, andThen_assoc]
      rfl

theorem InstructionOf.traverse_map {α β γ : Type} (f : α → β) (g : β → Grammar γ) (i : InstructionOf α) :
    (i.map f).traverse g = i.traverse fun x => g (f x) := by
  cases i with
  | imul dst src factor => cases factor <;> rfl
  | _ => rfl

/-- The instruction of an entry without a ModRM byte. -/
def Entry.slots? : Entry → Option (InstructionOf Slot)
  | .form i => some i
  | _ => none

theorem Entry.eq_form_of_slots? {e : Entry} {i : InstructionOf Slot} (h : e.slots? = some i) : e = .form i := by
  cases e with
  | form _ =>
    cases h
    rfl
  | undefined | sized _ _ | idle | modRM _ => cases h

/-- The instruction of an entry after a ModRM byte which names a register or an absolute address. -/
def Entry.slotsAt? (m : ModRM) : Entry → Option (InstructionOf Slot)
  | .modRM choose =>
    match choose m.reg m.isRegister with
    | .form i => some (i.map (Field.slotAt m))
    | _ => none
  | _ => none

theorem Entry.run_of_slotsAt? {m : ModRM} (hm : m.isRegister = true ∨ m.isAbsolute = true) {e : Entry}
    {i : InstructionOf Slot} (h : e.slotsAt? m = some i) (p : Prefixes) (bs : List UInt8) :
    (e.read p).run (m.toByte :: bs) = (i.traverse (Slot.read p)).run bs := by
  cases e with
  | modRM choose =>
    rw [read, run_byte_cons, ModRM.ofByte_toByte]
    show ((choose m.reg m.isRegister).read p m).run bs = _
    unfold slotsAt? at h
    dsimp only at h
    split at h
    · next form hform =>
      cases h
      rw [hform, InstructionOf.traverse_map]
      show (form.traverse (Field.read p m)).run bs = _
      rw [funext (Field.read_eq_slotAt hm p)]
    · cases h
  | undefined | form _ | sized _ _ | idle => cases h

/-! ## Short forms -/

/-- The opcode `short` has no ModRM byte and the opcode `long` has the ModRM byte `m`; the same operands follow
both.  The number `s` tells the opcode for bytes from the one for the operand size. -/
inductive Shortens : (short long : UInt8) → (m : ModRM) → Prop
  /-- Arithmetic on the accumulator with an immediate. -/
  | arithmetic (k : Fin 8) (s : Fin 2) :
      Shortens (UInt8.ofNat (0x04 + 8 * k + s)) (UInt8.ofNat (0x80 + s)) ⟨3, k, 0⟩
  /-- A test of the accumulator against an immediate. -/
  | test (s : Fin 2) : Shortens (UInt8.ofNat (0xA8 + s)) (UInt8.ofNat (0xF6 + s)) ⟨3, 0, 0⟩
  | inc (r : Fin 8) : Shortens (UInt8.ofNat (0x40 + r)) 0xFF ⟨3, 0, r⟩
  | dec (r : Fin 8) : Shortens (UInt8.ofNat (0x48 + r)) 0xFF ⟨3, 1, r⟩
  | push (r : Fin 8) : Shortens (UInt8.ofNat (0x50 + r)) 0xFF ⟨3, 6, r⟩
  | pop (r : Fin 8) : Shortens (UInt8.ofNat (0x58 + r)) 0x8F ⟨3, 0, r⟩
  /-- A move of an immediate to a register of one byte. -/
  | movByte (r : Fin 8) : Shortens (UInt8.ofNat (0xB0 + r)) 0xC6 ⟨3, 0, r⟩
  /-- A move of an immediate to a register of the operand size. -/
  | mov (r : Fin 8) : Shortens (UInt8.ofNat (0xB8 + r)) 0xC7 ⟨3, 0, r⟩
  /-- An exchange of the accumulator with another register. -/
  | xchg (r : Fin 8) : r ≠ 0 → Shortens (UInt8.ofNat (0x90 + r)) 0x87 ⟨3, r, 0⟩
  /-- A move from an absolute address to the accumulator. -/
  | load (s : Fin 2) : Shortens (UInt8.ofNat (0xA0 + s)) (UInt8.ofNat (0x8A + s)) ⟨0, 0, 5⟩
  /-- A move from the accumulator to an absolute address. -/
  | store (s : Fin 2) : Shortens (UInt8.ofNat (0xA2 + s)) (UInt8.ofNat (0x88 + s)) ⟨0, 0, 5⟩

/-- Whether two entries describe the same operands, the one without a ModRM byte and the other after `m`. -/
def Entry.sameSlots (m : ModRM) (short long : Entry) : Bool :=
  (m.isRegister || m.isAbsolute) && short.slots?.isSome && long.slotsAt? m == short.slots?

/-- **The short forms in the opcode map.** -/
theorem Shortens.sameSlots {short long : UInt8} {m : ModRM} (h : Shortens short long m) :
    (OpcodeMap.primary short).sameSlots m (OpcodeMap.primary long) = true := by
  cases h with
  | arithmetic k s =>
    revert k s
    decide +kernel
  | test s =>
    revert s
    decide +kernel
  | inc r | dec r | push r | pop r | movByte r | mov r =>
    revert r
    decide +kernel
  | xchg r hr =>
    revert r
    decide +kernel
  | load s | store s =>
    revert s
    decide +kernel

/-- Without a ModRM byte, an instruction is read from as many bytes as the table of lengths says. -/
theorem Opcode.exists_run_of_form (o : Opcode) {form : InstructionOf Slot} (ho : o.entry = .form form)
    {p : Prefixes} {bs : List UInt8} (hbs : bs.length = o.immediateSize (p.has .operandSize) 0) :
    ∃ i, (form.traverse (Slot.read p)).run bs = .accepted i [] := by
  have hlaid := Opcode.entry_laidOut o (p.has .operandSize)
  rw [ho] at hlaid
  obtain ⟨-, hlayout⟩ := (Bool.and_eq_true _ _).mp hlaid
  obtain ⟨i, hi⟩ := (Slot.traverse_spans (eq_of_beq hlayout)).accepts bs (Nat.le_of_eq hbs.symm)
  rw [List.drop_of_length_le (Nat.le_of_eq hbs)] at hi
  exact ⟨i, hi⟩

theorem Shortens.synonymous {short long : UInt8} {m : ModRM} (h : Shortens short long m) {p : Prefixes}
    {bs : List UInt8} (hbs : bs.length = (Opcode.primary short).immediateSize (p.has .operandSize) 0) :
    ∃ i, Encodes p (short :: bs) i ∧ Encodes p (long :: m.toByte :: bs) i := by
  obtain ⟨hboth, hsame⟩ := (Bool.and_eq_true _ _).mp h.sameSlots
  obtain ⟨hm, hsome⟩ := (Bool.and_eq_true _ _).mp hboth
  obtain ⟨form, hform⟩ := Option.isSome_iff_exists.1 hsome
  have hshort : OpcodeMap.primary short = .form form := Entry.eq_form_of_slots? hform
  have hlong : (OpcodeMap.primary long).slotsAt? m = some form := (eq_of_beq hsame).trans hform
  obtain ⟨i, hi⟩ := Opcode.exists_run_of_form (.primary short) hshort hbs
  refine ⟨i, encodes_of_primary ?_, encodes_of_primary ?_⟩
  · rw [hshort]
    exact hi
  · rw [Entry.run_of_slotsAt? ((Bool.or_eq_true _ _).mp hm) hlong, hi]

/-! ## Shifts by one -/

theorem run_shiftGroup {size : Size} {count : Slot} {b : UInt8} {op : BinaryOp}
    (hop : OpcodeMap.shiftOp? (ModRM.ofByte b).reg = some op) (p : Prefixes) (bs : List UInt8) :
    ((OpcodeMap.shiftGroup size count).read p).run (b :: bs) =
      (((Field.rm size).read p (ModRM.ofByte b)).andThen fun x =>
        (count.read p).andThen fun y => .accept (.binary op x y)).run bs := by
  rw [OpcodeMap.shiftGroup, Entry.group, Entry.read, run_byte_cons]
  dsimp only
  rw [hop]
  rfl

/-- The address that a ModRM byte calls for is read to the last byte. -/
theorem Field.exists_run_rm {m : ModRM} {addr : List UInt8} (haddr : addr.length = m.addressExtent addr)
    (p : Prefixes) (size : Size) : ∃ x, ((Field.rm size).read p m).run addr = .accepted x [] := by
  obtain ⟨x, hx⟩ := ((Field.rm size).read_spans p m).accepts addr (Nat.le_of_eq haddr.symm)
  refine ⟨x, ?_⟩
  rw [hx]
  exact congrArg _ (List.drop_of_length_le (Nat.le_of_eq haddr))

/-- A shift by one is a shift by an immediate of one. -/
theorem shift_synonymous (s : Fin 2) {b : UInt8} (hreg : (ModRM.ofByte b).reg ≠ 6) {addr : List UInt8}
    (haddr : addr.length = (ModRM.ofByte b).addressExtent addr) (p : Prefixes) :
    ∃ i, Encodes p (UInt8.ofNat (0xD0 + s) :: b :: addr) i ∧
      Encodes p (UInt8.ofNat (0xC0 + s) :: b :: (addr ++ [1])) i := by
  have hdefined : ∀ n : Fin 8, n ≠ 6 → (OpcodeMap.shiftOp? n).isSome = true := by decide
  obtain ⟨op, hop⟩ := Option.isSome_iff_exists.1 (hdefined _ hreg)
  have hentries : ∃ size, OpcodeMap.primary (UInt8.ofNat (0xD0 + s)) = OpcodeMap.shiftGroup size .one ∧
      OpcodeMap.primary (UInt8.ofNat (0xC0 + s)) =
        OpcodeMap.shiftGroup size (.immediate (.fixed .byte) .unsigned) := by
    match s with
    | 0 => exact ⟨.fixed .byte, rfl, rfl⟩
    | 1 => exact ⟨.operand, rfl, rfl⟩
  obtain ⟨size, hone, himmediate⟩ := hentries
  obtain ⟨x, hx⟩ := Field.exists_run_rm haddr p size
  refine ⟨.binary op x (.constant ⟨1, .byte, .unsigned⟩), encodes_of_primary ?_, encodes_of_primary ?_⟩
  · rw [hone, run_shiftGroup hop, run_andThen, hx]
    rfl
  · rw [himmediate, run_shiftGroup hop, run_andThen, run_append_of_accepted hx]
    rfl

/-! ## Jumps -/

/-- A code offset is read from as many bytes as it has, whatever is made of it. -/
theorem Slot.run_branch {p : Prefixes} {s : Size} {bs : List UInt8}
    (h : bs.length = s.bytes (p.has .operandSize)) (make : Operand → Instruction) :
    (((Slot.branch s).read p).andThen fun x => .accept (make x)).run bs =
      .accepted (make (.codeOffset (LittleEndian.toInt .signed bs))) [] := by
  have hsize : bs.length = (s.width p).size := by rw [h, s.size_width]
  have hread : ((Slot.branch s).read p).run bs =
      .accepted (.codeOffset (LittleEndian.toInt .signed bs)) [] := by
    show ((number (s.width p) .signed).andThen fun d => .accept (Operand.codeOffset d)).run bs = _
    rw [run_andThen, run_number, ← hsize, if_pos (Nat.le_refl _), List.take_length, List.drop_length]
    exact run_accept _ _
  rw [run_andThen, hread]
  exact run_accept _ _

/-- A code offset of one byte and one of the operand size are read alike if they have the same value. -/
theorem Slot.run_branch_pair {p : Prefixes} {d : UInt8} {disp : List UInt8}
    (hlen : disp.length = Size.operand.bytes (p.has .operandSize))
    (hvalue : LittleEndian.toInt .signed disp = LittleEndian.toInt .signed [d])
    (make : Operand → Instruction) :
    ∃ i, (((Slot.branch (.fixed .byte)).read p).andThen fun x => .accept (make x)).run [d] = .accepted i [] ∧
      (((Slot.branch .operand).read p).andThen fun x => .accept (make x)).run disp = .accepted i [] := by
  have hbyte : [d].length = (Size.fixed .byte).bytes (p.has .operandSize) := rfl
  refine ⟨_, run_branch hbyte make, ?_⟩
  rw [run_branch hlen make, hvalue]

theorem jump_synonymous {p : Prefixes} {d : UInt8} {disp : List UInt8}
    (hlen : disp.length = Size.operand.bytes (p.has .operandSize))
    (hvalue : LittleEndian.toInt .signed disp = LittleEndian.toInt .signed [d]) :
    ∃ i, Encodes p [0xEB, d] i ∧ Encodes p (0xE9 :: disp) i := by
  obtain ⟨i, hshort, hlong⟩ := Slot.run_branch_pair hlen hvalue (InstructionOf.unary .jmp)
  exact ⟨i, encodes_of_primary hshort, encodes_of_primary hlong⟩

/-- The conditional jumps in the two opcode maps. -/
theorem OpcodeMap.conditional_slots : ∀ c : Fin 16,
    (primary (UInt8.ofNat (0x70 + c))).slots? = some (.jcc (.ofCode c) (.branch (.fixed .byte))) ∧
    (secondary (UInt8.ofNat (0x80 + c))).slots? = some (.jcc (.ofCode c) (.branch .operand)) := by
  decide +kernel

theorem conditional_synonymous {p : Prefixes} (c : Fin 16) {d : UInt8} {disp : List UInt8}
    (hlen : disp.length = Size.operand.bytes (p.has .operandSize))
    (hvalue : LittleEndian.toInt .signed disp = LittleEndian.toInt .signed [d]) :
    ∃ i, Encodes p [UInt8.ofNat (0x70 + c), d] i ∧
      Encodes p (0x0F :: UInt8.ofNat (0x80 + c) :: disp) i := by
  obtain ⟨hprimary, hsecondary⟩ := OpcodeMap.conditional_slots c
  obtain ⟨i, hshort, hlong⟩ := Slot.run_branch_pair hlen hvalue (InstructionOf.jcc (.ofCode c))
  refine ⟨i, encodes_of_primary ?_, encodes_of_secondary ?_⟩
  · rw [Entry.eq_form_of_slots? hprimary]
    exact hshort
  · rw [Entry.eq_form_of_slots? hsecondary]
    exact hlong

/-! ## The direction bit -/

/-- Whether bit 1 of a one-byte opcode says in which direction an operation between a register and an `rm`
operand goes: the arithmetic operations without immediates, and the moves `88` to `8B`. -/
def OpcodeMap.hasDirection (b : UInt8) : Bool :=
  (decide (b < 0x40) && decide ((bottomField b).val < 4)) || (decide (0x88 ≤ b) && decide (b < 0x8C))

/-- The entry of an operation between a register and an `rm` operand: the destination is `rm` or not. -/
def Entry.between (op : BinaryOp) (s : Size) (toRm : Bool) : Entry :=
  .fields (if toRm then .binary op (.rm s) (.reg s) else .binary op (.reg s) (.rm s))

theorem OpcodeMap.primary_between {b : UInt8} (hb : b < 0x40) (hlow : (bottomField b).val < 4) :
    primary b = .between (arithmeticOp (middleField b)) (.ofOpcode b) (decide ((bottomField b).val < 2)) := by
  have hcases : ∀ n : Fin 8, n.val < 4 → n = 0 ∨ n = 1 ∨ n = 2 ∨ n = 3 := by decide
  have hprimary : primary b = arithmetic b := if_pos hb
  rw [hprimary, arithmetic]
  rcases hcases _ hlow with hn | hn | hn | hn <;> rw [hn] <;> rfl

/-- What the direction bit leaves as it is in an arithmetic opcode. -/
theorem OpcodeMap.toggle_arithmetic {b : UInt8} (hb : b < 0x40) (hlow : (bottomField b).val < 4) :
    b ^^^ 2 < 0x40 ∧ (bottomField (b ^^^ 2)).val < 4 ∧ middleField (b ^^^ 2) = middleField b ∧
      Size.ofOpcode (b ^^^ 2) = Size.ofOpcode b ∧
      decide ((bottomField (b ^^^ 2)).val < 2) = !decide ((bottomField b).val < 2) := by
  have h : ∀ n : Fin 256, UInt8.ofFin n < 0x40 → (bottomField (UInt8.ofFin n)).val < 4 →
      UInt8.ofFin n ^^^ 2 < 0x40 ∧ (bottomField (UInt8.ofFin n ^^^ 2)).val < 4 ∧
      middleField (UInt8.ofFin n ^^^ 2) = middleField (UInt8.ofFin n) ∧
      Size.ofOpcode (UInt8.ofFin n ^^^ 2) = Size.ofOpcode (UInt8.ofFin n) ∧
      decide ((bottomField (UInt8.ofFin n ^^^ 2)).val < 2) =
        !decide ((bottomField (UInt8.ofFin n)).val < 2) := by
    decide +kernel
  exact h b.toFin hb hlow

/-- **The direction bit in the opcode map.**  Toggling it keeps the operation and the size. -/
theorem OpcodeMap.exists_between {b : UInt8} (h : OpcodeMap.hasDirection b = true) :
    ∃ op s toRm, primary b = .between op s toRm ∧ primary (b ^^^ 2) = .between op s (!toRm) := by
  rcases (Bool.or_eq_true _ _).mp h with harithmetic | hmove
  · obtain ⟨hb, hlow⟩ := (Bool.and_eq_true _ _).mp harithmetic
    obtain ⟨hb', hlow', hmiddle, hsize, hdirection⟩ :=
      toggle_arithmetic (of_decide_eq_true hb) (of_decide_eq_true hlow)
    refine ⟨_, _, _, primary_between (of_decide_eq_true hb) (of_decide_eq_true hlow), ?_⟩
    rw [primary_between hb' hlow', hmiddle, hsize, hdirection]
  · obtain ⟨hlow, hhigh⟩ := (Bool.and_eq_true _ _).mp hmove
    have hfour : ∀ n : Fin 256, 0x88 ≤ UInt8.ofFin n → UInt8.ofFin n < 0x8C →
        UInt8.ofFin n = 0x88 ∨ UInt8.ofFin n = 0x89 ∨ UInt8.ofFin n = 0x8A ∨ UInt8.ofFin n = 0x8B := by
      decide +kernel
    have hcases : b = 0x88 ∨ b = 0x89 ∨ b = 0x8A ∨ b = 0x8B :=
      hfour b.toFin (of_decide_eq_true hlow) (of_decide_eq_true hhigh)
    rcases hcases with rfl | rfl | rfl | rfl
    · exact ⟨.mov, .fixed .byte, true, rfl, rfl⟩
    · exact ⟨.mov, .operand, true, rfl, rfl⟩
    · exact ⟨.mov, .fixed .byte, false, rfl, rfl⟩
    · exact ⟨.mov, .operand, false, rfl, rfl⟩

theorem OpcodeMap.hasDirection_toggle {b : UInt8} (h : OpcodeMap.hasDirection b = true) :
    isPrefixByte b = false ∧ b ≠ 0x0F ∧ isPrefixByte (b ^^^ 2) = false ∧ b ^^^ 2 ≠ 0x0F := by
  have key : ∀ n : Fin 256, OpcodeMap.hasDirection (UInt8.ofFin n) = true →
      isPrefixByte (UInt8.ofFin n) = false ∧ UInt8.ofFin n ≠ 0x0F ∧
      isPrefixByte (UInt8.ofFin n ^^^ 2) = false ∧ UInt8.ofFin n ^^^ 2 ≠ 0x0F := by
    decide +kernel
  exact key b.toFin h

/-- The operation on an `rm` operand and a register, the first of which is the destination or not. -/
def Instruction.directed (op : BinaryOp) (toRm : Bool) (x r : Operand) : Instruction :=
  if toRm then .binary op x r else .binary op r x

theorem Entry.run_between (op : BinaryOp) (s : Size) (toRm : Bool) (p : Prefixes) (c : UInt8) (bs : List UInt8) :
    ((Entry.between op s toRm).read p).run (c :: bs) =
      (((Field.rm s).read p (ModRM.ofByte c)).run bs).bind fun x rest =>
        .accepted (Instruction.directed op toRm x (.register ⟨s.width p, (ModRM.ofByte c).reg⟩)) rest := by
  have hread : ((Entry.between op s toRm).read p).run (c :: bs) =
      (((Field.rm s).read p (ModRM.ofByte c)).andThen fun x =>
        .accept (Instruction.directed op toRm x (.register ⟨s.width p, (ModRM.ofByte c).reg⟩))).run bs := by
    -- the register takes no bytes, so it is the same whether it stands before the `rm` operand or after it
    cases toRm <;> rfl
  rw [hread, run_andThen]
  simp only [run_accept]

/-- A ModRM byte with the fields `reg` and `rm` exchanged. -/
def ModRM.exchange (m : ModRM) : ModRM :=
  ⟨m.mode, m.rm, m.reg⟩

/-- Between registers, toggling the direction and exchanging the registers is no change. -/
theorem exchange_synonymous {b : UInt8} (hb : OpcodeMap.hasDirection b = true) {m : ModRM} (hm : m.isRegister = true)
    (p : Prefixes) : ∃ i, Encodes p [b, m.toByte] i ∧ Encodes p [b ^^^ 2, m.exchange.toByte] i := by
  obtain ⟨op, s, toRm, hentry, hentry'⟩ := OpcodeMap.exists_between hb
  have hread : ∀ m : ModRM, m.isRegister = true →
      ((Field.rm s).read p m).run [] = .accepted (.register ⟨s.width p, m.rm⟩) [] := by
    intro m hm
    rw [Field.read, if_pos hm]
    rfl
  refine ⟨Instruction.directed op toRm (.register ⟨s.width p, m.rm⟩) (.register ⟨s.width p, m.reg⟩),
    encodes_of_primary ?_, encodes_of_primary ?_⟩
  · rw [hentry, Entry.run_between, ModRM.ofByte_toByte, hread m hm]
    rfl
  · rw [hentry', Entry.run_between, ModRM.ofByte_toByte, hread m.exchange hm]
    cases toRm <;> rfl

/-- What is decoded under a direction bit, once the `rm` operand is known. -/
theorem decodeSingle_between {b : UInt8} {op : BinaryOp} {s : Size} {toRm : Bool}
    (hentry : OpcodeMap.primary b = .between op s toRm) (hb : isPrefixByte b = false) (hescape : b ≠ 0x0F)
    (p : Prefixes) (c : UInt8) (bs : List UInt8) (a : UInt64) :
    decodeSingle (p.bytes ++ b :: c :: bs) a = report a p (b :: c :: bs)
      ((((Field.rm s).read p (ModRM.ofByte c)).run bs).bind fun x rest =>
        .accepted (Instruction.directed op toRm x (.register ⟨s.width p, (ModRM.ofByte c).reg⟩)) rest) := by
  rw [decodeSingle_prefixed hb, operation_primary hescape, hentry, Entry.run_between]

/-- The length that is reported if a ModRM byte and its address were read after an opcode. -/
theorem report_extent {p : Prefixes} {b c : UInt8} {bs : List UInt8}
    (h : ModRM.extent (c :: bs) ≤ (c :: bs).length) (a : UInt64) (i : Instruction) :
    report a p (b :: c :: bs) (.accepted i (bs.drop ((ModRM.ofByte c).addressExtent bs))) =
      .ok ⟨a, p.count + 1 + ModRM.extent (c :: bs), p, i⟩ := by
  have hextent : ModRM.extent (c :: bs) = 1 + (ModRM.ofByte c).addressExtent bs := rfl
  have hlength : p.bytes.length + ((b :: c :: bs).length -
      (bs.drop ((ModRM.ofByte c).addressExtent bs)).length) = p.count + 1 + ModRM.extent (c :: bs) := by
    simp only [hextent, List.length_cons, List.length_drop, p.length_bytes] at h ⊢
    omega
  rw [report, hlength]

/-- **The direction bit.**  Toggling it swaps the two operands and keeps all else, for every ModRM byte and
whatever follows it; if the address is cut short, it is so either way. -/
theorem decodeSingle_toggle {b : UInt8} (hb : OpcodeMap.hasDirection b = true) (p : Prefixes) (c : UInt8)
    (bs : List UInt8) (a : UInt64) :
    (ModRM.extent (c :: bs) ≤ (c :: bs).length → ∃ op x y,
      decodeSingle (p.bytes ++ b :: c :: bs) a =
        .ok ⟨a, p.count + 1 + ModRM.extent (c :: bs), p, .binary op x y⟩ ∧
      decodeSingle (p.bytes ++ (b ^^^ 2) :: c :: bs) a =
        .ok ⟨a, p.count + 1 + ModRM.extent (c :: bs), p, .binary op y x⟩) ∧
    ((c :: bs).length < ModRM.extent (c :: bs) →
      decodeSingle (p.bytes ++ b :: c :: bs) a = .error (.truncated a (p.bytes ++ b :: c :: bs)) ∧
      decodeSingle (p.bytes ++ (b ^^^ 2) :: c :: bs) a =
        .error (.truncated a (p.bytes ++ (b ^^^ 2) :: c :: bs))) := by
  obtain ⟨op, s, toRm, hentry, hentry'⟩ := OpcodeMap.exists_between hb
  obtain ⟨hkind, hescape, hkind', hescape'⟩ := OpcodeMap.hasDirection_toggle hb
  have hextent : ModRM.extent (c :: bs) = 1 + (ModRM.ofByte c).addressExtent bs := rfl
  have hspans : Spans ((Field.rm s).read p (ModRM.ofByte c)) (ModRM.ofByte c).addressExtent :=
    (Field.rm s).read_spans p (ModRM.ofByte c)
  constructor
  · intro hle
    have haddress : (ModRM.ofByte c).addressExtent bs ≤ bs.length := by
      rw [hextent, List.length_cons] at hle
      omega
    obtain ⟨x, hx⟩ := hspans.accepts bs haddress
    have hdecode := decodeSingle_between hentry hkind hescape p c bs a
    have hdecode' := decodeSingle_between hentry' hkind' hescape' p c bs a
    rw [hx] at hdecode hdecode'
    cases toRm with
    | true =>
      exact ⟨op, x, _, hdecode.trans (report_extent hle a _), hdecode'.trans (report_extent hle a _)⟩
    | false =>
      exact ⟨op, _, x, hdecode.trans (report_extent hle a _), hdecode'.trans (report_extent hle a _)⟩
  · intro hlt
    have haddress : bs.length < (ModRM.ofByte c).addressExtent bs := by
      rw [hextent, List.length_cons] at hlt
      omega
    rw [decodeSingle_between hentry hkind hescape, decodeSingle_between hentry' hkind' hescape',
      hspans.asks bs haddress]
    exact ⟨rfl, rfl⟩

/-! ## All synonyms -/

/-- Pairs of encodings of one instruction after the prefixes `p`. -/
inductive Redundant (p : Prefixes) : List UInt8 → List UInt8 → Prop
  /-- A short form and the form with a ModRM byte, followed by the same immediate or offset. -/
  | short {short long : UInt8} {m : ModRM} (bs : List UInt8) : Shortens short long m →
      bs.length = (Opcode.primary short).immediateSize (p.has .operandSize) 0 →
      Redundant p (short :: bs) (long :: m.toByte :: bs)
  /-- A shift by one and a shift by an immediate of one, for every shift and every `rm` operand. -/
  | shift (s : Fin 2) (b : UInt8) (addr : List UInt8) : (ModRM.ofByte b).reg ≠ 6 →
      addr.length = (ModRM.ofByte b).addressExtent addr →
      Redundant p (UInt8.ofNat (0xD0 + s) :: b :: addr) (UInt8.ofNat (0xC0 + s) :: b :: (addr ++ [1]))
  /-- Jumps by one displacement, in one byte and at the operand size. -/
  | jump (d : UInt8) (disp : List UInt8) : disp.length = Size.operand.bytes (p.has .operandSize) →
      LittleEndian.toInt .signed disp = LittleEndian.toInt .signed [d] →
      Redundant p [0xEB, d] (0xE9 :: disp)
  /-- Conditional jumps by one displacement, in one byte and at the operand size. -/
  | conditional (c : Fin 16) (d : UInt8) (disp : List UInt8) :
      disp.length = Size.operand.bytes (p.has .operandSize) →
      LittleEndian.toInt .signed disp = LittleEndian.toInt .signed [d] →
      Redundant p [UInt8.ofNat (0x70 + c), d] (0x0F :: UInt8.ofNat (0x80 + c) :: disp)

/-- **Synonymous encodings decode alike.**  After any prefixes, redundant encodings decode to one instruction,
each with its own length and whatever follows.  The direction bit of an opcode swaps the two operands and keeps
all else; between registers, exchanging these as well is no change. -/
theorem decodeSingle_synonyms (p : Prefixes) :
    (∀ e e', Redundant p e e' → ∃ i, Encodes p e i ∧ Encodes p e' i) ∧
    (∀ b, OpcodeMap.hasDirection b = true → ∀ c bs a,
      (ModRM.extent (c :: bs) ≤ (c :: bs).length → ∃ op x y,
        decodeSingle (p.bytes ++ b :: c :: bs) a =
          .ok ⟨a, p.count + 1 + ModRM.extent (c :: bs), p, .binary op x y⟩ ∧
        decodeSingle (p.bytes ++ (b ^^^ 2) :: c :: bs) a =
          .ok ⟨a, p.count + 1 + ModRM.extent (c :: bs), p, .binary op y x⟩) ∧
      ((c :: bs).length < ModRM.extent (c :: bs) →
        decodeSingle (p.bytes ++ b :: c :: bs) a = .error (.truncated a (p.bytes ++ b :: c :: bs)) ∧
        decodeSingle (p.bytes ++ (b ^^^ 2) :: c :: bs) a =
          .error (.truncated a (p.bytes ++ (b ^^^ 2) :: c :: bs)))) ∧
    ∀ b, OpcodeMap.hasDirection b = true → ∀ m : ModRM, m.isRegister = true →
      ∃ i, Encodes p [b, m.toByte] i ∧ Encodes p [b ^^^ 2, m.exchange.toByte] i := by
  refine ⟨?_, fun b hb c bs a => decodeSingle_toggle hb p c bs a, fun b hb m hm => exchange_synonymous hb hm p⟩
  intro e e' h
  cases h with
  | short bs hshort hbs => exact hshort.synonymous hbs
  | shift s b addr hreg haddr => exact shift_synonymous s hreg haddr p
  | jump d disp hlen hvalue => exact jump_synonymous hlen hvalue
  | conditional c d disp hlen hvalue => exact conditional_synonymous c hlen hvalue

/-- Synonyms at word operand size: an addition to the accumulator, a shift by one of an element of a table, an
addition in both directions, a move between registers. -/
theorem decodeSingle_synonyms_word :
    let p : Prefixes := ⟨[.lock, .operandSize], by decide⟩
    (∃ i, Encodes p [0x05, 0x34, 0x12] i ∧ Encodes p [0x81, 0xC0, 0x34, 0x12] i) ∧
    (∃ i, Encodes p [0xD1, 0x24, 0x8D, 0, 0x10, 0, 0] i ∧
      Encodes p [0xC1, 0x24, 0x8D, 0, 0x10, 0, 0, 1] i) ∧
    (∃ op x y, decodeSingle (p.bytes ++ [0x01, 0x43, 0x08]) 0 = .ok ⟨0, 5, p, .binary op x y⟩ ∧
      decodeSingle (p.bytes ++ [0x03, 0x43, 0x08]) 0 = .ok ⟨0, 5, p, .binary op y x⟩) ∧
    ∃ i, Encodes p [0x89, 0xD8] i ∧ Encodes p [0x8B, 0xC3] i := by
  intro p
  obtain ⟨hredundant, htoggle, hexchange⟩ := decodeSingle_synonyms p
  exact ⟨hredundant _ _ (.short [0x34, 0x12] (.arithmetic 0 1) rfl),
    hredundant _ _ (.shift 1 0x24 [0x8D, 0, 0x10, 0, 0] (by decide) rfl),
    (htoggle 0x01 rfl 0x43 [0x08] 0).1 (by decide), hexchange 0x89 rfl ⟨3, 3, 0⟩ rfl⟩

end CodeAtlas
