import CodeAtlas.Proofs.Decoder.Synonyms
import CodeAtlas.Proofs.Encoding.TwosComplement
import Mathlib.Data.List.DropRight

/-!
# Numbers at the end of an encoding

An immediate or a code offset is the last thing that an instruction reads, whatever stands before it: prefixes,
the opcode, a ModRM byte, a SIB byte and a displacement of any length.  So its bytes are the last of the encoding,
and what they hold can be told without knowing where it starts.  The only instruction with two immediates is
`enter`, and the only constant that takes no bytes is the count of the shifts by one.

* `Grammar.exists_run_of_mem_each` — where in the bytes an operand is read;
* `Entry.forms`, `Entry.exists_form_of_run` — the instructions that an entry of the opcode map stands for;
* `Field.trailing`, `Opcode.forms_tidy` — in the opcode maps a number is followed by nothing that takes bytes;
* `Field.of_run_constant`, `Field.of_run_codeOffset` — the bytes of a number;
* `decodeSingle_numbers` — the numbers of a decoded instruction.
-/

namespace CodeAtlas

open Grammar Encoding

/-! ## Where an operand is read -/

namespace Grammar

variable {α β : Type}

/-- What is left of the bytes after a grammar stands at their end. -/
theorem suffix_of_run {g : Grammar α} {a : α} {bs rest : List UInt8} (h : g.run bs = .accepted a rest) :
    rest <:+ bs := by
  obtain ⟨e, he, -⟩ := exists_of_run_accepted h
  exact ⟨e, he.symm⟩

/-- **Each operand is read from some of the bytes**, after those of the operands before it. -/
theorem exists_run_of_mem_each {f : α → Grammar β} :
    ∀ {xs : List α} {ys : List β} {bs rest : List UInt8}, (each f xs).run bs = .accepted ys rest → ∀ y ∈ ys,
      ∃ before x after mid tail, xs = before ++ x :: after ∧ mid <:+ bs ∧
        (f x).run mid = .accepted y tail ∧ ∃ zs, (each f after).run tail = .accepted zs rest := by
  intro xs
  induction xs with
  | nil =>
    intro ys bs rest h y hy
    cases (run_accept [] bs).symm.trans h
    cases hy
  | cons x xs ih =>
    intro ys bs rest h y hy
    obtain ⟨z, tail, hfirst, hrest⟩ := exists_of_run_andThen h
    obtain ⟨zs, last, hrun, haccept⟩ := exists_of_run_andThen hrest
    cases (run_accept (z :: zs) last).symm.trans haccept
    rcases List.mem_cons.1 hy with rfl | hy
    · exact ⟨[], x, xs, bs, tail, rfl, List.suffix_refl _, hfirst, zs, hrun⟩
    · obtain ⟨before, x', after, mid, tail', hsplit, hmid, hy', hafter⟩ := ih hrun y hy
      exact ⟨x :: before, x', after, mid, tail', congrArg (x :: ·) hsplit,
        hmid.trans (suffix_of_run hfirst), hy', hafter⟩

/-- Operands that take no bytes leave all of them. -/
theorem rest_of_silent {f : α → Grammar β} {xs : List α} (h : ∀ x ∈ xs, Spans (f x) fun _ => 0) :
    ∀ {ys : List β} {bs rest : List UInt8}, (each f xs).run bs = .accepted ys rest → rest = bs := by
  induction xs with
  | nil =>
    intro ys bs rest hrun
    cases (run_accept [] bs).symm.trans hrun
    rfl
  | cons x xs ih =>
    intro ys bs rest hrun
    obtain ⟨y, tail, hfirst, hrest⟩ := exists_of_run_andThen hrun
    obtain ⟨zs, last, hxs, haccept⟩ := exists_of_run_andThen hrest
    cases (run_accept (y :: zs) last).symm.trans haccept
    have htail := ((h x List.mem_cons_self).rest_eq hfirst).2
    rw [ih (fun x' hx' => h x' (List.mem_cons_of_mem _ hx')) hxs, htail]
    rfl

end Grammar

namespace InstructionOf

variable {α β : Type}

/-- Operands that are put in are the operands, and the instruction is otherwise the same. -/
theorem of_withOperands? {i : InstructionOf α} {ys : List β} {j : InstructionOf β}
    (h : i.withOperands? ys = some j) : j.operands = ys ∧ j.mnemonic = i.mnemonic := by
  unfold withOperands? at h
  split at h <;> cases h <;> exact ⟨rfl, rfl⟩

/-- Reading an instruction is reading its operands. -/
theorem run_each_of_traverse {f : α → Grammar β} {i : InstructionOf α} {j : InstructionOf β}
    {bs rest : List UInt8} (h : (i.traverse f).run bs = .accepted j rest) :
    (each f i.operands).run bs = .accepted j.operands rest ∧ j.mnemonic = i.mnemonic := by
  rw [traverse_eq] at h
  obtain ⟨ys, mid, hys, hgiven⟩ := exists_of_run_andThen h
  cases hj : i.withOperands? ys with
  | none =>
    rw [hj] at hgiven
    cases (run_reject mid).symm.trans hgiven
  | some k =>
    rw [hj] at hgiven
    cases (run_accept k mid).symm.trans hgiven
    obtain ⟨hoperands, hmnemonic⟩ := of_withOperands? hj
    rw [hoperands]
    exact ⟨hys, hmnemonic⟩

end InstructionOf

/-! ## The instructions of an entry -/

/-- The instruction that a selection stands for, if it has operands to be read. -/
def Selection.form? : Selection → Option (InstructionOf Field)
  | .form i => some i
  | _ => none

/-- The instructions that an entry stands for, as far as they have operands to be read. -/
def Entry.forms : Entry → List (InstructionOf Field)
  | .form i => [i.map .slot]
  | .modRM choose =>
    (List.finRange 8).flatMap fun reg => [true, false].filterMap fun direct => (choose reg direct).form?
  | _ => []

/-- **An instruction with operands is read for one of these.** -/
theorem Entry.exists_form_of_run {p : Prefixes} {e : Entry} {i : Instruction} {bs rest : List UInt8}
    (h : (e.read p).run bs = .accepted i rest) (hi : i.operands ≠ []) :
    ∃ form ∈ e.forms, ∃ m tail, tail <:+ bs ∧ (form.traverse (Field.read p m)).run tail = .accepted i rest := by
  cases e with
  | undefined => cases (run_reject bs).symm.trans h
  | sized word dword =>
    obtain rfl := Yields.eq_of_accept ⟨bs, rest, h⟩
    exact absurd rfl hi
  | idle =>
    obtain rfl := Yields.eq_of_accept ⟨bs, rest, h⟩
    exact absurd rfl hi
  | form form =>
    refine ⟨form.map .slot, List.mem_singleton_self _, ModRM.ofByte 0, bs, List.suffix_refl _, ?_⟩
    rw [InstructionOf.traverse_map]
    exact h
  | modRM choose =>
    cases bs with
    | nil => cases h
    | cons b tail =>
      rw [read, run_byte_cons] at h
      dsimp only at h
      cases hselection : choose (ModRM.ofByte b).reg (ModRM.ofByte b).isRegister with
      | undefined =>
        rw [hselection] at h
        cases (run_reject tail).symm.trans h
      | lea =>
        rw [hselection] at h
        obtain ⟨a, -, hlast⟩ := Yields.of_andThen ⟨tail, rest, h⟩
        obtain rfl := hlast.eq_of_accept
        exact absurd rfl hi
      | address op =>
        rw [hselection] at h
        obtain ⟨a, -, hlast⟩ := Yields.of_andThen ⟨tail, rest, h⟩
        obtain rfl := hlast.eq_of_accept
        exact absurd rfl hi
      | form form =>
        rw [hselection] at h
        refine ⟨form, ?_, ModRM.ofByte b, tail, List.suffix_cons b tail, h⟩
        refine List.mem_flatMap.2 ⟨(ModRM.ofByte b).reg, List.mem_finRange _, List.mem_filterMap.2
          ⟨(ModRM.ofByte b).isRegister, by cases (ModRM.ofByte b).isRegister <;> decide, ?_⟩⟩
        rw [hselection]
        rfl

/-! ## The opcode maps -/

namespace Field

/-- Whether the operand is a number in bytes of its own. -/
def isNumber : Field → Bool
  | .slot (.immediate _ _) | .slot (.branch _) => true
  | _ => false

/-- Whether the operand takes no bytes, whatever the ModRM byte. -/
def isSilent : Field → Bool
  | .reg _ | .slot (.register _ _) | .slot .one => true
  | _ => false

/-- Whether nothing that takes bytes comes after a number. -/
def trailing : List Field → Bool
  | [] => true
  | x :: xs => (!x.isNumber || xs.all isSilent) && trailing xs

theorem isSilent_of_trailing {x : Field} {after : List Field} (hx : x.isNumber = true) :
    ∀ {before : List Field}, trailing (before ++ x :: after) = true → ∀ y ∈ after, y.isSilent = true := by
  intro before
  induction before with
  | nil =>
    intro h
    rw [List.nil_append, trailing, hx, Bool.not_true, Bool.false_or] at h
    exact List.all_eq_true.1 ((Bool.and_eq_true _ _).mp h).1
  | cons y before ih =>
    intro h
    rw [List.cons_append, trailing] at h
    exact ih ((Bool.and_eq_true _ _).mp h).2

theorem spans_of_isSilent {x : Field} (h : x.isSilent = true) (p : Prefixes) (m : ModRM) :
    Spans (x.read p m) fun _ => 0 := by
  unfold isSilent at h
  split at h
  · exact spans_accept _
  · exact spans_accept _
  · exact spans_accept _
  · cases h

end Field

/-- Whether the opcode is that of a branch with an offset of one byte: the short conditional jumps, the loops and
the short jump. -/
def Opcode.isShortBranch : Opcode → Bool
  | .primary b =>
    (decide (0x70 ≤ b) && decide (b < 0x80)) || (decide (0xE0 ≤ b) && decide (b < 0xE4)) || b == 0xEB
  | _ => false

/-- How many bytes the offset of a branch has, under the operand-size override or not. -/
def Opcode.branchSize (override : Bool) (o : Opcode) : Nat :=
  if o.isShortBranch then 1 else if override then 2 else 4

/-- Whether the opcode is that of a shift by one. -/
def Opcode.shiftsByOne (o : Opcode) : Bool :=
  o == .primary 0xD0 || o == .primary 0xD1

/-- Whether the field suits the opcode: the constant one is for the shifts by one, and a code offset has the size
of the branch. -/
def Field.suits (o : Opcode) : Field → Bool
  | .slot .one => o.shiftsByOne
  | .slot (.branch s) => s == if o.isShortBranch then .fixed .byte else .operand
  | _ => true

/-- The instruction that sets up a stack frame, the only one with two numbers. -/
def enterForm : InstructionOf Field :=
  .binary .enter (.slot (.immediate (.fixed .word) .unsigned)) (.slot (.immediate (.fixed .byte) .unsigned))

/-- Whether the fields suit the opcode and nothing that takes bytes comes after a number, except in `enterForm`. -/
def InstructionOf.tidy (o : Opcode) (form : InstructionOf Field) : Bool :=
  (form == enterForm || (form.mnemonic != .binary .enter && Field.trailing form.operands)) &&
    form.operands.all (Field.suits o)

/-- **The opcode maps.**  In every instruction a number comes last. -/
theorem Opcode.forms_tidy : ∀ (o : Opcode), ∀ form ∈ o.entry.forms, form.tidy o = true := by
  refine forall_of_bytes ?_ ?_ ?_ <;> decide +kernel

/-! ## The bytes of a number -/

/-- The constant one, which takes no bytes. -/
def Constant.unit : Constant :=
  ⟨1, .byte, .unsigned⟩

theorem Constant.heldBy_unit : Constant.unit.HeldBy [1] :=
  ⟨rfl, rfl⟩

/-- A number is read from the bytes in front. -/
theorem Grammar.exists_field_of_number {w : Width} {sign : Signedness} {v : Int} {bs rest : List UInt8}
    (h : (number w sign).run bs = .accepted v rest) :
    ∃ field, bs = field ++ rest ∧ field.length = w.size ∧ v = LittleEndian.toInt sign field := by
  rw [run_number] at h
  split at h
  · next hlen =>
    cases h
    exact ⟨bs.take w.size, (List.take_append_drop _ _).symm, List.length_take_of_le hlen, rfl⟩
  · cases h

section

variable {p : Prefixes} {m : ModRM} {x : Field} {bs rest : List UInt8}

/-- A constant is the one that takes no bytes, or is held by the bytes in front. -/
theorem Field.of_run_constant {c : Constant} (h : (x.read p m).run bs = .accepted (.constant c) rest) :
    (x = .slot .one ∧ c = .unit) ∨ x.isNumber = true ∧ ∃ field, bs = field ++ rest ∧ c.HeldBy field := by
  have hkind := x.outline_of_read _ ⟨bs, rest, h⟩
  cases x with
  | reg s => cases hkind
  | rm s =>
    rw [Field.outline] at hkind
    split at hkind <;> cases hkind
  | slot s =>
    cases s with
    | register _ _ | branch _ | absolute _ => cases hkind
    | one =>
      cases (run_accept _ bs).symm.trans h
      exact Or.inl ⟨rfl, rfl⟩
    | immediate s sign =>
      obtain ⟨v, mid, hnumber, hlast⟩ := exists_of_run_andThen h
      cases (run_accept _ mid).symm.trans hlast
      obtain ⟨field, hbs, hlen, hvalue⟩ := exists_field_of_number hnumber
      exact Or.inr ⟨rfl, field, hbs, hlen, hvalue⟩

/-- A code offset is held by the bytes in front. -/
theorem Field.of_run_codeOffset {v : Int} (h : (x.read p m).run bs = .accepted (.codeOffset v) rest) :
    ∃ s field, x = .slot (.branch s) ∧ bs = field ++ rest ∧ field.length = (s.width p).size ∧
      v = LittleEndian.toInt .signed field := by
  have hkind := x.outline_of_read _ ⟨bs, rest, h⟩
  cases x with
  | reg s => cases hkind
  | rm s =>
    rw [Field.outline] at hkind
    split at hkind <;> cases hkind
  | slot s =>
    cases s with
    | register _ _ | one | immediate _ _ | absolute _ => cases hkind
    | branch s =>
      obtain ⟨v, mid, hnumber, hlast⟩ := exists_of_run_andThen h
      cases (run_accept _ mid).symm.trans hlast
      obtain ⟨field, hbs, hlen, hvalue⟩ := exists_field_of_number hnumber
      exact ⟨s, field, rfl, hbs, hlen, hvalue⟩

end

/-! ## The numbers of an instruction -/

section

variable {p : Prefixes} {o : Opcode} {i : Instruction} {bs rest : List UInt8}

/-- Where an operand is read after an opcode, and by which field; a number is read last. -/
theorem Opcode.exists_read_of_mem (hrun : (o.entry.read p).run bs = .accepted i rest) {y : Operand}
    (hy : y ∈ i.operands) :
    ∃ (x : Field) (m : ModRM) (mid tail : List UInt8), mid <:+ bs ∧ (x.read p m).run mid = .accepted y tail ∧
      x.suits o = true ∧ (x.isNumber = true → i.mnemonic ≠ .binary .enter → tail = rest) := by
  obtain ⟨form, hform, m, after, hafter, htraverse⟩ :=
    Entry.exists_form_of_run hrun (List.ne_nil_of_mem hy)
  obtain ⟨heach, hmnemonic⟩ := InstructionOf.run_each_of_traverse htraverse
  obtain ⟨before, x, later, mid, tail, hsplit, hmid, hx, zs, hlater⟩ := exists_run_of_mem_each heach y hy
  obtain ⟨hshape, hsuits⟩ := (Bool.and_eq_true _ _).mp (Opcode.forms_tidy o form hform)
  refine ⟨x, m, mid, tail, hmid.trans hafter, hx, ?_, ?_⟩
  · exact List.all_eq_true.1 hsuits x (hsplit ▸ List.mem_append_right _ List.mem_cons_self)
  · intro hnumber henter
    rw [hmnemonic] at henter
    rcases (Bool.or_eq_true _ _).mp hshape with heq | htidy
    · exact absurd (congrArg InstructionOf.mnemonic (eq_of_beq heq)) henter
    · have htrailing := ((Bool.and_eq_true _ _).mp htidy).2
      rw [hsplit] at htrailing
      have hsilent := Field.isSilent_of_trailing hnumber htrailing
      exact (rest_of_silent (fun z hz => Field.spans_of_isSilent (hsilent z hz) p m) hlater).symm

/-- **Constants.**  A constant is held by some bytes, which are the last that are read, except for the shifts by one
and for `enter`. -/
theorem Opcode.exists_field_of_constant (hrun : (o.entry.read p).run bs = .accepted i rest) {c : Constant}
    (hc : .constant c ∈ i.operands) :
    ∃ field, c.HeldBy field ∧
      (o.shiftsByOne = false → i.mnemonic ≠ .binary .enter → field ++ rest <:+ bs) := by
  obtain ⟨x, m, mid, tail, hmid, hx, hsuits, hlast⟩ := exists_read_of_mem hrun hc
  rcases Field.of_run_constant hx with ⟨rfl, rfl⟩ | ⟨hnumber, field, rfl, hheld⟩
  · refine ⟨[1], Constant.heldBy_unit, ?_⟩
    intro hother
    cases hother.symm.trans hsuits
  · refine ⟨field, hheld, ?_⟩
    intro _ henter
    rw [← hlast hnumber henter]
    exact hmid

/-- **Frames.**  The last bytes that are read for `enter` hold its two constants, one after the other. -/
theorem Opcode.exists_fields_of_enter (hrun : (o.entry.read p).run bs = .accepted i rest)
    (henter : i.mnemonic = .binary .enter) :
    ∃ size level front back, i = .binary .enter (.constant size) (.constant level) ∧ size.width = .word ∧
      level.width = .byte ∧ size.HeldBy front ∧ level.HeldBy back ∧ front ++ (back ++ rest) <:+ bs := by
  have hoperands : i.operands ≠ [] := by
    cases i with
    | binary op x y => exact List.cons_ne_nil _ _
    | _ => cases henter
  obtain ⟨form, hform, m, after, hafter, htraverse⟩ := Entry.exists_form_of_run hrun hoperands
  have hmnemonic := (InstructionOf.run_each_of_traverse htraverse).2
  obtain rfl : form = enterForm := by
    have hshape := ((Bool.and_eq_true _ _).mp (Opcode.forms_tidy o form hform)).1
    rcases (Bool.or_eq_true _ _).mp hshape with heq | htidy
    · exact eq_of_beq heq
    · have hother := ((Bool.and_eq_true _ _).mp htidy).1
      exact absurd (hmnemonic.symm.trans henter) (bne_iff_ne.1 hother)
  obtain ⟨x, mid, hfirst, hsecond⟩ := exists_of_run_andThen htraverse
  obtain ⟨y, last, hlevel, haccept⟩ := exists_of_run_andThen hsecond
  cases (run_accept _ last).symm.trans haccept
  obtain ⟨v, mid', hv, hx⟩ := exists_of_run_andThen hfirst
  cases (run_accept _ mid').symm.trans hx
  obtain ⟨u, last', hu, hy⟩ := exists_of_run_andThen hlevel
  cases (run_accept _ last').symm.trans hy
  obtain ⟨front, rfl, hfront, hvalue⟩ := exists_field_of_number hv
  obtain ⟨back, rfl, hback, hlevelValue⟩ := exists_field_of_number hu
  exact ⟨_, _, front, back, rfl, rfl, rfl, ⟨hfront, hvalue⟩, ⟨hback, hlevelValue⟩, hafter⟩

/-- **Code offsets.**  The offset of a branch is held by the last bytes that are read, as many as the table says. -/
theorem Opcode.exists_field_of_codeOffset (hrun : (o.entry.read p).run bs = .accepted i rest) {v : Int}
    (hv : .codeOffset v ∈ i.operands) :
    ∃ field, field.length = o.branchSize (p.has .operandSize) ∧ v = LittleEndian.toInt .signed field ∧
      field ++ rest <:+ bs := by
  have hother : i.mnemonic ≠ .binary .enter := by
    intro henter
    obtain ⟨size, level, front, back, rfl, -⟩ := exists_fields_of_enter hrun henter
    simp [InstructionOf.operands] at hv
  obtain ⟨x, m, mid, tail, hmid, hx, hsuits, hlast⟩ := exists_read_of_mem hrun hv
  obtain ⟨s, field, rfl, rfl, hlen, hvalue⟩ := Field.of_run_codeOffset hx
  refine ⟨field, ?_, hvalue, ?_⟩
  · obtain rfl := eq_of_beq hsuits
    rw [hlen, Size.size_width, branchSize]
    cases o.isShortBranch <;> rfl
  · rw [← hlast rfl hother]
    exact hmid

end

/-! ## The numbers of an encoding -/

/-- An opcode is followed by the bytes after it. -/
theorem Opcode.exists_of_split? {bs tail : List UInt8} {o : Opcode} (h : split? bs = some (o, tail)) :
    ∃ front, bs = front ++ tail ∧ front.length = o.size := by
  unfold split? at h
  split at h
  · cases h
  · next first rest =>
    split at h
    · split at h
      · cases h
      · next second rest =>
        split at h
        · split at h
          · cases h
          · next third rest =>
            cases h
            exact ⟨[first, second, third], rfl, rfl⟩
        · cases h
          exact ⟨[first, second], rfl, rfl⟩
    · cases h
      exact ⟨[first], rfl, rfl⟩

/-- Decoded bytes with their parts: what stands last after the opcode stands last in the encoding. -/
theorem exists_parts_ending {bs : List UInt8} {a : UInt64} {d : Decoded} (hd : decodeSingle bs a = .ok d) :
    ∃ o tail rest, opcode? bs = some (o, tail) ∧
      (o.entry.read d.prefixes).run tail = .accepted d.instruction rest ∧ d.length ≤ bs.length ∧
      ∀ field, field ++ rest <:+ tail → field.length ≤ d.length ∧ (bs.take d.length).rtake field.length = field := by
  obtain ⟨o, tail, rest, hprefixes, hopcode, hread, hlength⟩ := exists_parts hd
  obtain ⟨front, hfront, hsize⟩ := Opcode.exists_of_split? hopcode
  have hcount : (prefixesOf bs).length = d.prefixes.count := by
    rw [← hprefixes, d.prefixes.length_bytes]
  have htail : tail <:+ bs := by
    refine List.IsSuffix.trans ?_ (List.drop_suffix (prefixesOf bs).length bs)
    exact ⟨front, hfront.symm⟩
  have htotal : d.length + rest.length = bs.length := by
    have hle : (prefixesOf bs).length ≤ bs.length :=
      ((List.take_prefix _ _).trans (List.takeWhile_prefix _)).length_le
    have hdrop := congrArg List.length hfront
    rw [List.length_drop, List.length_append, hsize] at hdrop
    omega
  refine ⟨o, tail, rest, hopcode, hread, by omega, ?_⟩
  intro field hfield
  obtain ⟨before, hbefore⟩ := hfield.trans htail
  have hlen := congrArg List.length hbefore
  simp only [List.length_append] at hlen
  have htake : bs.take d.length = before ++ field := by
    rw [← hbefore, ← List.append_assoc]
    exact List.take_left' (by rw [List.length_append]; omega)
  refine ⟨by omega, ?_⟩
  rw [htake, List.rtake]
  exact List.drop_left' (by rw [List.length_append]; omega)

/-- **Numbers are faithful.**  Let `e` be the encoding of a decoded instruction.  The value of a constant is what its
bits stand for, in two's complement or as a plain number, and lies in the range of its width.  The bits are the last
bytes of `e`, least significant first and as many as the constant is wide, unless the instruction is a shift by one;
for `enter` the last three bytes are its size and its level.  A code offset is what the last bytes of `e` hold in two's
complement: one byte for the short branches, else two under the operand-size override and four without it. -/
theorem decodeSingle_numbers {bs : List UInt8} {a : UInt64} {d : Decoded} (hd : decodeSingle bs a = .ok d) :
    let e := bs.take d.length
    d.length ≤ bs.length ∧
    (∀ c, .constant c ∈ d.instruction.operands → c.value = c.reading ∧
      (c.signedness = .signed → -2 ^ (c.width.bits - 1) ≤ c.value ∧ c.value < 2 ^ (c.width.bits - 1)) ∧
      (c.signedness = .unsigned → 0 ≤ c.value ∧ c.value < 2 ^ c.width.bits)) ∧
    (d.instruction.mnemonic = .binary .enter → ∃ size level,
      d.instruction = .binary .enter (.constant size) (.constant level) ∧ 3 ≤ d.length ∧
      LittleEndian.toNat ((e.rtake 3).take 2) = size.bits ∧ LittleEndian.toNat ((e.rtake 3).drop 2) = level.bits) ∧
    ∃ o tail, opcode? bs = some (o, tail) ∧
      (∀ c, .constant c ∈ d.instruction.operands → o ≠ .primary 0xD0 → o ≠ .primary 0xD1 →
        d.instruction.mnemonic ≠ .binary .enter →
        c.width.size ≤ d.length ∧ LittleEndian.toNat (e.rtake c.width.size) = c.bits) ∧
      ∀ v, .codeOffset v ∈ d.instruction.operands →
        let n := o.branchSize (d.prefixes.bytes.contains 0x66)
        n ≤ d.length ∧ v = twosComplement (8 * n) (LittleEndian.toNat (e.rtake n)) := by
  intro e
  obtain ⟨o, tail, rest, hopcode, hread, hle, hending⟩ := exists_parts_ending hd
  refine ⟨hle, ?_, ?_, o, tail, hopcode, ?_, ?_⟩
  · intro c hc
    obtain ⟨field, hheld, -⟩ := Opcode.exists_field_of_constant hread hc
    exact ⟨hheld.value_eq, hheld.value_bounds⟩
  · intro henter
    obtain ⟨size, level, front, back, hi, hword, hbyte, hfront, hback, hfield⟩ :=
      Opcode.exists_fields_of_enter hread henter
    have htwo : front.length = 2 := by rw [hfront.length, hword]; rfl
    have hone : back.length = 1 := by rw [hback.length, hbyte]; rfl
    rw [← List.append_assoc] at hfield
    obtain ⟨hlen, hrtake⟩ := hending _ hfield
    rw [List.length_append, htwo, hone] at hlen hrtake
    refine ⟨size, level, hi, hlen, ?_, ?_⟩
    · rw [hrtake, List.take_left' htwo, hfront.bits_eq]
    · rw [hrtake, List.drop_left' htwo, hback.bits_eq]
  · intro c hc hfirst hsecond henter
    obtain ⟨field, hheld, hlast⟩ := Opcode.exists_field_of_constant hread hc
    have hother : o.shiftsByOne = false := by
      simp [Opcode.shiftsByOne, hfirst, hsecond]
    obtain ⟨hlen, hrtake⟩ := hending field (hlast hother henter)
    rw [hheld.length] at hlen hrtake
    exact ⟨hlen, by rw [hrtake, hheld.bits_eq]⟩
  · intro v hv n
    obtain ⟨field, hlength, hvalue, hlast⟩ := Opcode.exists_field_of_codeOffset hread hv
    rw [← d.prefixes.contains_operandSize] at hlength
    obtain ⟨hlen, hrtake⟩ := hending field hlast
    rw [hvalue, LittleEndian.toInt_signed]
    rw [hlength] at hlen hrtake ⊢
    exact ⟨hlen, by rw [hrtake]⟩

/-- The law at work: the least word after a ModRM byte, a SIB byte and a displacement, and before a byte that belongs
to no encoding; a frame; and a jump backwards under the operand-size override. -/
theorem decodeSingle_numbers_corners :
    (∃ d c, decodeSingle [0x66, 0x81, 0x84, 0x24, 0, 0, 0, 0, 0x00, 0x80, 0x90] 0 = .ok d ∧
      .constant c ∈ d.instruction.operands ∧ LittleEndian.toNat [0x00, 0x80] = c.bits ∧ c.value = c.reading ∧
      c.value = -2 ^ 15) ∧
    (∃ d size level, decodeSingle [0xC8, 0x34, 0x12, 0x05] 0 = .ok d ∧
      d.instruction = .binary .enter (.constant size) (.constant level) ∧
      LittleEndian.toNat [0x34, 0x12] = size.bits ∧ LittleEndian.toNat [0x05] = level.bits) ∧
    ∃ d v, decodeSingle [0x66, 0xE9, 0xFE, 0xFF] 0 = .ok d ∧ .codeOffset v ∈ d.instruction.operands ∧
      v = twosComplement 16 (LittleEndian.toNat [0xFE, 0xFF]) := by
  refine ⟨?_, ?_, ?_⟩
  · have hrun : ∃ p x v, instruction.run [0x66, 0x81, 0x84, 0x24, 0, 0, 0, 0, 0x00, 0x80, 0x90] =
        .accepted (p, .binary .add x (.constant ⟨v, .word, .signed⟩)) [0x90] := ⟨_, _, _, rfl⟩
    obtain ⟨p, x, v, hrun⟩ := hrun
    have hd := decodeSingle_of_run hrun 0
    have hc : Operand.constant ⟨v, .word, .signed⟩ ∈ [x, .constant ⟨v, .word, .signed⟩] := by simp
    obtain ⟨-, hvalue, -, o, tail, hopcode, hlast, -⟩ := decodeSingle_numbers hd
    cases hopcode
    have hbits : LittleEndian.toNat [0x00, 0x80] = (Constant.mk v .word .signed).bits :=
      (hlast _ hc (by decide) (by decide) (fun h => by cases h)).2
    have hreading := (hvalue _ hc).1
    refine ⟨_, _, hd, hc, hbits, hreading, ?_⟩
    rw [hreading, Constant.reading, ← hbits]
    show twosComplement 16 (LittleEndian.toNat [0x00, 0x80]) = -2 ^ 15
    decide
  · have hrun : ∃ p x y, instruction.run [0xC8, 0x34, 0x12, 0x05] = .accepted (p, .binary .enter x y) [] :=
      ⟨_, _, _, rfl⟩
    obtain ⟨p, x, y, hrun⟩ := hrun
    have hd := decodeSingle_of_run hrun 0
    obtain ⟨-, -, henter, -⟩ := decodeSingle_numbers hd
    obtain ⟨size, level, hi, -, hsize, hlevel⟩ := henter rfl
    exact ⟨_, size, level, hd, hi, hsize, hlevel⟩
  · have hrun : ∃ p v, p.bytes.contains 0x66 = true ∧
        instruction.run [0x66, 0xE9, 0xFE, 0xFF] = .accepted (p, .unary .jmp (.codeOffset v)) [] := ⟨_, _, rfl, rfl⟩
    obtain ⟨p, v, hoverride, hrun⟩ := hrun
    have hd := decodeSingle_of_run hrun 0
    have hv : Operand.codeOffset v ∈ [Operand.codeOffset v] := List.mem_singleton_self _
    obtain ⟨-, -, -, o, tail, hopcode, -, hbranch⟩ := decodeSingle_numbers hd
    cases hopcode
    obtain ⟨-, hvalue⟩ := hbranch v hv
    rw [hoverride] at hvalue
    exact ⟨_, v, hd, hv, hvalue⟩

end CodeAtlas
