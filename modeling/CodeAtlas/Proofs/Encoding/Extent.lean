import CodeAtlas.Proofs.Encoding.Operands
import CodeAtlas.Proofs.Machine.Flags

/-!
# How many bytes follow an opcode

A grammar takes bytes one at a time and never counts them.  For the operands of an instruction the count is
known beforehand: it is told by the opcode, the operand size in force, the ModRM byte and the SIB byte.

* `Grammar.Spans` — the number of bytes that a grammar takes, as a function of the bytes; it adds up along
  `andThen` if what comes second takes a fixed number;
* `Layout` — the bytes of some operands: those of an address, if there is one, and so many after them;
* `ModRM.addressSize`, `Opcode.hasModRM`, `Opcode.immediateSize` — the table of lengths;
* `Opcode.entry_laidOut` — every entry of the opcode maps is laid out as the table says;
* `Opcode.rest_eq_drop` — so what is read after an opcode has the length of the table.
-/

namespace CodeAtlas

/-! ## Counting the bytes of a grammar -/

namespace Grammar

variable {α β : Type}

/-- Whatever the bytes, the grammar takes the first `size` of them, or asks for more where there are fewer. -/
structure Spans (g : Grammar α) (size : List UInt8 → Nat) : Prop where
  accepts : ∀ bs, size bs ≤ bs.length → ∃ a, g.run bs = .accepted a (bs.drop (size bs))
  asks : ∀ bs, bs.length < size bs → g.run bs = .incomplete

theorem spans_accept (a : α) : Spans (accept a) fun _ => 0 where
  accepts bs _ := ⟨a, run_accept a bs⟩
  asks _ h := absurd h (Nat.not_lt_zero _)

theorem spans_number (w : Width) (s : Signedness) : Spans (number w s) fun _ => w.size where
  accepts bs h := ⟨_, by rw [run_number, if_pos h]⟩
  asks bs h := by rw [run_number, if_neg (Nat.not_le_of_lt h)]

/-- What is left after a grammar of known size. -/
theorem Spans.rest_eq {g : Grammar α} {size : List UInt8 → Nat} (h : Spans g size) {a : α}
    {bs rest : List UInt8} (hrun : g.run bs = .accepted a rest) :
    size bs ≤ bs.length ∧ rest = bs.drop (size bs) := by
  by_cases hle : size bs ≤ bs.length
  · obtain ⟨b, hb⟩ := h.accepts bs hle
    rw [hrun] at hb
    cases hb
    exact ⟨hle, rfl⟩
  · rw [h.asks bs (Nat.lt_of_not_le hle)] at hrun
    cases hrun

/-- Sizes add up if what comes second takes a fixed number of bytes. -/
theorem Spans.andThen {g : Grammar α} {f : α → Grammar β} {size : List UInt8 → Nat} {n : Nat}
    (hg : Spans g size) (hf : ∀ a, g.Yields a → Spans (f a) fun _ => n) :
    Spans (g.andThen f) fun bs => size bs + n where
  accepts bs hle := by
    obtain ⟨a, ha⟩ := hg.accepts bs (by omega)
    obtain ⟨b, hb⟩ := (hf a ⟨bs, _, ha⟩).accepts (bs.drop (size bs)) (by rw [List.length_drop]; omega)
    refine ⟨b, ?_⟩
    rw [run_andThen, ha]
    show (f a).run (bs.drop (size bs)) = _
    rw [hb, List.drop_drop]
  asks bs hlt := by
    rw [run_andThen]
    by_cases hle : size bs ≤ bs.length
    · obtain ⟨a, ha⟩ := hg.accepts bs hle
      rw [ha]
      exact (hf a ⟨bs, _, ha⟩).asks _ (by rw [List.length_drop]; omega)
    · rw [hg.asks bs (Nat.lt_of_not_le hle)]
      rfl

/-- What comes after a grammar that takes nothing sees all the bytes. -/
theorem Spans.andThen_of_silent {g : Grammar α} {f : α → Grammar β} {size : List UInt8 → Nat}
    (hg : Spans g fun _ => 0) (hf : ∀ a, Spans (f a) size) : Spans (g.andThen f) size where
  accepts bs hle := by
    obtain ⟨a, ha⟩ := hg.accepts bs (Nat.zero_le _)
    rw [run_andThen, ha]
    exact (hf a).accepts bs hle
  asks bs hlt := by
    obtain ⟨a, ha⟩ := hg.accepts bs (Nat.zero_le _)
    rw [run_andThen, ha]
    exact (hf a).asks bs hlt

/-- What is made of the value at the end takes no bytes. -/
theorem Spans.map {g : Grammar α} {size : List UInt8 → Nat} (hg : Spans g size) (c : α → β) :
    Spans (g.andThen fun a => accept (c a)) size :=
  hg.andThen fun a _ => spans_accept (c a)

/-- A byte that says how many bytes follow it. -/
theorem spans_byte {next : UInt8 → Grammar α} {size : UInt8 → Nat}
    (h : ∀ b, Spans (next b) fun _ => size b) : Spans (byte next) fun bs => 1 + size (bs.headD 0) where
  accepts bs hle := by
    cases bs with
    | nil => exact absurd hle (by simp)
    | cons b bs =>
      obtain ⟨a, ha⟩ := (h b).accepts bs (by simpa [Nat.add_comm] using hle)
      refine ⟨a, ?_⟩
      rw [run_byte_cons, ha, List.headD_cons, Nat.add_comm, List.drop_succ_cons]
  asks bs hlt := by
    cases bs with
    | nil => rfl
    | cons b bs => exact (h b).asks bs (by simpa [Nat.add_comm] using hlt)

end Grammar

open Grammar

/-! ## Layouts -/

/-- The bytes of some operands: those of an address, if there is one, and so many after them. -/
structure Layout where
  addressed : Bool
  count : Nat
deriving DecidableEq

namespace Layout

/-- No bytes. -/
def silent : Layout :=
  ⟨false, 0⟩

/-- The number of bytes, if an address takes `address` of them. -/
def size (address : List UInt8 → Nat) (l : Layout) (bs : List UInt8) : Nat :=
  (if l.addressed then address bs else 0) + l.count

/-- Without an address the number of bytes is fixed. -/
theorem size_of_not_addressed {l : Layout} (h : l.addressed = false) (address : List UInt8 → Nat) :
    l.size address = fun _ => l.count := by
  funext bs
  rw [size, h]
  exact Nat.zero_add _

/-- First the one and then the other.  An address is told by the bytes that it begins with, so nothing but
what takes no bytes may stand before it. -/
def join? (first second : Layout) : Option Layout :=
  if first = silent then some second
  else if second.addressed then none
  else some ⟨first.addressed, first.count + second.count⟩

/-- Some layouts one after the other. -/
def all? : List Layout → Option Layout
  | [] => some silent
  | l :: ls => (all? ls).bind l.join?

theorem spans_join {α β : Type} {address : List UInt8 → Nat} {first second joined : Layout}
    {g : Grammar α} {f : α → Grammar β} (h : first.join? second = some joined)
    (hg : Spans g (first.size address)) (hf : ∀ a, Spans (f a) (second.size address)) :
    Spans (g.andThen f) (joined.size address) := by
  unfold join? at h
  split at h
  · next hsilent =>
    cases h
    subst hsilent
    exact hg.andThen_of_silent hf
  · split at h
    · cases h
    · next hplain =>
      cases h
      -- what comes second has no address, so it takes a fixed number of bytes
      have hfixed : second.size address = fun _ => second.count :=
        size_of_not_addressed (Bool.eq_false_iff.2 hplain) address
      have hsum := hg.andThen fun a _ => hfixed ▸ hf a
      have hsize : (fun bs => first.size address bs + second.count) =
          size address ⟨first.addressed, first.count + second.count⟩ := by
        funext bs
        exact Nat.add_assoc _ _ _
      rwa [hsize] at hsum

/-- Operands of known layouts, one after the other. -/
theorem spans_each {α β : Type} {address : List UInt8 → Nat} {f : α → Grammar β} {layout : α → Layout}
    (hf : ∀ x, Spans (f x) ((layout x).size address)) :
    ∀ {xs : List α} {l : Layout}, all? (xs.map layout) = some l → Spans (each f xs) (l.size address) := by
  intro xs
  induction xs with
  | nil =>
    intro l h
    cases h
    exact spans_accept []
  | cons x xs ih =>
    intro l h
    obtain ⟨tail, htail, hjoin⟩ := Option.bind_eq_some_iff.1 h
    exact spans_join hjoin (hf x) fun y => (ih htail).map fun ys => y :: ys

end Layout

/-- **Instructions.**  Operands of known layouts make an instruction of known layout. -/
theorem InstructionOf.traverse_spans {α β : Type} {address : List UInt8 → Nat} {f : α → Grammar β}
    {layout : α → Layout} (hf : ∀ x, Spans (f x) ((layout x).size address)) {i : InstructionOf α} {l : Layout}
    (h : Layout.all? (i.operands.map layout) = some l) : Spans (i.traverse f) (l.size address) := by
  rw [traverse_eq]
  refine Spans.andThen (n := 0) (Layout.spans_each hf h) fun ys hys => ?_
  obtain ⟨j, hj⟩ := i.exists_withOperands? hys.of_each.length_eq
  rw [hj]
  exact spans_accept j

/-! ## Addresses -/

/-- How many bytes of address follow a ModRM byte, by the base that a SIB byte names where there is one. -/
def ModRM.addressSize (m : ModRM) (base : Fin 8) : Nat :=
  match m.mode with
  | 0 => if m.rm = 5 then 4 else if m.rm = 4 then (if base = 5 then 5 else 1) else 0
  | 1 => if m.rm = 4 then 2 else 1
  | 2 => if m.rm = 4 then 5 else 4
  | 3 => 0

/-- How many bytes of address follow a ModRM byte, by the bytes after it. -/
def ModRM.addressExtent (m : ModRM) (bs : List UInt8) : Nat :=
  m.addressSize (SIB.ofByte (bs.headD 0)).base

/-- How many bytes a displacement has. -/
def ModRM.displacementSize (mode : Fin 4) (baseless : Bool) : Nat :=
  match mode, baseless with
  | 1, _ => 1
  | 2, _ => 4
  | _, true => 4
  | _, false => 0

theorem ModRM.displacement_spans (mode : Fin 4) (baseless : Bool) :
    Spans (ModRM.displacement mode baseless) fun _ => displacementSize mode baseless := by
  have hsome : ∀ w, Spans (some <$> Grammar.number w .signed : Grammar (Option Int)) fun _ => w.size :=
    fun w => (spans_number w .signed).map some
  match mode, baseless with
  | 0, true => exact hsome .dword
  | 0, false => exact spans_accept none
  | 1, _ => exact hsome .byte
  | 2, _ => exact hsome .dword
  | 3, true => exact hsome .dword
  | 3, false => exact spans_accept none

theorem ModRM.addressSize_of_hasSIB {m : ModRM} (h : m.hasSIB = true) (s : SIB) :
    m.addressSize s.base = 1 + displacementSize m.mode (!s.hasBase m.mode) := by
  have key : ∀ mode rm base, hasSIB ⟨mode, 0, rm⟩ = true →
      addressSize ⟨mode, 0, rm⟩ base = 1 + displacementSize mode (!SIB.hasBase ⟨0, 0, base⟩ mode) := by
    decide
  exact key m.mode m.rm s.base h

theorem ModRM.addressSize_of_not_hasSIB {m : ModRM} (hm : m.isRegister = false) (h : m.hasSIB = false)
    (base : Fin 8) : m.addressSize base = displacementSize m.mode m.isAbsolute := by
  have key : ∀ mode rm base, isRegister ⟨mode, 0, rm⟩ = false → hasSIB ⟨mode, 0, rm⟩ = false →
      addressSize ⟨mode, 0, rm⟩ base = displacementSize mode (isAbsolute ⟨mode, 0, rm⟩) := by
    decide
  exact key m.mode m.rm base hm h

theorem ModRM.addressSize_of_isRegister {m : ModRM} (h : m.isRegister = true) (base : Fin 8) :
    m.addressSize base = 0 := by
  have hmode : m.mode = 3 := eq_of_beq h
  rw [addressSize, hmode]

/-- A ModRM byte that names no register describes an address of the size in the table. -/
theorem ModRM.address_spans {m : ModRM} (h : m.isRegister = false) : Spans m.address m.addressExtent := by
  have hnone : ∀ (b : Bool) (r : Register), (if b = true then some r else none).isNone = !b := by
    intro b r
    cases b <;> rfl
  unfold ModRM.address
  rw [h, if_neg Bool.false_ne_true]
  split
  · next hsib =>
    have hsize : m.addressExtent = fun bs =>
        1 + displacementSize m.mode (!(SIB.ofByte (bs.headD 0)).hasBase m.mode) := by
      funext bs
      exact addressSize_of_hasSIB hsib _
    rw [hsize]
    refine @spans_byte _ _ (fun b => displacementSize m.mode (!(SIB.ofByte b).hasBase m.mode)) fun b => ?_
    rw [← hnone _ ⟨.dword, (SIB.ofByte b).base⟩]
    exact (displacement_spans m.mode _).map _
  · next hsib =>
    have habsolute : ∀ r : Register, (if m.isAbsolute = true then none else some r).isNone = m.isAbsolute := by
      intro r
      cases m.isAbsolute <;> rfl
    have hsize : m.addressExtent = fun _ => displacementSize m.mode
        (if m.isAbsolute = true then none else some (Register.mk .dword m.rm)).isNone := by
      funext bs
      rw [habsolute]
      exact addressSize_of_not_hasSIB h (Bool.eq_false_iff.2 hsib) _
    rw [hsize]
    exact (displacement_spans m.mode _).map _

/-! ## Operands -/

/-- How many bytes a number of a size has, under the operand-size override or not. -/
def Size.bytes (override : Bool) : Size → Nat
  | .fixed w => w.size
  | .operand => if override then 2 else 4

theorem Size.size_width (p : Prefixes) (s : Size) : (s.width p).size = s.bytes (p.has .operandSize) := by
  cases s with
  | fixed w => rfl
  | operand =>
    rw [width, bytes, p.isFlagged_eq_has]
    split <;> rfl

/-- How many bytes the operand of a slot takes. -/
def Slot.bytes (override : Bool) : Slot → Nat
  | .register _ _ => 0
  | .one => 0
  | .immediate s _ => s.bytes override
  | .branch s => s.bytes override
  | .absolute _ => 4

theorem Slot.read_spans (p : Prefixes) (s : Slot) :
    Spans (s.read p) fun _ => s.bytes (p.has .operandSize) := by
  cases s with
  | register n s => exact spans_accept _
  | one => exact spans_accept _
  | immediate s sign =>
    rw [bytes, ← s.size_width p]
    exact (spans_number _ _).map _
  | branch s =>
    rw [bytes, ← s.size_width p]
    exact (spans_number _ _).map _
  | absolute s => exact (spans_number .dword .signed).map _

/-- The bytes of a slot are never those of an address. -/
def Slot.layout (override : Bool) (s : Slot) : Layout :=
  ⟨false, s.bytes override⟩

theorem Slot.read_spans_layout (p : Prefixes) (s : Slot) (address : List UInt8 → Nat) :
    Spans (s.read p) ((s.layout (p.has .operandSize)).size address) := by
  rw [Layout.size_of_not_addressed rfl]
  exact s.read_spans p

/-- Without a ModRM byte an instruction takes a fixed number of bytes. -/
theorem Slot.traverse_spans {p : Prefixes} {i : InstructionOf Slot} {n : Nat}
    (h : Layout.all? (i.operands.map (Slot.layout (p.has .operandSize))) = some ⟨false, n⟩) :
    Spans (i.traverse (Slot.read p)) fun _ => n := by
  have hspans := InstructionOf.traverse_spans (fun s => Slot.read_spans_layout p s fun _ => 0) h
  rwa [Layout.size_of_not_addressed rfl] at hspans

/-- The bytes of a field after a ModRM byte. -/
def Field.layout (override : Bool) : Field → Layout
  | .reg _ => .silent
  | .rm _ => ⟨true, 0⟩
  | .slot s => s.layout override

theorem Field.read_spans (p : Prefixes) (m : ModRM) (f : Field) :
    Spans (f.read p m) ((f.layout (p.has .operandSize)).size m.addressExtent) := by
  cases f with
  | reg s => exact spans_accept _
  | rm s =>
    show Spans (if m.isRegister = true then _ else _) m.addressExtent
    split
    · next hm =>
      have hsize : m.addressExtent = fun _ => 0 := by
        funext bs
        exact ModRM.addressSize_of_isRegister hm _
      rw [hsize]
      exact spans_accept _
    · next hm => exact (ModRM.address_spans (Bool.eq_false_iff.2 hm)).map _
  | slot s => exact s.read_spans_layout p m.addressExtent

/-! ## What follows an opcode -/

/-- The bytes that follow a ModRM byte which an opcode has a use for. -/
def Selection.layout? (override : Bool) : Selection → Option Layout
  | .undefined => none
  | .form i => Layout.all? (i.operands.map (Field.layout override))
  | .lea => some ⟨true, 0⟩
  | .address _ => some ⟨true, 0⟩

theorem Selection.read_spans {p : Prefixes} {m : ModRM} {s : Selection} {l : Layout}
    (hadmits : s.admits m.isRegister = true) (hl : s.layout? (p.has .operandSize) = some l) :
    Spans (s.read p m) (l.size m.addressExtent) := by
  cases s with
  | undefined => cases hl
  | form i => exact InstructionOf.traverse_spans (Field.read_spans p m) hl
  | lea =>
    cases hl
    exact (ModRM.address_spans (by simpa [admits] using hadmits)).map _
  | address op =>
    cases hl
    exact (ModRM.address_spans (by simpa [admits] using hadmits)).map _

/-- Whether an opcode is followed by a ModRM byte. -/
def Opcode.hasModRM : Opcode → Bool
  | .primary b =>
    (decide (b < 0x40) && decide ((bottomField b).val < 4)) ||
    (decide (0x84 ≤ b) && decide (b < 0x8C)) ||
    (decide (0xD0 ≤ b) && decide (b < 0xD4)) ||
    [0x69, 0x6B, 0x80, 0x81, 0x83, 0x8D, 0x8F, 0xC0, 0xC1, 0xC6, 0xC7, 0xF6, 0xF7, 0xFE, 0xFF].contains b
  | .secondary b =>
    (decide (0x40 ≤ b) && decide (b < 0x50)) ||
    (decide (0x90 ≤ b) && decide (b < 0xA0)) ||
    (decide (0xBA ≤ b) && decide (b < 0xC2)) ||
    [0x18, 0x1F, 0xA3, 0xA4, 0xA5, 0xAB, 0xAC, 0xAD, 0xAE, 0xAF, 0xB0, 0xB1, 0xB3, 0xB6, 0xB7].contains b
  | .tertiary _ => false

/-- Whether a single byte of an immediate or a code offset ends what follows an opcode.  One opcode has it for
a single value of the `reg` field of its ModRM byte. -/
def Opcode.hasByteField (reg : Fin 8) : Opcode → Bool
  | .primary b =>
    (decide (b < 0x40) && (bottomField b).val == 4) ||
    (decide (0x70 ≤ b) && decide (b < 0x80)) ||
    (decide (0xB0 ≤ b) && decide (b < 0xB8)) ||
    (decide (0xE0 ≤ b) && decide (b < 0xE4)) ||
    [0x6A, 0x6B, 0x80, 0x83, 0xA8, 0xC0, 0xC1, 0xC6, 0xCD, 0xEB].contains b ||
    (b == 0xF6 && reg.val == 0)
  | .secondary b => [0xA4, 0xAC, 0xBA].contains b
  | .tertiary _ => false

/-- How many bytes of immediates, code offsets and absolute addresses end what follows an opcode, by the `reg`
field of the ModRM byte if there is one. -/
def Opcode.immediateSize (override : Bool) (reg : Fin 8) (o : Opcode) : Nat :=
  if o.hasSizedField reg then (if override then 2 else 4)
  else if o.hasByteField reg then 1
  else
    match o with
    | .primary 0xA0 | .primary 0xA1 | .primary 0xA2 | .primary 0xA3 => 4
    | .primary 0xC2 => 2
    | .primary 0xC8 => 3
    | _ => 0

/-- Without a ModRM byte there is no `reg` field to ask for. -/
theorem Opcode.immediateSize_of_not_hasModRM {o : Opcode} (h : o.hasModRM = false) (override : Bool)
    (reg : Fin 8) : o.immediateSize override reg = o.immediateSize override 0 := by
  cases o with
  | primary b =>
    have hother : ∀ c : UInt8, (primary c).hasModRM = true → (b == c) = false := by
      intro c hc
      rw [beq_eq_false_iff_ne]
      intro heq
      rw [← heq, h] at hc
      cases hc
    -- only these two opcodes ask for the `reg` field, and they have a ModRM byte
    simp only [immediateSize, hasSizedField, hasByteField, hother 0xF6 rfl, hother 0xF7 rfl, Bool.false_and]
  | secondary b => rfl
  | tertiary b => rfl

/-- How many bytes a ModRM byte and its address take, by the bytes from it on. -/
def ModRM.extent (bs : List UInt8) : Nat :=
  1 + (ofByte (bs.headD 0)).addressExtent bs.tail

/-- How many bytes follow an opcode, by the bytes after it. -/
def Opcode.extent (override : Bool) (bs : List UInt8) (o : Opcode) : Nat :=
  (if o.hasModRM then ModRM.extent bs else 0) + o.immediateSize override (ModRM.regOf bs)

/-- Whether the bytes that follow a ModRM byte are those of its address, where it has one, and `count` more. -/
def Selection.laidOut (override : Bool) (count : Nat) (direct : Bool) (s : Selection) : Bool :=
  !s.admits direct ||
    match s.layout? override with
    | some l => l.count == count && (l.addressed || direct)
    | none => false

/-- Whether what follows an opcode is laid out as the table says. -/
def Entry.laidOut (override : Bool) (o : Opcode) : Entry → Bool
  | .undefined => true
  | .form i =>
    !o.hasModRM && Layout.all? (i.operands.map (Slot.layout override)) == some ⟨false, o.immediateSize override 0⟩
  | .sized _ _ => !o.hasModRM && o.immediateSize override 0 == 0
  | .idle => !o.hasModRM && o.immediateSize override 0 == 0
  | .modRM choose =>
    o.hasModRM && (List.finRange 8).all fun reg => [true, false].all fun direct =>
      (choose reg direct).laidOut override (o.immediateSize override reg) direct

/-- What holds of the opcodes of every byte holds of every opcode. -/
theorem Opcode.forall_of_bytes {P : Opcode → Prop} (hprimary : ∀ n : Fin 256, P (primary (UInt8.ofFin n)))
    (hsecondary : ∀ n : Fin 256, P (secondary (UInt8.ofFin n)))
    (htertiary : ∀ n : Fin 256, P (tertiary (UInt8.ofFin n))) : ∀ o, P o := by
  intro o
  cases o with
  | primary b => exact hprimary b.toFin
  | secondary b => exact hsecondary b.toFin
  | tertiary b => exact htertiary b.toFin

/-- **The opcode maps.**  What follows an opcode is laid out as the table says. -/
theorem Opcode.entry_laidOut : ∀ (o : Opcode) (override : Bool), o.entry.laidOut override o = true := by
  refine forall_of_bytes ?_ ?_ ?_ <;> decide +kernel

theorem Selection.rest_eq_drop {p : Prefixes} {m : ModRM} {s : Selection} {count : Nat}
    (h : s.laidOut (p.has .operandSize) count m.isRegister = true) {i : Instruction} {bs rest : List UInt8}
    (hrun : (s.read p m).run bs = .accepted i rest) :
    m.addressExtent bs + count ≤ bs.length ∧ rest = bs.drop (m.addressExtent bs + count) := by
  cases hadmits : s.admits m.isRegister with
  | false =>
    rw [read_eq_reject hadmits, run_reject] at hrun
    cases hrun
  | true =>
    rw [laidOut, hadmits, Bool.not_true, Bool.false_or] at h
    split at h
    · next l hl =>
      obtain ⟨hcount, haddress⟩ := (Bool.and_eq_true _ _).mp h
      have hsize : l.size m.addressExtent bs = m.addressExtent bs + count := by
        rw [Layout.size, eq_of_beq hcount]
        rcases (Bool.or_eq_true _ _).mp haddress with hyes | hdirect
        · rw [if_pos hyes]
        · have hzero : m.addressExtent bs = 0 := ModRM.addressSize_of_isRegister hdirect _
          rw [hzero, ite_self]
      rw [← hsize]
      exact (read_spans hadmits hl).rest_eq hrun
    · cases h

/-- Where there is no ModRM byte, what follows an opcode has a fixed length. -/
theorem Opcode.extent_of_not_hasModRM {o : Opcode} (h : o.hasModRM = false) (override : Bool) (bs : List UInt8) :
    o.extent override bs = o.immediateSize override 0 := by
  rw [extent, h, immediateSize_of_not_hasModRM h]
  exact Nat.zero_add _

/-- **What is read after an opcode has the length of the table.** -/
theorem Opcode.rest_eq_drop {p : Prefixes} {o : Opcode} {i : Instruction} {bs rest : List UInt8}
    (hrun : (o.entry.read p).run bs = .accepted i rest) :
    o.extent (p.has .operandSize) bs ≤ bs.length ∧ rest = bs.drop (o.extent (p.has .operandSize) bs) := by
  have hlaid := Opcode.entry_laidOut o (p.has .operandSize)
  generalize o.entry = e at hrun hlaid
  cases e with
  | undefined => cases (run_reject bs).symm.trans hrun
  | form form =>
    obtain ⟨hno, hlayout⟩ := (Bool.and_eq_true _ _).mp hlaid
    rw [extent_of_not_hasModRM (Bool.not_eq_true' _ ▸ hno)]
    exact (Slot.traverse_spans (eq_of_beq hlayout)).rest_eq hrun
  | sized word dword =>
    obtain ⟨hno, hzero⟩ := (Bool.and_eq_true _ _).mp hlaid
    rw [extent_of_not_hasModRM (Bool.not_eq_true' _ ▸ hno), eq_of_beq hzero]
    exact (spans_accept _).rest_eq hrun
  | idle =>
    obtain ⟨hno, hzero⟩ := (Bool.and_eq_true _ _).mp hlaid
    rw [extent_of_not_hasModRM (Bool.not_eq_true' _ ▸ hno), eq_of_beq hzero]
    exact (spans_accept _).rest_eq hrun
  | modRM choose =>
    obtain ⟨hyes, hall⟩ := (Bool.and_eq_true _ _).mp hlaid
    cases bs with
    | nil => cases hrun
    | cons b tail =>
      have hselection := List.all_eq_true.1 hall (ModRM.ofByte b).reg (List.mem_finRange _)
      have hdirect := List.all_eq_true.1 hselection (ModRM.ofByte b).isRegister
        (by cases (ModRM.ofByte b).isRegister <;> decide)
      obtain ⟨hle, hrest⟩ := Selection.rest_eq_drop hdirect hrun
      have hsize : o.extent (p.has .operandSize) (b :: tail) = (ModRM.ofByte b).addressExtent tail +
          o.immediateSize (p.has .operandSize) (ModRM.ofByte b).reg + 1 := by
        rw [extent, if_pos hyes]
        show 1 + (ModRM.ofByte b).addressExtent tail + _ = _
        rw [Nat.add_comm 1, Nat.add_right_comm]
        rfl
      rw [hsize]
      exact ⟨Nat.succ_le_succ hle, hrest⟩

end CodeAtlas
