import CodeAtlas.Proofs.Encoding.Prompt
import CodeAtlas.Proofs.Machine.Flags
import CodeAtlas.Proofs.Machine.Narrow

/-!
# Reading under the operand-size override

The same bytes after an opcode are read twice, without the operand-size override and with it.  Where the first
reading accepts, so does the second, with the word form of the instruction.  It takes the same bytes, save that
an immediate of the operand size or a near-branch offset is two bytes shorter; such a field always comes last,
so nothing after it is read at another place.

* `Grammar.Tracks` — one grammar accepts whatever another does and leaves some bytes more; the relation passes
  through `andThen`;
* `Slot.surplus?`, `Field.surplus?`, `InstructionOf.surplus?` — how many bytes more, read off the entry of an
  opcode;
* `Entry.read_tracks` — what follows an opcode, for entries that have a word form;
* `Opcode.entry_leaves` — every entry of the opcode maps has one, and two bytes more are left exactly after
  the opcodes that `Opcode.hasSizedField` lists.
-/

namespace CodeAtlas

/-! ## Grammars side by side -/

namespace Grammar

variable {α β γ δ : Type}

/-- Where `g` accepts, `h` accepts the image of the value and leaves `k` bytes more. -/
def Tracks (f : α → β) (k : Nat) (g : Grammar α) (h : Grammar β) : Prop :=
  ∀ bs a rest, g.run bs = .accepted a rest →
    ∃ more : List UInt8, more.length = k ∧ h.run bs = .accepted (f a) (more ++ rest)

theorem tracks_accept {f : α → β} {a : α} {b : β} (h : f a = b) : Tracks f 0 (accept a) (accept b) := by
  intro bs x rest hrun
  rw [run_accept] at hrun
  cases hrun
  exact ⟨[], rfl, by rw [run_accept, h]; rfl⟩

theorem tracks_reject (f : α → β) (k : Nat) (h : Grammar β) : Tracks f k reject h := by
  intro bs a rest hrun
  rw [run_reject] at hrun
  cases hrun

theorem tracks_refl (g : Grammar α) : Tracks id 0 g g :=
  fun _ _ _ hrun => ⟨[], rfl, hrun⟩

/-- A sequence that accepts is two parts that do. -/
theorem exists_of_run_andThen {g : Grammar α} {f : α → Grammar β} {bs rest : List UInt8} {b : β}
    (h : (g.andThen f).run bs = .accepted b rest) :
    ∃ a mid, g.run bs = .accepted a mid ∧ (f a).run mid = .accepted b rest := by
  rw [run_andThen] at h
  cases hfirst : g.run bs with
  | accepted a mid =>
    rw [hfirst] at h
    exact ⟨a, mid, rfl, h⟩
  | incomplete =>
    rw [hfirst] at h
    cases h
  | rejected mid =>
    rw [hfirst] at h
    cases h

/-- The second parts start at the same place if the first parts take the same bytes. -/
theorem Tracks.andThen {f : α → β} {f' : γ → δ} {k : Nat} {g : Grammar α} {h : Grammar β}
    {g' : α → Grammar γ} {h' : β → Grammar δ} (hg : Tracks f 0 g h)
    (hg' : ∀ a, Tracks f' k (g' a) (h' (f a))) : Tracks f' k (g.andThen g') (h.andThen h') := by
  intro bs c rest hrun
  obtain ⟨a, mid, hfirst, hsecond⟩ := exists_of_run_andThen hrun
  obtain ⟨extra, hlen, hfirst'⟩ := hg bs a mid hfirst
  obtain rfl := List.eq_nil_of_length_eq_zero hlen
  obtain ⟨more, hmore, hsecond'⟩ := hg' a mid c rest hsecond
  refine ⟨more, hmore, ?_⟩
  rw [run_andThen, hfirst']
  exact hsecond'

/-- What is made of the value at the end takes no bytes. -/
theorem Tracks.map {f : α → β} {f' : γ → δ} {k : Nat} {g : Grammar α} {h : Grammar β} {c : α → γ}
    {c' : β → δ} (hg : Tracks f k g h) (hc : ∀ a, f' (c a) = c' (f a)) :
    Tracks f' k (g.andThen fun a => accept (c a)) (h.andThen fun b => accept (c' b)) := by
  intro bs x rest hrun
  obtain ⟨a, mid, hfirst, hlast⟩ := exists_of_run_andThen hrun
  rw [run_accept] at hlast
  cases hlast
  obtain ⟨more, hmore, hfirst'⟩ := hg bs a rest hfirst
  refine ⟨more, hmore, ?_⟩
  rw [run_andThen, hfirst', hc]
  exact run_accept _ _

/-! ## Numbers -/

theorem run_number (w : Width) (s : Signedness) (bs : List UInt8) :
    (number w s).run bs =
      if w.size ≤ bs.length then .accepted (LittleEndian.toInt s (bs.take w.size)) (bs.drop w.size)
      else .incomplete := by
  rw [number, run_andThen, run_bytes]
  split
  · exact run_accept _ _
  · rfl

/-- A word in the place of a dword is its low half, and the other two bytes are left. -/
theorem number_tracks (s : Signedness) : Tracks s.lowHalf 2 (number .dword s) (number .word s) := by
  intro bs v rest hrun
  rw [run_number] at hrun
  split at hrun
  · next hlen =>
    cases hrun
    match bs, hlen with
    | b₀ :: b₁ :: b₂ :: b₃ :: rest, _ =>
      refine ⟨[b₂, b₃], rfl, ?_⟩
      show _ = Verdict.accepted (s.lowHalf (LittleEndian.toInt s [b₀, b₁, b₂, b₃])) (b₂ :: b₃ :: rest)
      rw [LittleEndian.lowHalf_toInt]
      rfl
  · cases hrun

/-- A signed byte is its own low half. -/
theorem number_tracks_byte :
    Tracks Signedness.signed.lowHalf 0 (number .byte .signed) (number .byte .signed) := by
  intro bs v rest hrun
  rw [run_number] at hrun
  split at hrun
  · next hlen =>
    cases hrun
    match bs, hlen with
    | b :: rest, _ =>
      refine ⟨[], rfl, ?_⟩
      show _ = Verdict.accepted (Signedness.signed.lowHalf (LittleEndian.toInt .signed [b])) rest
      rw [LittleEndian.lowHalf_toInt_byte]
      rfl
  · cases hrun

end Grammar

open Grammar

/-! ## Prefixes and sizes -/

/-- `q` is `p` with the operand-size override, which `p` lacks, in front. -/
structure Prefixes.Overridden (p q : Prefixes) : Prop where
  kinds : q.kinds = .operandSize :: p.kinds
  lacks : p.has .operandSize = false

namespace Prefixes.Overridden

variable {p q : Prefixes}

theorem isFlagged_left (h : Overridden p q) : p.isFlagged .operandSize = false := by
  rw [isFlagged_eq_has, h.lacks]

theorem isFlagged_right (h : Overridden p q) : q.isFlagged .operandSize = true := by
  rw [isFlagged_eq_has, has, h.kinds]
  rfl

theorem has_rep (h : Overridden p q) : q.has .rep = p.has .rep := by
  rw [has, has, h.kinds]
  rfl

end Prefixes.Overridden

/-- How many bytes more are left for an operand of a size: none if it has a word form, and nothing is said of
a dword that stays one. -/
def Size.surplus? : Size → Option Nat
  | .fixed .dword => none
  | _ => some 0

/-- The width under the override is that of the word form, or the same. -/
theorem Size.width_cases {p q : Prefixes} (h : p.Overridden q) (s : Size) :
    s.surplus? = some 0 ∧ s.width q = (s.width p).narrow ∨ s.surplus? = none ∧ s.width q = s.width p := by
  cases s with
  | fixed w =>
    cases w with
    | byte => exact Or.inl ⟨rfl, rfl⟩
    | word => exact Or.inl ⟨rfl, rfl⟩
    | dword => exact Or.inr ⟨rfl, rfl⟩
  | operand =>
    refine Or.inl ⟨rfl, ?_⟩
    rw [width, width, h.isFlagged_right, h.isFlagged_left]
    rfl

theorem Size.width_operand {p q : Prefixes} (h : p.Overridden q) :
    Size.operand.width p = .dword ∧ Size.operand.width q = .word := by
  rw [width, width, h.isFlagged_right, h.isFlagged_left]
  exact ⟨rfl, rfl⟩

/-! ## Operands -/

/-- How many bytes more the word form of a slot leaves; none for what stays a dword under the override. -/
def Slot.surplus? : Slot → Option Nat
  | .register _ s => s.surplus?
  | .one => some 0
  | .immediate .operand _ => some 2
  | .immediate s _ => s.surplus?
  | .branch .operand => some 2
  | .branch (.fixed .byte) => some 0
  | .branch _ => none
  | .absolute s => s.surplus?

/-- How many bytes more the word form of a field leaves; none for what stays a dword under the override. -/
def Field.surplus? : Field → Option Nat
  | .reg s => s.surplus?
  | .rm s => s.surplus?
  | .slot s => s.surplus?

/-- How two readings of an operand compare: the second is of the word form and leaves so many bytes more, or
there is no word form and they are the same. -/
def Responds : Option Nat → Grammar Operand → Grammar Operand → Prop
  | some k, g, h => Tracks Operand.narrow k g h
  | none, g, h => g = h

/-- Readings that differ in nothing but a width of the operand. -/
theorem responds_of_width {p q : Prefixes} (h : p.Overridden q) (s : Size) {g : Width → Grammar Operand}
    (hg : ∀ w, Tracks Operand.narrow 0 (g w) (g w.narrow)) :
    Responds s.surplus? (g (s.width p)) (g (s.width q)) := by
  obtain ⟨hs, hw⟩ | ⟨hs, hw⟩ := s.width_cases h
  · rw [hs, hw]
    exact hg _
  · rw [hs, hw]
    exact rfl

theorem Slot.read_responds {p q : Prefixes} (h : p.Overridden q) (s : Slot) :
    Responds s.surplus? (s.read p) (s.read q) := by
  obtain ⟨hp, hq⟩ := Size.width_operand h
  cases s with
  | register n s =>
    exact responds_of_width h s (g := fun w => .accept (.register ⟨w, n⟩)) fun w => tracks_accept rfl
  | one => exact tracks_accept rfl
  | immediate s sign =>
    cases s with
    | operand =>
      show Tracks _ _ (Grammar.andThen (number (Size.operand.width p) sign) _)
        (Grammar.andThen (number (Size.operand.width q) sign) _)
      rw [hp, hq]
      exact (number_tracks sign).map fun _ => rfl
    | fixed w =>
      cases w with
      | byte => exact (tracks_refl (number .byte sign)).map fun _ => rfl
      | word => exact (tracks_refl (number .word sign)).map fun _ => rfl
      | dword => exact rfl
  | branch s =>
    cases s with
    | operand =>
      show Tracks _ _ (Grammar.andThen (number (Size.operand.width p) .signed) _)
        (Grammar.andThen (number (Size.operand.width q) .signed) _)
      rw [hp, hq]
      exact (number_tracks .signed).map fun _ => rfl
    | fixed w =>
      cases w with
      | byte => exact number_tracks_byte.map fun _ => rfl
      | word => exact rfl
      | dword => exact rfl
  | absolute s =>
    exact responds_of_width h s (g := fun w => (number .dword .signed).andThen fun displacement =>
      .accept (.memory (.absolute displacement) w)) fun w => (tracks_refl _).map fun _ => rfl

theorem Field.read_responds {p q : Prefixes} (h : p.Overridden q) (m : ModRM) (f : Field) :
    Responds f.surplus? (f.read p m) (f.read q m) := by
  cases f with
  | reg s =>
    exact responds_of_width h s (g := fun w => .accept (.register ⟨w, m.reg⟩)) fun w => tracks_accept rfl
  | rm s =>
    show Responds s.surplus? (if m.isRegister = true then _ else _) (if m.isRegister = true then _ else _)
    split
    · exact responds_of_width h s (g := fun w => .accept (.register ⟨w, m.rm⟩)) fun w => tracks_accept rfl
    · exact responds_of_width h s (g := fun w => m.address.andThen fun a => .accept (.memory a w))
        fun w => (tracks_refl _).map fun _ => rfl
  | slot s => exact s.read_responds h

/-! ## Instructions -/

/-- Operands that are read one after the other: all but the last have to take the same bytes. -/
def surplusOf : List (Option Nat) → Option Nat
  | [] => some 0
  | [k] => k
  | k :: ks => if k = some 0 then surplusOf ks else none

/-- How many bytes more the word form of an instruction leaves, by what its operands leave; none if it has no
word form of the same shape. -/
def InstructionOf.surplus? {α : Type} (r : α → Option Nat) : InstructionOf α → Option Nat
  | .plain op => if op.narrow = op then some 0 else none
  | .unary op x => if op.isRigid then (if r x = none then some 0 else none) else r x
  | .lea _ _ => none
  | i => surplusOf (i.operands.map r)

/-- Of operands read one after the other the first has to take the same bytes. -/
theorem surplusOf_cons {k : Option Nat} {ks : List (Option Nat)} {n : Nat} (hks : ks ≠ [])
    (h : surplusOf (k :: ks) = some n) : k = some 0 ∧ surplusOf ks = some n := by
  cases ks with
  | nil => exact absurd rfl hks
  | cons k' ks =>
    rw [surplusOf] at h
    · split at h
      · next hk => exact ⟨hk, h⟩
      · cases h
    · exact hks

/-- **Instructions.**  If operands are read as their word forms, an instruction is. -/
theorem InstructionOf.traverse_tracks {α : Type} {f g : α → Grammar Operand} {r : α → Option Nat}
    (hr : ∀ x, Responds (r x) (f x) (g x)) {i : InstructionOf α} {k : Nat} (hk : i.surplus? r = some k) :
    Tracks Instruction.narrow k (i.traverse f) (i.traverse g) := by
  have some_of : ∀ {x j}, r x = some j → Tracks Operand.narrow j (f x) (g x) := by
    intro x j hx
    have h := hr x
    rwa [hx] at h
  have none_of : ∀ {x}, r x = none → f x = g x := by
    intro x hx
    have h := hr x
    rwa [hx] at h
  cases i with
  | plain op =>
    rw [surplus?] at hk
    split at hk
    · next hop =>
      cases hk
      exact tracks_accept (congrArg InstructionOf.plain hop)
    · cases hk
  | unary op x =>
    rw [surplus?] at hk
    split at hk
    · next hrigid =>
      split at hk
      · next hx =>
        cases hk
        show Tracks _ _ (Grammar.andThen (f x) _) (Grammar.andThen (g x) _)
        rw [← none_of hx]
        refine (tracks_refl (f x)).map fun a => ?_
        rw [Instruction.narrow, if_pos hrigid]
        rfl
      · cases hk
    · next hrigid =>
      refine (some_of hk).map fun a => ?_
      rw [Instruction.narrow, if_neg hrigid]
  | binary op x y =>
    obtain ⟨hx, hy⟩ := surplusOf_cons (List.cons_ne_nil _ _) hk
    exact (some_of hx).andThen fun _ => (some_of hy).map fun _ => rfl
  | imul dst src factor =>
    cases factor with
    | none =>
      obtain ⟨hdst, hsrc⟩ := surplusOf_cons (List.cons_ne_nil _ _) hk
      exact (some_of hdst).andThen fun _ => (some_of hsrc).map fun _ => rfl
    | some factor =>
      obtain ⟨hdst, htail⟩ := surplusOf_cons (List.cons_ne_nil _ _) hk
      obtain ⟨hsrc, hfactor⟩ := surplusOf_cons (List.cons_ne_nil _ _) htail
      exact (some_of hdst).andThen fun _ => (some_of hsrc).andThen fun _ =>
        (some_of hfactor).map fun _ => rfl
  | doubleShift op dst src count =>
    obtain ⟨hdst, htail⟩ := surplusOf_cons (List.cons_ne_nil _ _) hk
    obtain ⟨hsrc, hcount⟩ := surplusOf_cons (List.cons_ne_nil _ _) htail
    exact (some_of hdst).andThen fun _ => (some_of hsrc).andThen fun _ =>
      (some_of hcount).map fun _ => rfl
  | cmovcc c dst src =>
    obtain ⟨hdst, hsrc⟩ := surplusOf_cons (List.cons_ne_nil _ _) hk
    exact (some_of hdst).andThen fun _ => (some_of hsrc).map fun _ => rfl
  | setcc c dst => exact (some_of hk).map fun _ => rfl
  | jcc c target => exact (some_of hk).map fun _ => rfl
  | bswap register =>
    cases hk
    exact tracks_accept rfl
  | lea dst src => cases hk
  | address op a =>
    cases hk
    exact tracks_accept rfl

/-! ## What follows an opcode -/

/-- Whether the word form of what a ModRM byte selects leaves `k` bytes more. -/
def Selection.leaves (k : Nat) : Selection → Bool
  | .undefined => true
  | .form i => i.surplus? Field.surplus? == some k
  | .lea => k == 0
  | .address _ => k == 0

theorem Selection.read_tracks {p q : Prefixes} (h : p.Overridden q) (m : ModRM) {s : Selection} {k : Nat}
    (hk : s.leaves k = true) : Tracks Instruction.narrow k (s.read p m) (s.read q m) := by
  cases s with
  | undefined => exact tracks_reject _ _ _
  | form i => exact i.traverse_tracks (Field.read_responds h m) (eq_of_beq hk)
  | lea =>
    obtain rfl : k = 0 := eq_of_beq hk
    obtain ⟨hp, hq⟩ := Size.width_operand h
    refine (tracks_refl m.address).map fun a => ?_
    rw [hp, hq]
    rfl
  | address op =>
    obtain rfl : k = 0 := eq_of_beq hk
    exact (tracks_refl m.address).map fun _ => rfl

/-- Whether the word form of what follows an opcode leaves `k` bytes more, under a ModRM byte with the given
`reg` field that names a register or a place in memory, if there is one. -/
def Entry.leaves (k : Nat) (reg : Fin 8) (direct : Bool) : Entry → Bool
  | .undefined => true
  | .form i => i.surplus? Slot.surplus? == some k
  | .sized word dword => dword.narrow == word && k == 0
  | .idle => k == 0
  | .modRM choose => (choose reg direct).leaves k

/-- The `reg` field of a ModRM byte that some bytes begin with. -/
def ModRM.regOf (bs : List UInt8) : Fin 8 :=
  (ofByte (bs.headD 0)).reg

/-- **Entries.**  What follows an opcode is read as its word form under the override. -/
theorem Entry.read_tracks {p q : Prefixes} (h : p.Overridden q) {e : Entry} {k : Fin 8 → Nat}
    (hk : ∀ reg direct, e.leaves (k reg) reg direct = true) {bs rest : List UInt8} {i : Instruction}
    (hrun : (e.read p).run bs = .accepted i rest) :
    ∃ more : List UInt8, more.length = k (ModRM.regOf bs) ∧
      (e.read q).run bs = .accepted (Instruction.narrow i) (more ++ rest) := by
  cases e with
  | undefined => exact tracks_reject _ _ _ bs i rest hrun
  | form form =>
    exact form.traverse_tracks (Slot.read_responds h) (eq_of_beq (hk _ true)) bs i rest hrun
  | sized word dword =>
    obtain ⟨hop, hzero⟩ := (Bool.and_eq_true _ _).mp (hk (ModRM.regOf bs) true)
    rw [eq_of_beq hzero]
    refine tracks_accept ?_ bs i rest hrun
    rw [h.isFlagged_right, h.isFlagged_left]
    exact congrArg InstructionOf.plain (eq_of_beq hop)
  | idle =>
    rw [eq_of_beq (hk (ModRM.regOf bs) true)]
    refine tracks_accept ?_ bs i rest hrun
    rw [h.has_rep]
    cases p.has .rep with
    | true => rfl
    | false => rfl
  | modRM choose =>
    cases bs with
    | nil => cases hrun
    | cons b tail =>
      exact Selection.read_tracks h (ModRM.ofByte b) (hk _ (ModRM.ofByte b).isRegister) tail i rest hrun

/-! ## The opcode maps -/

/-- Whether an immediate of the operand size or the offset of a near branch ends what follows an opcode: the
arithmetic operations on the accumulator, `push`, `imul`, the arithmetic group, `test` and `mov` with such an
immediate, and the near `call`, `jmp` and conditional jumps.  One opcode has it for a single value of the
`reg` field of its ModRM byte. -/
def Opcode.hasSizedField (reg : Fin 8) : Opcode → Bool
  | .primary b =>
    (decide (b < 0x40) && (bottomField b).val == 5) ||
    (decide (0xB8 ≤ b) && decide (b < 0xC0)) ||
    [0x68, 0x69, 0x81, 0xA9, 0xC7, 0xE8, 0xE9].contains b ||
    (b == 0xF7 && reg.val == 0)
  | .secondary b => decide (0x80 ≤ b) && decide (b < 0x90)
  | .tertiary _ => false

/-- How many bytes the override saves after an opcode. -/
def Opcode.saving (o : Opcode) (reg : Fin 8) : Nat :=
  if o.hasSizedField reg then 2 else 0

/-- **The opcode maps.**  Whatever an opcode means has a word form, which is shorter where it is listed and
nowhere else. -/
theorem Opcode.entry_leaves (o : Opcode) (reg : Fin 8) (direct : Bool) :
    o.entry.leaves (o.saving reg) reg direct = true := by
  cases o with
  | primary b =>
    have h : ∀ (n : Fin 256) (reg : Fin 8) (direct : Bool),
        (OpcodeMap.primary (UInt8.ofFin n)).leaves ((primary (UInt8.ofFin n)).saving reg) reg direct =
          true := by decide +kernel
    exact h b.toFin reg direct
  | secondary b =>
    have h : ∀ (n : Fin 256) (reg : Fin 8) (direct : Bool),
        (OpcodeMap.secondary (UInt8.ofFin n)).leaves ((secondary (UInt8.ofFin n)).saving reg) reg direct =
          true := by decide +kernel
    exact h b.toFin reg direct
  | tertiary b =>
    show (OpcodeMap.tertiary b).leaves 0 reg direct = true
    unfold OpcodeMap.tertiary
    split <;> rfl

end CodeAtlas
