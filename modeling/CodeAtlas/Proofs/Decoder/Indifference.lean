import CodeAtlas.Proofs.Decoder.ViablePrefix
import CodeAtlas.Proofs.Encoding.Leading
import CodeAtlas.Proofs.Machine.Flags

/-!
# Which prefixes have a say in decoding

Of what the prefixes of an encoding are, the rest of the grammar asks for two things only: whether the
operand-size override is among them, and, after the opcode `90` alone, whether the repeat prefix is.  So two
encodings that agree in this and after their prefixes are decoded alike, whatever the order, the number and the
other kinds of their prefixes.

* `Entry.read_congr` — what follows an opcode is the same grammar under prefixes that agree;
* `Opcode.entry_isIdle` — one opcode alone asks for the repeat prefix;
* `decodeSingle_eq_report` — decoding, in terms of the prefixes and of what the bytes after them say;
* `Prefixes.flags_reflect` — the flags are those of the kinds that occur;
* `decodeSingle_alike` — the two decodings side by side.
-/

namespace CodeAtlas

open Grammar

/-! ## What follows an opcode -/

section Congruence

variable {p q : Prefixes}

theorem Size.width_congr (h : p.has .operandSize = q.has .operandSize) (s : Size) :
    s.width p = s.width q := by
  cases s with
  | fixed w => rfl
  | operand => rw [width, width, Prefixes.isFlagged_congr h]

theorem Slot.read_congr (h : p.has .operandSize = q.has .operandSize) (s : Slot) : s.read p = s.read q := by
  cases s with
  | register n s => rw [read, read, s.width_congr h]
  | one => rfl
  | immediate s sign => rw [read, read, s.width_congr h]
  | branch s => rw [read, read, s.width_congr h]
  | absolute s => rw [read, read, s.width_congr h]

theorem Field.read_congr (h : p.has .operandSize = q.has .operandSize) (m : ModRM) (f : Field) :
    f.read p m = f.read q m := by
  cases f with
  | reg s => rw [read, read, s.width_congr h]
  | rm s => rw [read, read, s.width_congr h]
  | slot s => exact s.read_congr h

theorem Selection.read_congr (h : p.has .operandSize = q.has .operandSize) (m : ModRM) (s : Selection) :
    s.read p m = s.read q m := by
  cases s with
  | undefined => rfl
  | form i => exact congrArg i.traverse (funext (Field.read_congr h m))
  | lea => rw [read, read, Size.operand.width_congr h]
  | address op => rfl

/-- Whether an entry is no operation or a pause. -/
def Entry.isIdle : Entry → Bool
  | .idle => true
  | _ => false

/-- What follows an opcode is the same grammar under prefixes that agree in what the opcode asks for. -/
theorem Entry.read_congr (h : p.has .operandSize = q.has .operandSize) {e : Entry}
    (hrep : e.isIdle = true → p.has .rep = q.has .rep) : e.read p = e.read q := by
  cases e with
  | undefined => rfl
  | form i => exact congrArg i.traverse (funext (Slot.read_congr h))
  | sized word dword => rw [read, read, Prefixes.isFlagged_congr h]
  | idle => rw [read, read, hrep rfl]
  | modRM choose => exact congrArg Grammar.byte (funext fun b => Selection.read_congr h _ _)

end Congruence

/-- **One opcode alone asks for the repeat prefix.** -/
theorem Opcode.entry_isIdle (o : Opcode) : o.entry.isIdle = true ↔ o = .primary 0x90 := by
  cases o with
  | primary b =>
    have h : ∀ n : Fin 256, (OpcodeMap.primary (UInt8.ofFin n)).isIdle = true ↔
        primary (UInt8.ofFin n) = .primary 0x90 := by decide +kernel
    exact h b.toFin
  | secondary b =>
    have h : ∀ n : Fin 256, (OpcodeMap.secondary (UInt8.ofFin n)).isIdle = false := by decide +kernel
    have hb : (OpcodeMap.secondary b).isIdle = false := h b.toFin
    simp [entry, hb]
  | tertiary b =>
    have h : (OpcodeMap.tertiary b).isIdle = false := by
      unfold OpcodeMap.tertiary
      split <;> rfl
    simp [entry, h]

/-! ## What follows the prefixes -/

namespace Encoding

/-- The opcode that begins with a given byte, and its operands. -/
def operation (p : Prefixes) (first : UInt8) : Grammar Instruction :=
  (Opcode.startingWith first).andThen fun o => o.entry.read p

theorem run_remainder (p : Prefixes) (first : UInt8) (bs : List UInt8) :
    (remainder p first).run bs =
      ((operation p first).run bs).bind fun i rest => .accepted (p, i) rest := by
  rw [remainder, operation, run_andThen, run_andThen]
  cases (Opcode.startingWith first).run bs with
  | incomplete => rfl
  | rejected rest => rfl
  | accepted o rest =>
    show ((o.entry.read p).andThen fun i => .accept (p, i)).run rest =
      ((o.entry.read p).run rest).bind fun i rest => .accepted (p, i) rest
    simp only [run_andThen, run_accept]

/-- **What follows the prefixes is the same grammar** under prefixes that agree in the operand-size override
and, before the byte `90`, in the repeat prefix. -/
theorem operation_congr {p q : Prefixes} (h : p.has .operandSize = q.has .operandSize) {first : UInt8}
    (hrep : p.has .rep = q.has .rep ∨ first ≠ 0x90) : operation p first = operation q first := by
  have hentry : ∀ o : Opcode, (o = .primary 0x90 → first = 0x90) →
      o.entry.read p = o.entry.read q := by
    intro o ho
    refine Entry.read_congr h fun hidle => ?_
    exact hrep.resolve_right fun hne => hne (ho (o.entry_isIdle.1 hidle))
  unfold operation Opcode.startingWith
  split
  · refine congrArg Grammar.byte (funext fun second => ?_)
    beta_reduce
    split
    · refine congrArg Grammar.byte (funext fun third => ?_)
      exact hentry (.tertiary third) fun hc => by cases hc
    · exact hentry (.secondary second) fun hc => by cases hc
  · exact hentry (.primary first) fun hc => by
      injection hc

/-- What the grammar makes of the bytes after the prefixes. -/
def afterPrefixes (p : Prefixes) : List UInt8 → Verdict Instruction
  | [] => .incomplete
  | first :: bs => (operation p first).run bs

/-- What is reported of an encoding, by its prefixes, the bytes after them and what the grammar makes of these. -/
def report (a : UInt64) (p : Prefixes) (bs : List UInt8) : Verdict Instruction → Except DecodeFault Decoded
  | .accepted i rest => .ok ⟨a, p.bytes.length + (bs.length - rest.length), p, i⟩
  | .incomplete => .error (.truncated a (p.bytes ++ bs))
  | .rejected rest => .error (.unrecognized a (p.bytes ++ bs.take (bs.length - rest.length)))

/-- No more bytes are left than there were. -/
theorem length_rest_le {p : Prefixes} {bs rest : List UInt8}
    (h : (∃ i, afterPrefixes p bs = .accepted i rest) ∨ afterPrefixes p bs = .rejected rest) :
    rest.length ≤ bs.length := by
  cases bs with
  | nil => rcases h with ⟨i, h⟩ | h <;> cases h
  | cons first bs =>
    rcases h with ⟨i, h⟩ | h
    · obtain ⟨e, rfl, -⟩ := exists_of_run_accepted h
      simp only [List.length_cons, List.length_append]
      omega
    · obtain ⟨e, rfl, -⟩ := exists_of_run_rejected h
      simp only [List.length_cons, List.length_append]
      omega

theorem leading_append {p rest : List UInt8} (hp : ∀ b ∈ p, isPrefixByte b = true)
    (hrest : ∀ b ∈ rest.head?, isPrefixByte b = false) :
    leading (p ++ rest) = p ∧ body (p ++ rest) = rest := by
  have hstop : leading rest = [] ∧ body rest = rest := by
    cases rest with
    | nil => exact ⟨rfl, rfl⟩
    | cons b rest =>
      rw [leading_cons, body_cons, hrest b rfl]
      exact ⟨rfl, rfl⟩
  constructor
  · rw [leading, List.takeWhile_append_of_pos hp]
    show p ++ leading rest = p
    rw [hstop.1, List.append_nil]
  · rw [body, List.dropWhile_append_of_pos hp]
    exact hstop.2

end Encoding

open Encoding in
/-- Decoding is reading the prefixes that the bytes begin with, and then what follows them. -/
theorem decodeSingle_eq_report (bs : List UInt8) (h : (leading bs).length ≤ Prefixes.limit) (a : UInt64) :
    ∃ p : Prefixes, p.bytes = leading bs ∧
      decodeSingle bs a = report a p (body bs) (afterPrefixes p (body bs)) := by
  obtain ⟨p, hp, hrun⟩ := run_instruction h
  refine ⟨p, hp, ?_⟩
  have hbs : bs = p.bytes ++ body bs := by
    rw [hp]
    exact List.takeWhile_append_dropWhile.symm
  have hafter : instruction.run bs =
      (afterPrefixes p (body bs)).bind fun i rest => .accepted (p, i) rest := by
    rw [hrun]
    cases body bs with
    | nil => rfl
    | cons first tail => exact run_remainder p first tail
  rw [decodeSingle_eq_verdict, Decoder.verdict, hafter]
  generalize body bs = tail at hbs ⊢
  subst hbs
  cases hv : afterPrefixes p tail with
  | incomplete => rfl
  | accepted i rest =>
    have hle := length_rest_le (Or.inl ⟨i, hv⟩)
    show Except.ok (⟨a, (p.bytes ++ tail).length - rest.length, p, i⟩ : Decoded) = _
    rw [List.length_append, Nat.add_sub_assoc hle]
    rfl
  | rejected rest =>
    have hle := length_rest_le (Or.inr hv)
    show Except.error (DecodeFault.unrecognized a ((p.bytes ++ tail).take _)) = _
    rw [List.length_append, Nat.add_sub_assoc hle, List.take_length_add_append]
    rfl

/-! ## Flags -/

/-- The flags are those of the kinds whose bytes are in a list: the bit of a kind is set if its byte is there,
and no other bit is. -/
def Prefixes.Reflects (p : Prefixes) (bs : List UInt8) : Prop :=
  p.flags < 16 ∧ ∀ k : LegacyPrefix, p.flags &&& k.flag ≠ 0 ↔ k.byte ∈ bs

/-- **The flags are those of the bytes that are recorded.** -/
theorem Prefixes.flags_reflect (p : Prefixes) : p.Reflects p.bytes := by
  refine ⟨p.flags_lt, fun k => ?_⟩
  rw [← isFlagged_iff, p.isFlagged_eq_has, has_iff]

/-! ## Two decodings side by side -/

namespace Encoding

/-- The bytes that stand for a prefix. -/
def prefixBytes : List UInt8 :=
  [0x66, 0xF0, 0xF2, 0xF3]

theorem isPrefixByte_iff {b : UInt8} : isPrefixByte b = true ↔ b ∈ prefixBytes := by
  constructor
  · intro h
    obtain ⟨k, hk⟩ := Option.isSome_iff_exists.1 h
    rw [← LegacyPrefix.byte_of_ofByte? hk]
    cases k <;> decide
  · intro h
    simp only [prefixBytes, List.mem_cons, List.not_mem_nil, or_false] at h
    rcases h with rfl | rfl | rfl | rfl <;> rfl

end Encoding

open Encoding

/-- At one place, what is decoded after the prefix bytes `p` and what is decoded after the prefix bytes `q` are
the same: an instruction with just these prefixes and as many bytes after them, or a fault of the same kind
about the same bytes after them. -/
inductive Alike (a : UInt64) (p q : List UInt8) :
    Except DecodeFault Decoded → Except DecodeFault Decoded → Prop
  | decoded {d e : Decoded} {n : Nat} : d.offset = a → e.offset = a → d.instruction = e.instruction →
      d.prefixes.bytes = p → e.prefixes.bytes = q → d.prefixes.Reflects p → e.prefixes.Reflects q →
      d.length = p.length + n → e.length = q.length + n → Alike a p q (.ok d) (.ok e)
  | truncated (t : List UInt8) :
      Alike a p q (.error (.truncated a (p ++ t))) (.error (.truncated a (q ++ t)))
  | unrecognized (t : List UInt8) :
      Alike a p q (.error (.unrecognized a (p ++ t))) (.error (.unrecognized a (q ++ t)))

/-- The same verdict on the bytes after the prefixes is reported alike. -/
theorem report_alike (a : UInt64) (p q : Prefixes) (bs : List UInt8) (v : Verdict Instruction) :
    Alike a p.bytes q.bytes (report a p bs v) (report a q bs v) := by
  cases v with
  | accepted i rest => exact .decoded rfl rfl rfl rfl rfl p.flags_reflect q.flags_reflect rfl rfl
  | incomplete => exact .truncated bs
  | rejected rest => exact .unrecognized _

theorem afterPrefixes_congr {p q : Prefixes} {bs : List UInt8}
    (h : p.has .operandSize = q.has .operandSize)
    (hrep : p.has .rep = q.has .rep ∨ bs.head? ≠ some 0x90) : afterPrefixes p bs = afterPrefixes q bs := by
  cases bs with
  | nil => rfl
  | cons first bs =>
    have hfirst : p.has .rep = q.has .rep ∨ first ≠ 0x90 :=
      hrep.imp_right fun hne heq => hne (congrArg some heq)
    rw [afterPrefixes, afterPrefixes, operation_congr h hfirst]

/-- A kind is recorded under both prefixes or under neither if its byte is among both or neither. -/
theorem Prefixes.has_congr {p q : Prefixes} {k : LegacyPrefix} (h : k.byte ∈ p.bytes ↔ k.byte ∈ q.bytes) :
    p.has k = q.has k := by
  rw [Bool.eq_iff_iff, has_iff, has_iff, h]

/-- **Prefixes do not interfere.**  Before bytes that begin with no prefix stand two sequences of at most four
prefix bytes, in which the operand-size override either occurs both times or neither, and so does the repeat
prefix unless the bytes begin otherwise than with `90`.  Then the two decodings are alike: the same instruction,
with the prefixes and flags that its own bytes say and the same length after them, or the same fault about the
same bytes after them. -/
theorem decodeSingle_alike {p q rest : List UInt8} (hp : p.length ≤ 4) (hq : q.length ≤ 4)
    (hpk : ∀ b ∈ p, b ∈ prefixBytes) (hqk : ∀ b ∈ q, b ∈ prefixBytes)
    (hrest : ∀ b ∈ rest.head?, b ∉ prefixBytes) (hsize : 0x66 ∈ p ↔ 0x66 ∈ q)
    (hrep : (0xF3 ∈ p ↔ 0xF3 ∈ q) ∨ rest.head? ≠ some 0x90) (a : UInt64) :
    Alike a p q (decodeSingle (p ++ rest) a) (decodeSingle (q ++ rest) a) := by
  have hstart : ∀ b ∈ rest.head?, isPrefixByte b = false := by
    intro b hb
    rw [Bool.eq_false_iff]
    exact fun h => hrest b hb (isPrefixByte_iff.1 h)
  obtain ⟨hlp, hbp⟩ := leading_append (fun b hb => isPrefixByte_iff.2 (hpk b hb)) hstart
  obtain ⟨hlq, hbq⟩ := leading_append (fun b hb => isPrefixByte_iff.2 (hqk b hb)) hstart
  obtain ⟨P, hP, hdp⟩ := decodeSingle_eq_report (p ++ rest) (by rw [hlp]; exact hp) a
  obtain ⟨Q, hQ, hdq⟩ := decodeSingle_eq_report (q ++ rest) (by rw [hlq]; exact hq) a
  rw [hlp] at hP
  rw [hlq] at hQ
  rw [hbp] at hdp
  rw [hbq] at hdq
  subst hP
  subst hQ
  have hafter : afterPrefixes P rest = afterPrefixes Q rest :=
    afterPrefixes_congr (Prefixes.has_congr hsize) (hrep.imp_left Prefixes.has_congr)
  rw [hdp, hdq, hafter]
  exact report_alike a P Q rest _

/-- A locked and twice overridden addition to memory, and the same under one override and other prefixes. -/
theorem decodeSingle_alike_lockedAdd :
    (∃ d, decodeSingle ([0xF0, 0x66, 0x66] ++ [0x81, 0x03, 0x34, 0x12]) 0x1000 = .ok d ∧ d.length = 7) ∧
      Alike 0x1000 [0xF0, 0x66, 0x66] [0xF2, 0xF3, 0x66, 0xF3]
        (decodeSingle ([0xF0, 0x66, 0x66] ++ [0x81, 0x03, 0x34, 0x12]) 0x1000)
        (decodeSingle ([0xF2, 0xF3, 0x66, 0xF3] ++ [0x81, 0x03, 0x34, 0x12]) 0x1000) := by
  have hd : decodeSingle ([0xF0, 0x66, 0x66] ++ [0x81, 0x03, 0x34, 0x12]) 0x1000 =
      .ok ⟨0x1000, 7, ⟨[.lock, .operandSize, .operandSize], by decide⟩, .binary .add
        (.memory ⟨some ⟨.dword, 3⟩, none, none⟩ .word) (.constant ⟨0x1234, .word, .signed⟩)⟩ := by
    decide +kernel
  exact ⟨⟨_, hd, rfl⟩, decodeSingle_alike (by decide) (by decide) (by simp [prefixBytes])
    (by simp [prefixBytes]) (by simp [prefixBytes]) (by decide) (Or.inr (by decide)) 0x1000⟩

end CodeAtlas
