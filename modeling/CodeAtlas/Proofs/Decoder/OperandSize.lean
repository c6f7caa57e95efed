import CodeAtlas.Proofs.Decoder.ViablePrefix
import CodeAtlas.Proofs.Encoding.Leading
import CodeAtlas.Proofs.Encoding.Narrowing

/-!
# The operand-size override in front of an encoding

The override is the only prefix that has a say in how operands are read.  Put in front of bytes that decode,
it makes of the instruction its word form, and of the encoding one that is a byte longer, or a byte shorter
where an immediate of the operand size or the offset of a near branch ends it.

* `Encoding.endsSized` — whether an encoding ends in such a field;
* `Encoding.run_overridden` — the grammar of instructions, read against the bytes with and without the
  override;
* `decodeSingle_operandSize` — the same of decoding.
-/

namespace CodeAtlas

open Grammar

/-- The override in front of prefix bytes that lack it. -/
theorem Prefixes.overridden_of_bytes {p q : Prefixes} (hbytes : q.bytes = 0x66 :: p.bytes)
    (hlacks : 0x66 ∉ p.bytes) : p.Overridden q := by
  constructor
  · have hmap : q.kinds.map LegacyPrefix.byte = (.operandSize :: p.kinds).map LegacyPrefix.byte := hbytes
    exact (List.map_inj_right fun _ _ => LegacyPrefix.byte_injective).1 hmap
  · rw [Bool.eq_false_iff]
    intro hhas
    exact hlacks (has_iff.1 hhas)

namespace Encoding

/-- Whether an immediate of the operand size or the offset of a near branch ends the encoding that some bytes
begin with. -/
def endsSized (bs : List UInt8) : Bool :=
  match body bs with
  | [] => false
  | b :: rest =>
    match (Opcode.startingWith b).run rest with
    | .accepted o tail => o.hasSizedField (ModRM.regOf tail)
    | _ => false

theorem endsSized_of_run {bs rest tail : List UInt8} {b : UInt8} {o : Opcode} (hbody : body bs = b :: rest)
    (hopcode : (Opcode.startingWith b).run rest = .accepted o tail) :
    endsSized bs = o.hasSizedField (ModRM.regOf tail) := by
  simp only [endsSized, hbody, hopcode]

/-- What follows the prefixes. -/
theorem remainder_tracks {p q r : Prefixes} (h : p.Overridden q) {b : UInt8} {bs rest : List UInt8}
    {i : Instruction} (hrun : (remainder p b).run bs = .accepted (r, i) rest) :
    ∃ o tail, r = p ∧ (Opcode.startingWith b).run bs = .accepted o tail ∧
      ∃ more : List UInt8, more.length = o.saving (ModRM.regOf tail) ∧
        (remainder q b).run bs = .accepted (q, Instruction.narrow i) (more ++ rest) := by
  obtain ⟨o, tail, hopcode, hentry⟩ := exists_of_run_andThen hrun
  obtain ⟨j, mid, hread, haccept⟩ := exists_of_run_andThen hentry
  rw [run_accept] at haccept
  cases haccept
  obtain ⟨more, hmore, hread'⟩ := Entry.read_tracks h o.entry_leaves hread
  refine ⟨o, tail, rfl, hopcode, more, hmore, ?_⟩
  rw [remainder, run_andThen, hopcode]
  show ((o.entry.read q).andThen fun i => .accept (q, i)).run tail = _
  rw [run_andThen, hread']
  exact run_accept _ _

/-- **The grammar under the override.**  Where it accepts some bytes, it accepts the override and these bytes,
with the word form of the instruction. -/
theorem run_overridden {bs rest : List UInt8} {p : Prefixes} {i : Instruction}
    (hroom : (leading bs).length ≤ 3) (hlacks : 0x66 ∉ leading bs)
    (hrun : instruction.run bs = .accepted (p, i) rest) :
    ∃ q more, q.bytes = 0x66 :: p.bytes ∧ more.length = (if endsSized bs then 2 else 0) ∧
      instruction.run (0x66 :: bs) = .accepted (q, Instruction.narrow i) (more ++ rest) := by
  have hfits : (leading bs).length ≤ Prefixes.limit := Nat.le_succ_of_le hroom
  have hfits' : (leading (0x66 :: bs)).length ≤ Prefixes.limit := Nat.succ_le_succ hroom
  obtain ⟨p', hp, hplain⟩ := run_instruction hfits
  obtain ⟨q, hq, hover⟩ := run_instruction hfits'
  have hbytes : q.bytes = 0x66 :: p'.bytes := by
    rw [hq, hp]
    rfl
  have hbody : body (0x66 :: bs) = body bs := rfl
  have h : p'.Overridden q := Prefixes.overridden_of_bytes hbytes (hp ▸ hlacks)
  rw [hrun] at hplain
  rw [hbody] at hover
  cases hbs : body bs with
  | nil =>
    rw [hbs] at hplain
    cases hplain
  | cons b tail =>
    rw [hbs] at hplain hover
    obtain ⟨o, tail', rfl, hopcode, more, hmore, hread⟩ := remainder_tracks h hplain.symm
    refine ⟨q, more, hbytes, ?_, hover.trans hread⟩
    rw [endsSized_of_run hbs hopcode]
    exact hmore

end Encoding

/-- **The operand-size override only narrows.**  In front of bytes that decode, with at most three other
prefixes and no override among them, it is recorded first, the instruction becomes its word form, and the
encoding is a byte longer, or a byte shorter if an immediate of the operand size or the offset of a near
branch ends it. -/
theorem decodeSingle_operandSize {rest : List UInt8} {a : UInt64} {d : Decoded}
    (hroom : (Encoding.leading rest).length ≤ 3) (hlacks : 0x66 ∉ Encoding.leading rest)
    (hd : decodeSingle rest a = .ok d) :
    ∃ d', decodeSingle (0x66 :: rest) a = .ok d' ∧ d'.offset = d.offset ∧
      d'.prefixes.bytes = 0x66 :: d.prefixes.bytes ∧
      d'.instruction = Instruction.narrow d.instruction ∧
      if Encoding.endsSized rest then d'.length + 1 = d.length else d'.length = d.length + 1 := by
  rw [decodeSingle_eq_verdict, Decoder.verdict] at hd
  split at hd
  · next p i tail hrun =>
    cases hd
    obtain ⟨q, more, hbytes, hmore, hover⟩ := Encoding.run_overridden hroom hlacks hrun
    refine ⟨_, decodeSingle_of_run hover a, rfl, hbytes, rfl, ?_⟩
    -- both readings end within the bytes, so the lengths are true differences
    obtain ⟨front, hfront, -⟩ := exists_of_run_accepted hrun
    obtain ⟨front', hfront', -⟩ := exists_of_run_accepted hover
    have hlen := congrArg List.length hfront
    have hlen' := congrArg List.length hfront'
    simp only [List.length_append, List.length_cons] at hlen hlen' ⊢
    split at hmore
    · next hsized =>
      rw [if_pos hsized]
      omega
    · next hsized =>
      rw [if_neg hsized]
      omega
  · cases hd
  · cases hd

/-- A locked addition in memory has a signed immediate of four bytes, of which the override leaves two. -/
theorem decodeSingle_operandSize_lockedAdd :
    ∃ d d', decodeSingle [0xF0, 0x81, 0x44, 0xB3, 0x10, 0x78, 0x96, 0x34, 0x12] 4096 = .ok d ∧
      decodeSingle [0x66, 0xF0, 0x81, 0x44, 0xB3, 0x10, 0x78, 0x96, 0x34, 0x12] 4096 = .ok d' ∧
      d.length = 9 ∧ d'.length = 8 ∧ d'.prefixes.bytes = [0x66, 0xF0] ∧
      d'.instruction = Instruction.narrow d.instruction := by
  have hd : decodeSingle [0xF0, 0x81, 0x44, 0xB3, 0x10, 0x78, 0x96, 0x34, 0x12] 4096 =
      .ok ⟨4096, 9, ⟨[.lock], by decide⟩, .binary .add
        (.memory ⟨some ⟨.dword, 3⟩, some ⟨⟨.dword, 6⟩, .four⟩, some 16⟩ .dword)
        (.constant ⟨0x12349678, .dword, .signed⟩)⟩ := by decide +kernel
  obtain ⟨d', hover, -, hbytes, hnarrow, hlen⟩ := decodeSingle_operandSize (by decide) (by decide) hd
  exact ⟨_, d', hd, hover, rfl, Nat.succ.inj hlen, hbytes, hnarrow⟩

end CodeAtlas
