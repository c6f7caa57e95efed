import CodeAtlas.Proofs.Decoder.Indifference
import CodeAtlas.Proofs.Encoding.Extent

/-!
# The parts of an encoding

The bytes of an instruction are its prefixes, its opcode and what follows the opcode.  Where each part ends is
told by the bytes alone, without reading the instruction; decoding goes by the same parts.

* `Encoding.prefixesOf` — the prefix bytes at the front, counted up to four;
* `Opcode.split?`, `Encoding.opcode?` — the opcode after them, and the bytes after it;
* `Encoding.exists_parts` — bytes that decode are read part by part: a fifth prefix byte is never accepted,
  the prefixes recorded are those at the front, and the instruction is what the entry of the opcode reads
  from the bytes after it.
-/

namespace CodeAtlas

open Grammar

/-! ## Opcodes -/

namespace Opcode

/-- Number of bytes. -/
def size : Opcode → Nat
  | primary _ => 1
  | secondary _ => 2
  | tertiary _ => 3

/-- The opcode that some bytes begin with, and the bytes after it. -/
def split? : List UInt8 → Option (Opcode × List UInt8)
  | [] => none
  | first :: rest =>
    if first = 0x0F then
      match rest with
      | [] => none
      | second :: rest =>
        if second = 0x01 then
          match rest with
          | [] => none
          | third :: rest => some (tertiary third, rest)
        else some (secondary second, rest)
    else some (primary first, rest)

/-- Completing an opcode is splitting the bytes after it. -/
theorem split?_of_run {first : UInt8} {bs tail : List UInt8} {o : Opcode}
    (h : (startingWith first).run bs = .accepted o tail) :
    split? (first :: bs) = some (o, tail) ∧ bs.length + 1 = o.size + tail.length := by
  unfold startingWith at h
  show (if first = 0x0F then _ else _) = some (o, tail) ∧ _
  by_cases hescape : first = 0x0F
  · rw [if_pos hescape] at h ⊢
    cases bs with
    | nil => cases h
    | cons second bs =>
      rw [run_byte_cons] at h
      show (if second = 0x01 then _ else _) = some (o, tail) ∧ _
      by_cases hsecond : second = 0x01
      · rw [if_pos hsecond] at h ⊢
        cases bs with
        | nil => cases h
        | cons third bs =>
          cases (run_accept (tertiary third) bs).symm.trans h
          refine ⟨rfl, ?_⟩
          simp only [size, List.length_cons]
          omega
      · rw [if_neg hsecond, run_accept] at h
        rw [if_neg hsecond]
        cases h
        refine ⟨rfl, ?_⟩
        simp only [size, List.length_cons]
        omega
  · rw [if_neg hescape, run_accept] at h
    rw [if_neg hescape]
    cases h
    exact ⟨rfl, Nat.add_comm _ _⟩

end Opcode

namespace Encoding

/-! ## Prefixes -/

/-- The prefix bytes at the front, counted up to four. -/
def prefixesOf (bs : List UInt8) : List UInt8 :=
  (leading bs).take Prefixes.limit

/-- The opcode of an encoding, and the bytes after it. -/
def opcode? (bs : List UInt8) : Option (Opcode × List UInt8) :=
  Opcode.split? (bs.drop (prefixesOf bs).length)

/-- If there are more prefix bytes than there is room for, one of them is taken for an opcode. -/
theorem run_prefixed_of_crowded (room : Nat) :
    ∀ (p : Prefixes) (bs : List UInt8), p.count + room = Prefixes.limit → room < (leading bs).length →
      ∃ q b rest, isPrefixByte b = true ∧ (prefixed room p).run bs = .accepted (q, b) rest := by
  induction room with
  | zero =>
    intro p bs _ hlen
    cases bs with
    | nil => cases hlen
    | cons b rest =>
      cases hb : isPrefixByte b with
      | false =>
        rw [leading_cons, hb] at hlen
        cases hlen
      | true => exact ⟨p, b, rest, hb, run_accept _ _⟩
  | succ room ih =>
    intro p bs hroom hlen
    cases bs with
    | nil => cases hlen
    | cons b rest =>
      cases hb : isPrefixByte b with
      | false =>
        rw [leading_cons, hb] at hlen
        cases hlen
      | true =>
        rw [leading_cons, if_pos hb] at hlen
        obtain ⟨q, hpush, hbytes⟩ := push?_of_isPrefixByte (p := p) hb (by omega)
        have hcount : q.count + room = Prefixes.limit := by
          have hlength := congrArg List.length hbytes
          simp only [Prefixes.bytes, List.length_map, List.length_append, List.length_singleton] at hlength
          rw [Prefixes.count] at hroom ⊢
          omega
        obtain ⟨r, c, tail, hc, hrun⟩ := ih q rest hcount (Nat.lt_of_succ_lt_succ hlen)
        refine ⟨r, c, tail, hc, ?_⟩
        rw [← hrun, prefixed, run_byte_cons, hpush]

/-- No prefix byte is an opcode. -/
theorem run_remainder_of_isPrefixByte {b : UInt8} (hb : isPrefixByte b = true) (p : Prefixes)
    (bs : List UInt8) : (remainder p b).run bs = .rejected bs := by
  have hmem := isPrefixByte_iff.1 hb
  simp only [prefixBytes, List.mem_cons, List.not_mem_nil, or_false] at hmem
  rcases hmem with rfl | rfl | rfl | rfl <;> exact run_reject bs

/-- **A fifth prefix byte is never accepted.** -/
theorem length_leading_le {bs rest : List UInt8} {r : Prefixes × Instruction}
    (h : instruction.run bs = .accepted r rest) : (leading bs).length ≤ Prefixes.limit := by
  by_contra hcrowded
  obtain ⟨q, b, tail, hb, hrun⟩ :=
    run_prefixed_of_crowded Prefixes.limit .empty bs rfl (Nat.lt_of_not_le hcrowded)
  rw [instruction_eq, run_andThen, hrun] at h
  cases (run_remainder_of_isPrefixByte hb q tail).symm.trans h

/-! ## All parts -/

/-- **Bytes that decode are read part by part.** -/
theorem exists_parts {bs : List UInt8} {a : UInt64} {d : Decoded} (hd : decodeSingle bs a = .ok d) :
    ∃ o tail rest, d.prefixes.bytes = prefixesOf bs ∧ opcode? bs = some (o, tail) ∧
      (o.entry.read d.prefixes).run tail = .accepted d.instruction rest ∧
      d.length + rest.length = d.prefixes.count + o.size + tail.length := by
  rw [decodeSingle_eq_verdict, Decoder.verdict] at hd
  split at hd
  · next p i rest hrun =>
    cases hd
    have hroom := length_leading_le hrun
    obtain ⟨q, hq, hparts⟩ := run_instruction hroom
    have hprefixes : q.bytes = prefixesOf bs := by
      rw [hq, prefixesOf, List.take_of_length_le hroom]
    have hbs : leading bs ++ body bs = bs := List.takeWhile_append_dropWhile
    have hcore : bs.drop (prefixesOf bs).length = body bs := by
      rw [← hprefixes, hq]
      calc bs.drop (leading bs).length = (leading bs ++ body bs).drop (leading bs).length := by rw [hbs]
        _ = body bs := List.drop_left
    rw [hrun] at hparts
    cases hbody : body bs with
    | nil =>
      rw [hbody] at hparts
      cases hparts
    | cons b tail =>
      rw [hbody] at hparts hcore
      obtain ⟨o, after, hopcode, hentry⟩ := exists_of_run_andThen hparts.symm
      obtain ⟨j, mid, hread, haccept⟩ := exists_of_run_andThen hentry
      cases (run_accept (q, j) mid).symm.trans haccept
      obtain ⟨hsplit, hsize⟩ := Opcode.split?_of_run hopcode
      refine ⟨o, after, rest, hprefixes, ?_, hread, ?_⟩
      · rw [opcode?, hcore, hsplit]
      · -- the bytes left over are within the tail, so the length is a true difference
        obtain ⟨front, hfront, -⟩ := exists_of_run_accepted hrun
        have hlen := congrArg List.length hfront
        have hall := congrArg List.length hbs
        rw [hbody, ← hq] at hall
        simp only [List.length_append, List.length_cons, Prefixes.bytes, List.length_map] at hlen hall
        show bs.length - rest.length + rest.length = p.kinds.length + _ + _
        omega
  · cases hd
  · cases hd

end Encoding

end CodeAtlas
