import CodeAtlas.Proofs.Encoding.Prompt

/-!
# The prefixes that an encoding begins with

The grammar of instructions first takes prefix bytes as long as they last and there is room for them.  If
there is room for all, the prefixes recorded are the prefix bytes that the encoding begins with, and the rest
of the grammar is read against the bytes that follow.

* `Encoding.leading`, `Encoding.body` — the prefix bytes at the front, and what follows them;
* `Encoding.run_prefixed` — reading prefixes;
* `Encoding.run_instruction` — an instruction is its leading prefixes and what its body is read as.
-/

namespace CodeAtlas

/-! ## Prefix bytes -/

theorem LegacyPrefix.byte_of_ofByte? {b : UInt8} {k : LegacyPrefix} (h : ofByte? b = some k) :
    k.byte = b := by
  unfold ofByte? at h
  split at h
  · next hb =>
    cases h
    exact hb.symm
  · split at h
    · next hb =>
      cases h
      exact hb.symm
    · split at h
      · next hb =>
        cases h
        exact hb.symm
      · split at h
        · next hb =>
          cases h
          exact hb.symm
        · cases h

theorem LegacyPrefix.byte_injective {j k : LegacyPrefix} (h : j.byte = k.byte) : j = k := by
  have hread := congrArg ofByte? h
  rw [ofByte?_byte, ofByte?_byte] at hread
  exact Option.some.inj hread

theorem Prefixes.has_iff {p : Prefixes} {k : LegacyPrefix} : p.has k = true ↔ k.byte ∈ p.bytes := by
  rw [has, List.contains_iff_mem, bytes, List.mem_map]
  constructor
  · intro h
    exact ⟨k, h, rfl⟩
  · rintro ⟨j, hj, heq⟩
    rw [← LegacyPrefix.byte_injective heq]
    exact hj

namespace Encoding

/-- Whether a byte stands for a prefix. -/
def isPrefixByte (b : UInt8) : Bool :=
  (LegacyPrefix.ofByte? b).isSome

/-- The prefix bytes that some bytes begin with. -/
def leading (bs : List UInt8) : List UInt8 :=
  bs.takeWhile isPrefixByte

/-- The bytes from the first that is no prefix on. -/
def body (bs : List UInt8) : List UInt8 :=
  bs.dropWhile isPrefixByte

theorem leading_cons (b : UInt8) (bs : List UInt8) :
    leading (b :: bs) = if isPrefixByte b then b :: leading bs else [] :=
  List.takeWhile_cons

theorem body_cons (b : UInt8) (bs : List UInt8) :
    body (b :: bs) = if isPrefixByte b then body bs else b :: bs :=
  List.dropWhile_cons

theorem push?_of_isPrefixByte {p : Prefixes} {b : UInt8} (hb : isPrefixByte b = true)
    (hroom : p.count < Prefixes.limit) : ∃ q, p.push? b = some q ∧ q.bytes = p.bytes ++ [b] := by
  obtain ⟨k, hk⟩ := Option.isSome_iff_exists.1 hb
  refine ⟨⟨p.kinds ++ [k], by rw [List.length_append]; exact hroom⟩, ?_, ?_⟩
  · rw [Prefixes.push?, hk]
    exact dif_pos hroom
  · rw [Prefixes.bytes, Prefixes.bytes, List.map_append, List.map_singleton,
      LegacyPrefix.byte_of_ofByte? hk]

theorem push?_of_not_isPrefixByte {b : UInt8} (hb : isPrefixByte b = false) (p : Prefixes) :
    p.push? b = none := by
  rw [Prefixes.push?, Option.isNone_iff_eq_none.1 (Option.isSome_eq_false_iff.1 hb)]

/-! ## Reading prefixes -/

/-- Where there is room for all of them, prefixes are read up to the first byte that is none. -/
theorem run_prefixed (room : Nat) :
    ∀ (p : Prefixes) (bs : List UInt8), p.count + room = Prefixes.limit → (leading bs).length ≤ room →
      ∃ q : Prefixes, q.bytes = p.bytes ++ leading bs ∧
        (prefixed room p).run bs =
          match body bs with
          | [] => .incomplete
          | b :: rest => .accepted (q, b) rest := by
  induction room with
  | zero =>
    intro p bs _ hlen
    refine ⟨p, ?_, ?_⟩
    · rw [List.eq_nil_of_length_eq_zero (Nat.le_zero.1 hlen), List.append_nil]
    · cases bs with
      | nil => rfl
      | cons b rest =>
        cases hb : isPrefixByte b with
        | true =>
          rw [leading_cons, hb] at hlen
          cases hlen
        | false =>
          rw [body_cons, hb]
          rfl
  | succ room ih =>
    intro p bs hroom hlen
    cases bs with
    | nil => exact ⟨p, (List.append_nil _).symm, rfl⟩
    | cons b rest =>
      cases hb : isPrefixByte b with
      | false =>
        refine ⟨p, ?_, ?_⟩
        · rw [leading_cons, hb]
          exact (List.append_nil _).symm
        · rw [body_cons, hb, prefixed, Grammar.run_byte_cons, push?_of_not_isPrefixByte hb]
          exact Grammar.run_accept _ _
      | true =>
        have hlead : leading (b :: rest) = b :: leading rest := by
          rw [leading_cons, if_pos hb]
        rw [hlead] at hlen
        obtain ⟨q, hpush, hbytes⟩ := push?_of_isPrefixByte (p := p) hb (by omega)
        have hcount : q.count + room = Prefixes.limit := by
          have hlength := congrArg List.length hbytes
          simp only [Prefixes.bytes, List.length_map, List.length_append, List.length_singleton] at hlength
          rw [Prefixes.count] at hroom ⊢
          omega
        obtain ⟨r, hr, hrun⟩ := ih q rest hcount (Nat.le_of_succ_le_succ hlen)
        refine ⟨r, ?_, ?_⟩
        · rw [hr, hbytes, hlead, List.append_assoc]
          rfl
        · rw [body_cons, if_pos hb, ← hrun, prefixed, Grammar.run_byte_cons, hpush]

/-- An instruction is its leading prefixes and what its body is read as. -/
theorem run_instruction {bs : List UInt8} (h : (leading bs).length ≤ Prefixes.limit) :
    ∃ p : Prefixes, p.bytes = leading bs ∧
      instruction.run bs =
        match body bs with
        | [] => .incomplete
        | b :: rest => (remainder p b).run rest := by
  obtain ⟨p, hbytes, hrun⟩ := run_prefixed Prefixes.limit .empty bs rfl h
  refine ⟨p, hbytes, ?_⟩
  rw [instruction_eq, Grammar.run_andThen, hrun]
  cases body bs with
  | nil => rfl
  | cons b rest => rfl

end Encoding

end CodeAtlas
