import CodeAtlas.Proofs.Decoder.Anatomy

/-!
# The length of an encoding

The decoder never computes a length: it is where the cursor stands after the last byte was asked for.  A table
tells the same length from the first few bytes of an encoding.

* `Encoding.tableLength` — the length by the table: prefixes, opcode, ModRM byte with its address, immediates;
* `Opcode.size_add_extent_le` — no opcode is followed by more than the table allows for the longest;
* `decodeSingle_length` — what is decoded has the length of the table, from one to fifteen bytes.
-/

namespace CodeAtlas

open Grammar Encoding

/-- The length of an encoding by the table. -/
def Encoding.tableLength (bs : List UInt8) : Nat :=
  match opcode? bs with
  | none => 0
  | some (o, tail) =>
    (prefixesOf bs).length + o.size + (if o.hasModRM then ModRM.extent tail else 0)
      + o.immediateSize ((prefixesOf bs).contains 0x66) (ModRM.regOf tail)

/-! ## Bounds -/

theorem ModRM.extent_le (bs : List UInt8) : ModRM.extent bs ≤ 6 := by
  have h : ∀ mode rm base, addressSize ⟨mode, 0, rm⟩ base ≤ 5 := by decide
  have hsize : (ofByte (bs.headD 0)).addressExtent bs.tail ≤ 5 :=
    h (ofByte (bs.headD 0)).mode (ofByte (bs.headD 0)).rm (SIB.ofByte (bs.tail.headD 0)).base
  rw [extent]
  omega

theorem Opcode.immediateSize_le (o : Opcode) (override : Bool) (reg : Fin 8) : o.immediateSize override reg ≤ 4 := by
  unfold immediateSize
  split
  · split <;> decide
  · split
    · decide
    · split <;> decide

/-- After the escape `0F` no opcode has both a ModRM byte and a field of the operand size. -/
theorem Opcode.hasSizedField_of_hasModRM {b : UInt8} (h : (secondary b).hasModRM = true) (reg : Fin 8) :
    (secondary b).hasSizedField reg = false := by
  have key : ∀ n : Fin 256, (secondary (UInt8.ofFin n)).hasModRM = true →
      (secondary (UInt8.ofFin n)).hasSizedField 0 = false := by decide +kernel
  exact key b.toFin h

/-- An opcode and what follows it have eleven bytes at most. -/
theorem Opcode.size_add_extent_le (o : Opcode) (override : Bool) (bs : List UInt8) :
    o.size + o.extent override bs ≤ 11 := by
  have hmodRM := ModRM.extent_le bs
  have himmediate := o.immediateSize_le override (ModRM.regOf bs)
  unfold extent
  cases o with
  | primary b =>
    show 1 + (_ + _) ≤ 11
    split <;> omega
  | secondary b =>
    show 2 + (_ + _) ≤ 11
    split
    · next h =>
      have hsmall : (secondary b).immediateSize override (ModRM.regOf bs) ≤ 1 := by
        unfold immediateSize
        rw [hasSizedField_of_hasModRM h, if_neg Bool.false_ne_true]
        split <;> simp
      omega
    · omega
  | tertiary b =>
    show 3 + (0 + _) ≤ 11
    omega

/-! ## The law -/

theorem Prefixes.contains_operandSize (p : Prefixes) : p.bytes.contains 0x66 = p.has .operandSize := by
  rw [Bool.eq_iff_iff, List.contains_iff_mem, has_iff]
  rfl

theorem Prefixes.length_bytes (p : Prefixes) : p.bytes.length = p.count :=
  List.length_map _

/-- What is decoded has the length of the table. -/
theorem length_eq_tableLength {bs : List UInt8} {a : UInt64} {d : Decoded} (hd : decodeSingle bs a = .ok d) :
    d.length = tableLength bs ∧ 1 ≤ d.length ∧ d.length ≤ 15 := by
  obtain ⟨o, tail, rest, hprefixes, hopcode, hread, hlength⟩ := exists_parts hd
  obtain ⟨hle, hrest⟩ := Opcode.rest_eq_drop hread
  have hsum : d.length = d.prefixes.count + o.size + o.extent (d.prefixes.has .operandSize) tail := by
    rw [hrest, List.length_drop] at hlength
    omega
  have hcount : d.prefixes.count ≤ 4 := d.prefixes.length_le
  have hsize := o.size_add_extent_le (d.prefixes.has .operandSize) tail
  have hpos : 1 ≤ o.size := by cases o <;> simp [Opcode.size]
  refine ⟨?_, by omega, by omega⟩
  rw [hsum, tableLength, hopcode, ← hprefixes, d.prefixes.contains_operandSize, d.prefixes.length_bytes]
  exact (Nat.add_assoc _ _ _).symm

/-- A locked addition of an immediate to memory, with as many prefixes as there is room for. -/
def longestEncoding : List UInt8 :=
  [0xF0, 0xF0, 0xF0, 0xF0, 0x81, 0x84, 0x24, 0, 0, 0, 0, 0, 0, 0, 0]

/-- **The length law.**  An encoding has as many bytes as the table says.  Of these the prefixes are those at the
front, counted up to four, and are recorded.  There is one byte at least and there are fifteen at most, and
some encoding has fifteen. -/
theorem decodeSingle_length (a : UInt64) :
    (∀ bs d, decodeSingle bs a = .ok d →
      d.length = tableLength bs ∧ d.prefixes.bytes = prefixesOf bs ∧
        d.prefixes.count = (prefixesOf bs).length ∧ 1 ≤ d.length ∧ d.length ≤ 15) ∧
    ∃ bs d, decodeSingle bs a = .ok d ∧ d.length = 15 := by
  constructor
  · intro bs d hd
    obtain ⟨htable, hlow, hhigh⟩ := length_eq_tableLength hd
    obtain ⟨o, tail, rest, hprefixes, -⟩ := exists_parts hd
    refine ⟨htable, hprefixes, ?_, hlow, hhigh⟩
    rw [← hprefixes, d.prefixes.length_bytes]
  · have hrun : ∃ p i, instruction.run longestEncoding = .accepted (p, i) [] := ⟨_, _, rfl⟩
    obtain ⟨p, i, hrun⟩ := hrun
    exact ⟨longestEncoding, _, decodeSingle_of_run hrun a, rfl⟩

/-- A double shift of a word in memory: two prefixes, two bytes of opcode, a ModRM byte with a SIB byte and a
displacement of four bytes, and a count. -/
theorem decodeSingle_length_doubleShift :
    ∃ d, decodeSingle [0x66, 0xF2, 0x0F, 0xA4, 0x04, 0x8D, 0x00, 0x10, 0x00, 0x00, 0x05, 0x90] 0 = .ok d ∧
      d.length = tableLength [0x66, 0xF2, 0x0F, 0xA4, 0x04, 0x8D, 0x00, 0x10, 0x00, 0x00, 0x05, 0x90] ∧
      d.length = 11 ∧ d.prefixes.count = 2 := by
  have hd : ∃ d, decodeSingle [0x66, 0xF2, 0x0F, 0xA4, 0x04, 0x8D, 0x00, 0x10, 0x00, 0x00, 0x05, 0x90] 0 =
      .ok d := ⟨_, decodeSingle_of_run rfl 0⟩
  obtain ⟨d, hd⟩ := hd
  obtain ⟨htable, -, hcount, -⟩ := (decodeSingle_length 0).1 _ d hd
  exact ⟨d, hd, htable, htable, hcount⟩

end CodeAtlas
