import CodeAtlas.Proofs.Decoder.Synonyms
import CodeAtlas.Proofs.Encoding.TwosComplement

/-!
# The addresses that an encoding can describe

A ModRM byte, a SIB byte and a displacement describe an address, with a few numbers that stand for something else:
`rm = 100` calls for a SIB byte, `101` under mode `00` for an address without a base, and an index of `100` is no
index.  So some addresses have no encoding at all, such as those that scale the stack pointer.  This file says
which addresses come out and that each of them does.

* `Address.Expressible` — the addresses in question;
* `ModRM.tableAddress` — the address by the table of modes, and `ModRM.run_address` — what is read is this one;
* `ModRM.tableAddress_expressible` — the address of an encoding is expressible;
* `Address.toModRM`, `Address.toBytes` — an encoding of an address, which reads back as the address
  (`Address.run_toBytes`);
* `addresses_are_exact` — both directions.
-/

namespace CodeAtlas

open Grammar

/-! ## Addresses that can be expressed -/

/-- The stack pointer, whose number cannot stand for an index. -/
def Register.esp : Register :=
  ⟨.dword, 4⟩

/-- The frame pointer, whose number cannot stand for a base without a displacement. -/
def Register.ebp : Register :=
  ⟨.dword, 5⟩

/-- Registers are 32 bits wide, the index is not the stack pointer, a displacement has 32 bits, and where there is
none there is a base other than the frame pointer. -/
structure Address.Expressible (a : Address) : Prop where
  base : ∀ r, a.base = some r → r.width = .dword
  index : ∀ i, a.index = some i →
    i.register.width = .dword ∧ i.register ≠ Register.esp ∧ i.scale.factor ∈ [1, 2, 4, 8]
  displacement : ∀ v, a.displacement = some v → -2 ^ 31 ≤ v ∧ v < 2 ^ 31
  anchored : a.displacement = none → ∃ r, a.base = some r ∧ r ≠ Register.ebp

theorem Scale.factor_mem (s : Scale) : s.factor ∈ [1, 2, 4, 8] := by
  cases s <;> decide

/-! ## The address by the table -/

/-- The number in a field of bytes, where there are any. -/
def LittleEndian.signed? (field : List UInt8) : Option Int :=
  if field = [] then none else some (toInt .signed field)

/-- A field of up to four bytes holds a number of 32 bits. -/
theorem LittleEndian.signed?_bounds {field : List UInt8} (hlen : field.length ≤ 4) {v : Int}
    (h : signed? field = some v) : -2 ^ 31 ≤ v ∧ v < 2 ^ 31 := by
  unfold signed? at h
  split at h
  · cases h
  · next hne =>
    cases h
    have hpos := List.length_pos_of_ne_nil hne
    obtain ⟨hlow, hhigh⟩ := twosComplement_bounds (by omega) (toNat_lt field)
    have hpow : 2 ^ (8 * field.length - 1) ≤ 2 ^ 31 := Nat.pow_le_pow_right (by decide) (by omega)
    rw [toInt_signed]
    rw [two_pow_cast] at hlow hhigh
    omega

namespace ModRM

/-- The base register by the table of modes. -/
def baseRegister (m : ModRM) (s : SIB) : Option Register :=
  if m.mode = 0 ∧ (m.rm = 5 ∨ m.rm = 4 ∧ s.base = 5) then none
  else some ⟨.dword, if m.rm = 4 then s.base else m.rm⟩

/-- The index register and its scale, which only a SIB byte can name. -/
def scaledIndex (m : ModRM) (s : SIB) : Option ScaledIndex :=
  if m.rm = 4 ∧ s.index ≠ 4 then some ⟨⟨.dword, s.index⟩, .ofExponent s.scale⟩ else none

/-- The bytes of the displacement: all the bytes of the address but the SIB byte. -/
def displacementField (m : ModRM) (bs : List UInt8) : List UInt8 :=
  (bs.take (m.addressExtent bs)).drop (if m.rm = 4 then 1 else 0)

/-- The address by the table of modes, from the bytes after the ModRM byte. -/
def tableAddress (m : ModRM) (bs : List UInt8) : Address where
  base := m.baseRegister (SIB.ofByte (bs.headD 0))
  index := m.scaledIndex (SIB.ofByte (bs.headD 0))
  displacement := LittleEndian.signed? (m.displacementField bs)

theorem run_some_number {w : Width} {bs : List UInt8} (h : w.size ≤ bs.length) :
    (some <$> number w .signed : Grammar (Option Int)).run bs =
      .accepted (LittleEndian.signed? (bs.take w.size)) (bs.drop w.size) := by
  have hne : bs.take w.size ≠ [] := by
    intro hnil
    have hlen := congrArg List.length hnil
    rw [List.length_take, List.length_nil] at hlen
    cases w <;> simp only [Width.size] at h hlen <;> omega
  show ((number w .signed).andThen fun v => .accept (some v)).run bs = _
  rw [run_andThen, run_number, if_pos h, LittleEndian.signed?, if_neg hne]
  exact run_accept _ _

/-- The displacement is the number in its bytes. -/
theorem run_displacement {mode : Fin 4} {baseless : Bool} {bs : List UInt8}
    (h : displacementSize mode baseless ≤ bs.length) :
    (displacement mode baseless).run bs =
      .accepted (LittleEndian.signed? (bs.take (displacementSize mode baseless)))
        (bs.drop (displacementSize mode baseless)) := by
  match mode, baseless with
  | 0, true => exact run_some_number (w := .dword) h
  | 0, false => exact run_accept none bs
  | 1, _ => exact run_some_number (w := .byte) h
  | 2, _ => exact run_some_number (w := .dword) h
  | 3, true => exact run_some_number (w := .dword) h
  | 3, false => exact run_accept none bs

theorem baseRegister_of_hasSIB {m : ModRM} (h : m.hasSIB = true) (s : SIB) :
    m.baseRegister s = if s.hasBase m.mode then some ⟨.dword, s.base⟩ else none := by
  have key : ∀ mode rm base, hasSIB ⟨mode, 0, rm⟩ = true →
      baseRegister ⟨mode, 0, rm⟩ ⟨0, 0, base⟩ =
        if SIB.hasBase ⟨0, 0, base⟩ mode then some ⟨.dword, base⟩ else none := by
    decide
  exact key m.mode m.rm s.base h

theorem baseRegister_of_not_hasSIB {m : ModRM} (hm : m.isRegister = false) (h : m.hasSIB = false) (s : SIB) :
    m.baseRegister s = if m.isAbsolute then none else some ⟨.dword, m.rm⟩ := by
  have key : ∀ mode rm base, isRegister ⟨mode, 0, rm⟩ = false → hasSIB ⟨mode, 0, rm⟩ = false →
      baseRegister ⟨mode, 0, rm⟩ ⟨0, 0, base⟩ =
        if isAbsolute ⟨mode, 0, rm⟩ then none else some ⟨.dword, rm⟩ := by
    decide
  exact key m.mode m.rm s.base hm h

theorem hasSIB_iff {m : ModRM} (h : m.isRegister = false) : m.hasSIB = true ↔ m.rm = 4 := by
  unfold isRegister at h
  simp only [hasSIB, bne, h, Bool.not_false, Bool.true_and, beq_iff_eq]

theorem scaledIndex_of_hasSIB {m : ModRM} (h : m.rm = 4) (s : SIB) :
    m.scaledIndex s = if s.hasIndex then some ⟨⟨.dword, s.index⟩, .ofExponent s.scale⟩ else none := by
  simp only [scaledIndex, h, true_and, SIB.hasIndex, bne_iff_ne]

theorem run_address_of_hasSIB {m : ModRM} (h : m.isRegister = false) (hsib : m.hasSIB = true) {b : UInt8}
    {bs : List UInt8} (hlen : m.addressExtent (b :: bs) ≤ bs.length + 1) :
    m.address.run (b :: bs) = .accepted (m.tableAddress (b :: bs)) ((b :: bs).drop (m.addressExtent (b :: bs))) := by
  have hrm : m.rm = 4 := (hasSIB_iff h).1 hsib
  have hbase := baseRegister_of_hasSIB hsib (SIB.ofByte b)
  have hindex := scaledIndex_of_hasSIB hrm (SIB.ofByte b)
  have hnone : (!(SIB.ofByte b).hasBase m.mode) = (m.baseRegister (SIB.ofByte b)).isNone := by
    rw [hbase]
    cases (SIB.ofByte b).hasBase m.mode <;> rfl
  have hsize : m.addressExtent (b :: bs) =
      displacementSize m.mode (m.baseRegister (SIB.ofByte b)).isNone + 1 := by
    rw [← hnone, Nat.add_comm]
    exact addressSize_of_hasSIB hsib (SIB.ofByte b)
  rw [hsize] at hlen
  rw [ModRM.address, if_neg (Bool.eq_false_iff.1 h), if_pos hsib, tableAddress, displacementField, hsize, if_pos hrm]
  show ((displacement m.mode _).andThen _).run bs = _
  rw [← hbase, ← hindex, run_andThen, run_displacement (Nat.le_of_succ_le_succ hlen)]
  exact run_accept _ _

theorem run_address_of_not_hasSIB {m : ModRM} (h : m.isRegister = false) (hsib : m.hasSIB = false)
    {bs : List UInt8} (hlen : m.addressExtent bs ≤ bs.length) :
    m.address.run bs = .accepted (m.tableAddress bs) (bs.drop (m.addressExtent bs)) := by
  have hrm : m.rm ≠ 4 := by
    intro hrm
    cases hsib.symm.trans ((hasSIB_iff h).2 hrm)
  have hbase := baseRegister_of_not_hasSIB h hsib (SIB.ofByte (bs.headD 0))
  have hindex : m.scaledIndex (SIB.ofByte (bs.headD 0)) = none := if_neg fun hboth => hrm hboth.1
  have hnone : m.isAbsolute = (m.baseRegister (SIB.ofByte (bs.headD 0))).isNone := by
    rw [hbase]
    cases m.isAbsolute <;> rfl
  have hsize : m.addressExtent bs =
      displacementSize m.mode (m.baseRegister (SIB.ofByte (bs.headD 0))).isNone := by
    rw [← hnone]
    exact addressSize_of_not_hasSIB h hsib _
  rw [hsize] at hlen
  rw [ModRM.address, if_neg (Bool.eq_false_iff.1 h), if_neg (Bool.eq_false_iff.1 hsib), tableAddress,
    displacementField, hsize, if_neg hrm, hindex]
  show ((displacement m.mode _).andThen _).run bs = _
  rw [← hbase, run_andThen, run_displacement hlen]
  exact run_accept _ _

/-- **What is read is the address of the table.** -/
theorem run_address {m : ModRM} (h : m.isRegister = false) {bs : List UInt8}
    (hlen : m.addressExtent bs ≤ bs.length) :
    m.address.run bs = .accepted (m.tableAddress bs) (bs.drop (m.addressExtent bs)) := by
  cases hsib : m.hasSIB with
  | false => exact run_address_of_not_hasSIB h hsib hlen
  | true =>
    cases bs with
    | cons b bs => exact run_address_of_hasSIB h hsib hlen
    | nil =>
      -- a SIB byte is never missing where there are bytes enough
      have hsize : m.addressExtent [] = _ := addressSize_of_hasSIB hsib (SIB.ofByte 0)
      rw [hsize, List.length_nil] at hlen
      omega

/-! ## The address of an encoding is expressible -/

/-- An address has four bytes of displacement at most. -/
theorem length_displacementField_le (m : ModRM) (bs : List UInt8) : (m.displacementField bs).length ≤ 4 := by
  have key : ∀ mode rm base, addressSize ⟨mode, 0, rm⟩ base ≤ 4 + if rm = 4 then 1 else 0 := by decide
  have hsize : m.addressExtent bs ≤ 4 + if m.rm = 4 then 1 else 0 := key m.mode m.rm _
  rw [displacementField, List.length_drop, List.length_take]
  omega

/-- Without a displacement there is a base other than the frame pointer. -/
theorem exists_baseRegister {m : ModRM} (h : m.isRegister = false) {bs : List UInt8}
    (hlen : m.addressExtent bs ≤ bs.length) (hnone : m.displacementField bs = []) :
    ∃ r, m.baseRegister (SIB.ofByte (bs.headD 0)) = some r ∧ r ≠ Register.ebp := by
  have key : ∀ mode rm base, isRegister ⟨mode, 0, rm⟩ = false →
      addressSize ⟨mode, 0, rm⟩ base ≤ (if rm = 4 then 1 else 0) →
      baseRegister ⟨mode, 0, rm⟩ ⟨0, 0, base⟩ ≠ none ∧
        baseRegister ⟨mode, 0, rm⟩ ⟨0, 0, base⟩ ≠ some Register.ebp := by
    decide
  have hsize : m.addressExtent bs ≤ if m.rm = 4 then 1 else 0 := by
    have hfield := congrArg List.length hnone
    rw [displacementField, List.length_drop, List.length_take, List.length_nil] at hfield
    omega
  obtain ⟨hsome, hne⟩ := key m.mode m.rm _ h hsize
  obtain ⟨r, hr⟩ := Option.ne_none_iff_exists'.1 hsome
  refine ⟨r, hr, ?_⟩
  intro hebp
  exact hne (hr.trans (congrArg some hebp))

theorem tableAddress_expressible {m : ModRM} (h : m.isRegister = false) {bs : List UInt8}
    (hlen : m.addressExtent bs ≤ bs.length) : (m.tableAddress bs).Expressible where
  base := by
    intro r hr
    simp only [tableAddress, baseRegister] at hr
    split at hr
    · cases hr
    · cases hr
      rfl
  index := by
    intro i hi
    simp only [tableAddress, scaledIndex] at hi
    split at hi
    · next hboth =>
      cases hi
      refine ⟨rfl, ?_, ?_⟩
      · intro hesp
        exact hboth.2 (congrArg Register.number hesp)
      · exact Scale.factor_mem _
    · cases hi
  displacement := fun v hv => LittleEndian.signed?_bounds (m.length_displacementField_le bs) hv
  anchored := by
    intro hnone
    refine exists_baseRegister h hlen ?_
    by_contra hne
    simp only [tableAddress, LittleEndian.signed?, if_neg hne, reduceCtorEq] at hnone

end ModRM

/-! ## An encoding of an address -/

/-- The exponent of a scale. -/
def Scale.exponent : Scale → Fin 4
  | one => 0
  | two => 1
  | four => 2
  | eight => 3

/-- The byte of three fields. -/
def SIB.toByte (s : SIB) : UInt8 :=
  ModRM.toByte ⟨s.scale, s.index, s.base⟩

theorem SIB.ofByte_toByte (s : SIB) : ofByte s.toByte = s :=
  congrArg (fun m : ModRM => SIB.mk m.mode m.reg m.rm) (ModRM.ofByte_toByte ⟨s.scale, s.index, s.base⟩)

namespace Address

/-- The number in the place of the base register, which is `101` where there is none. -/
def baseNumber (a : Address) : Fin 8 :=
  a.base.elim 5 Register.number

/-- Whether an encoding needs a SIB byte: for an index, or for the number of a base that calls for one. -/
def needsSIB (a : Address) : Bool :=
  a.index.isSome || a.baseNumber == 4

/-- The ModRM byte: mode `10` for a base with a displacement, else mode `00`. -/
def toModRM (a : Address) (reg : Fin 8) : ModRM where
  mode := if a.base.isSome && a.displacement.isSome then 2 else 0
  reg := reg
  rm := if a.needsSIB then 4 else a.baseNumber

/-- The SIB byte, with an index of `100` where there is none. -/
def toSIB (a : Address) : SIB where
  scale := a.index.elim 0 fun i => i.scale.exponent
  index := a.index.elim 4 fun i => i.register.number
  base := a.baseNumber

/-- The bytes of the displacement, which are four. -/
def displacementBytes (a : Address) : List UInt8 :=
  a.displacement.elim [] (LittleEndian.ofInt 4)

/-- The bytes after the ModRM byte: the SIB byte, if one is needed, and those of the displacement. -/
def toBytes (a : Address) : List UInt8 :=
  (if a.needsSIB then [a.toSIB.toByte] else []) ++ a.displacementBytes

variable {a : Address}

/-- The shapes of an expressible address: a displacement alone, a base with one, and a base without one, which is
not the frame pointer. -/
theorem Expressible.shape (h : a.Expressible) :
    (∃ v, a.base = none ∧ a.displacement = some v) ∨
    (∃ n v, a.base = some ⟨.dword, n⟩ ∧ a.displacement = some v) ∨
    ∃ n, n ≠ 5 ∧ a.base = some ⟨.dword, n⟩ ∧ a.displacement = none := by
  have hregister : ∀ r, a.base = some r → r = ⟨.dword, r.number⟩ := by
    intro r hr
    rw [← h.base r hr]
  cases hdisplacement : a.displacement with
  | none =>
    obtain ⟨r, hr, hne⟩ := h.anchored hdisplacement
    have hshape := hregister r hr
    refine Or.inr (Or.inr ⟨r.number, ?_, hr.trans (congrArg some hshape), rfl⟩)
    intro hfive
    rw [hfive] at hshape
    exact hne hshape
  | some v =>
    cases hbase : a.base with
    | none => exact Or.inl ⟨v, rfl, rfl⟩
    | some r => exact Or.inr (Or.inl ⟨r.number, v, congrArg some (hregister r hbase), rfl⟩)

theorem baseNumber_ne_four (h : a.needsSIB = false) : a.baseNumber ≠ 4 := by
  simp only [needsSIB, Bool.or_eq_false_iff, beq_eq_false_iff_ne] at h
  exact h.2

theorem isRegister_toModRM (a : Address) (reg : Fin 8) : (a.toModRM reg).isRegister = false := by
  unfold toModRM
  cases a.base.isSome && a.displacement.isSome <;> rfl

theorem rm_toModRM_eq_four_iff (reg : Fin 8) : (a.toModRM reg).rm = 4 ↔ a.needsSIB = true := by
  unfold toModRM
  cases h : a.needsSIB with
  | true => simp
  | false => simp [baseNumber_ne_four h]

/-- Where there is a SIB byte, it is the first of the bytes. -/
theorem sib_toBytes (h : a.needsSIB = true) (rest : List UInt8) :
    SIB.ofByte ((a.toBytes ++ rest).headD 0) = a.toSIB := by
  rw [toBytes, if_pos h]
  exact a.toSIB.ofByte_toByte

section

variable (h : a.Expressible) (reg : Fin 8) {s : SIB} (hs : a.needsSIB = true → s = a.toSIB)

include h hs

/-- The base reads back. -/
theorem baseRegister_toModRM : (a.toModRM reg).baseRegister s = a.base := by
  -- the number of the base stands in one of two places
  have key : ∀ (sib : Bool) (mode : Fin 4) (number base : Fin 8), (sib = false → number ≠ 4) →
      (sib = true → base = number) → ModRM.baseRegister ⟨mode, 0, if sib then 4 else number⟩ ⟨0, 0, base⟩ =
        if mode = 0 ∧ number = 5 then none else some ⟨.dword, number⟩ := by
    decide
  have hplace := key a.needsSIB (a.toModRM reg).mode a.baseNumber s.base baseNumber_ne_four
    fun hsib => congrArg SIB.base (hs hsib)
  refine hplace.trans ?_
  rcases h.shape with ⟨v, hbase, hdisplacement⟩ | ⟨n, v, hbase, hdisplacement⟩ | ⟨n, hne, hbase, hdisplacement⟩
  · simp [toModRM, baseNumber, hbase]
  · simp [toModRM, baseNumber, hbase, hdisplacement]
  · simp [toModRM, baseNumber, hbase, hdisplacement, hne]

/-- The index reads back. -/
theorem scaledIndex_toModRM : (a.toModRM reg).scaledIndex s = a.index := by
  simp only [ModRM.scaledIndex, rm_toModRM_eq_four_iff]
  cases hindex : a.index with
  | none =>
    rw [if_neg]
    intro hboth
    rw [hs hboth.1] at hboth
    simp [toSIB, hindex] at hboth
  | some i =>
    have hsib : a.needsSIB = true := by simp [needsSIB, hindex]
    obtain ⟨hwidth, hesp, -⟩ := h.index i hindex
    have hregister : i.register = ⟨.dword, i.register.number⟩ := by rw [← hwidth]
    have hne : i.register.number ≠ 4 := by
      intro hfour
      rw [hfour] at hregister
      exact hesp hregister
    have hscale : Scale.ofExponent i.scale.exponent = i.scale := by cases i.scale <;> rfl
    rw [hs hsib]
    simp only [toSIB, hindex, Option.elim, hscale, hsib, true_and, if_pos hne]
    rw [← hregister]

/-- The table counts the bytes of the encoding. -/
theorem addressSize_toModRM : (a.toModRM reg).addressSize s.base =
    (if a.needsSIB then 1 else 0) + if a.displacement = none then 0 else 4 := by
  have key : ∀ (sib : Bool) (mode : Fin 4) (number base : Fin 8), (sib = false → number ≠ 4) →
      (sib = true → base = number) →
      (mode = 0 → ModRM.addressSize ⟨mode, 0, if sib then 4 else number⟩ base =
        (if sib then 1 else 0) + if number ≠ 5 then 0 else 4) ∧
      (mode = 2 → ModRM.addressSize ⟨mode, 0, if sib then 4 else number⟩ base = (if sib then 1 else 0) + 4) := by
    decide
  obtain ⟨hzero, htwo⟩ := key a.needsSIB (a.toModRM reg).mode a.baseNumber s.base baseNumber_ne_four
    fun hsib => congrArg SIB.base (hs hsib)
  rcases h.shape with ⟨v, hbase, hdisplacement⟩ | ⟨n, v, hbase, hdisplacement⟩ | ⟨n, hne, hbase, hdisplacement⟩
  · refine (hzero (by simp [toModRM, hbase])).trans ?_
    simp [baseNumber, hbase, hdisplacement]
  · refine (htwo (by simp [toModRM, hbase, hdisplacement])).trans ?_
    simp [hdisplacement]
  · refine (hzero (by simp [toModRM, hbase, hdisplacement])).trans ?_
    simp [baseNumber, hbase, hdisplacement, hne]

end

theorem length_toBytes (a : Address) :
    a.toBytes.length = (if a.needsSIB then 1 else 0) + if a.displacement = none then 0 else 4 := by
  unfold toBytes displacementBytes
  cases a.needsSIB <;> cases a.displacement <;> rfl

theorem drop_toBytes (a : Address) (reg : Fin 8) :
    a.toBytes.drop (if (a.toModRM reg).rm = 4 then 1 else 0) = a.displacementBytes := by
  simp only [rm_toModRM_eq_four_iff, toBytes]
  cases a.needsSIB <;> rfl

/-- The displacement reads back. -/
theorem Expressible.signed?_displacementBytes (h : a.Expressible) :
    LittleEndian.signed? a.displacementBytes = a.displacement := by
  unfold displacementBytes
  cases hdisplacement : a.displacement with
  | none => rfl
  | some v =>
    obtain ⟨hlow, hhigh⟩ := h.displacement v hdisplacement
    have hne : LittleEndian.ofInt 4 v ≠ [] := List.cons_ne_nil _ _
    show LittleEndian.signed? (LittleEndian.ofInt 4 v) = some v
    rw [LittleEndian.signed?, if_neg hne, LittleEndian.toInt_ofInt (by decide) hlow hhigh]

/-- **The encoding of an address reads back** as the address, to its last byte. -/
theorem run_toBytes (h : a.Expressible) (reg : Fin 8) (rest : List UInt8) :
    (a.toModRM reg).address.run (a.toBytes ++ rest) = .accepted a rest := by
  have hs : a.needsSIB = true → SIB.ofByte ((a.toBytes ++ rest).headD 0) = a.toSIB :=
    fun hsib => sib_toBytes hsib rest
  have hextent : (a.toModRM reg).addressExtent (a.toBytes ++ rest) = a.toBytes.length :=
    (addressSize_toModRM h reg hs).trans a.length_toBytes.symm
  have hlen : (a.toModRM reg).addressExtent (a.toBytes ++ rest) ≤ (a.toBytes ++ rest).length := by
    rw [hextent, List.length_append]
    omega
  have hfield : (a.toModRM reg).displacementField (a.toBytes ++ rest) = a.displacementBytes := by
    rw [ModRM.displacementField, hextent, List.take_left, drop_toBytes]
  rw [ModRM.run_address (a.isRegister_toModRM reg) hlen, hextent, List.drop_left, ModRM.tableAddress,
    baseRegister_toModRM h reg hs, scaledIndex_toModRM h reg hs, hfield, h.signed?_displacementBytes]

end Address

/-- **Addresses are exact.**  A ModRM byte whose mode is not `11`, with bytes enough after it, is read as an address:
as many bytes are taken as the table of modes says, the base and the index are those of the table, the displacement
is the number that the bytes after the SIB byte hold in two's complement, and the address is expressible.  With
too few bytes more are asked for.  And every expressible address is read from some bytes, whatever the `reg` field. -/
theorem addresses_are_exact :
    (∀ (b : UInt8) (bs : List UInt8),
      let m := ModRM.ofByte b
      let sib := SIB.ofByte (bs.headD 0)
      let field := m.displacementField bs
      m.mode ≠ 3 →
        (m.addressExtent bs ≤ bs.length → ∃ a,
          m.address.run bs = .accepted a (bs.drop (m.addressExtent bs)) ∧ a.Expressible ∧
          a.base = m.baseRegister sib ∧ a.index = m.scaledIndex sib ∧
          a.displacement =
            if field = [] then none else some (twosComplement (8 * field.length) (LittleEndian.toNat field))) ∧
        (bs.length < m.addressExtent bs → m.address.run bs = .incomplete)) ∧
    ∀ (a : Address) (reg : Fin 8), a.Expressible → ∃ (b : UInt8) (bs : List UInt8),
      (ModRM.ofByte b).mode ≠ 3 ∧ (ModRM.ofByte b).reg = reg ∧
      ∀ rest, (ModRM.ofByte b).address.run (bs ++ rest) = .accepted a rest := by
  constructor
  · intro b bs m sib field hmode
    have hm : m.isRegister = false := beq_eq_false_iff_ne.2 hmode
    refine ⟨?_, (ModRM.address_spans hm).asks bs⟩
    intro hlen
    refine ⟨_, ModRM.run_address hm hlen, ModRM.tableAddress_expressible hm hlen, rfl, rfl, ?_⟩
    show LittleEndian.signed? field = _
    rw [LittleEndian.signed?, LittleEndian.toInt_signed]
  · intro a reg ha
    have hbyte := ModRM.ofByte_toByte (a.toModRM reg)
    refine ⟨(a.toModRM reg).toByte, a.toBytes, ?_, ?_, ?_⟩
    · rw [hbyte]
      exact beq_eq_false_iff_ne.1 (a.isRegister_toModRM reg)
    · rw [hbyte]
      rfl
    · intro rest
      rw [hbyte]
      exact Address.run_toBytes ha reg rest

/-- The law at work where the special numbers meet: a SIB byte with an index but no base, under the least
displacement, and the stack pointer as a base without a displacement. -/
theorem addresses_are_exact_corners :
    (∃ a, (ModRM.ofByte 0x04).address.run [0x8D, 0x00, 0x00, 0x00, 0x80, 0x90] = .accepted a [0x90] ∧
      a.Expressible ∧ a.base = none ∧ a.index = some ⟨⟨.dword, 1⟩, .four⟩ ∧ a.displacement = some (-2147483648)) ∧
    ∃ (b : UInt8) (bs : List UInt8), (ModRM.ofByte b).mode ≠ 3 ∧ (ModRM.ofByte b).reg = 6 ∧
      ∀ rest, (ModRM.ofByte b).address.run (bs ++ rest) = .accepted ⟨some .esp, none, none⟩ rest := by
  obtain ⟨hread, hwritten⟩ := addresses_are_exact
  constructor
  · obtain ⟨a, hrun, hexpressible, hbase, hindex, hdisplacement⟩ :=
      (hread 0x04 [0x8D, 0x00, 0x00, 0x00, 0x80, 0x90] (by decide)).1 (by decide)
    refine ⟨a, hrun, hexpressible, hbase.trans rfl, hindex.trans rfl, hdisplacement.trans rfl⟩
  · have hesp : Address.Expressible ⟨some .esp, none, none⟩ := by
      refine ⟨?_, ?_, ?_, ?_⟩
      · intro r hr
        cases hr
        rfl
      · intro i hi
        cases hi
      · intro v hv
        cases hv
      · exact fun _ => ⟨.esp, rfl, by decide⟩
    exact hwritten _ 6 hesp

end CodeAtlas
