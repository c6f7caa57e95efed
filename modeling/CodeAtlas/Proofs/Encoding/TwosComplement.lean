import CodeAtlas.Encoding.LittleEndian
import CodeAtlas.Machine.Operand
import Mathlib.Algebra.Order.Group.Nat
import Mathlib.Tactic.Ring

/-!
# Numbers in fields

A field of bytes holds a plain number, least significant byte first, and the same field holds a signed number in
two's complement.  The signed reading is computed with a balanced remainder; here it is the textbook rule, which
takes two to the number of bits away if the top bit is set.

* `twosComplement` — the rule, with the range of its results (`twosComplement_bounds`);
* `LittleEndian.toNat_lt`, `LittleEndian.toInt_signed` — what a field holds;
* `LittleEndian.ofInt` — the field of a number, which reads back as the number (`toInt_ofInt`);
* `Constant.HeldBy` — a constant and the field it was read from: the encoded bits are those of the field, whatever
  the signedness (`HeldBy.bits_eq`), and the value is what they stand for (`HeldBy.value_eq`).
-/

namespace CodeAtlas

/-- The number that the bits of `n`, which are `w` in number, stand for in two's complement. -/
def twosComplement (w n : Nat) : Int :=
  if n < 2 ^ (w - 1) then (n : Int) else (n : Int) - 2 ^ w

theorem two_pow_cast (n : Nat) : (2 : Int) ^ n = ((2 ^ n : Nat) : Int) := by
  push_cast
  rfl

/-- Half of the numbers of `w` bits lie below zero. -/
theorem twosComplement_bounds {w n : Nat} (hw : 0 < w) (hn : n < 2 ^ w) :
    -2 ^ (w - 1) ≤ twosComplement w n ∧ twosComplement w n < 2 ^ (w - 1) := by
  obtain ⟨k, rfl⟩ := Nat.exists_eq_succ_of_ne_zero (Nat.ne_of_gt hw)
  rw [Nat.pow_succ] at hn
  simp only [twosComplement, Nat.succ_sub_one, Nat.succ_eq_add_one, two_pow_cast, Nat.pow_succ]
  split <;> omega

namespace LittleEndian

/-! ## What a field holds -/

theorem toNat_lt (bs : List UInt8) : toNat bs < 2 ^ (8 * bs.length) := by
  induction bs with
  | nil => exact Nat.one_pos
  | cons b bs ih =>
    have hb := b.toNat_lt
    have hpow : 2 ^ (8 * (b :: bs).length) = 256 * 2 ^ (8 * bs.length) := by
      rw [List.length_cons, Nat.mul_succ, Nat.pow_add]
      exact Nat.mul_comm _ _
    rw [toNat, hpow]
    omega

theorem pow_length (bs : List UInt8) : Nat.pow 256 bs.length = 2 ^ (8 * bs.length) :=
  (Nat.pow_mul 2 8 bs.length).symm

/-- **The signed reading** of a field is two's complement over all its bits. -/
theorem toInt_signed (bs : List UInt8) : toInt .signed bs = twosComplement (8 * bs.length) (toNat bs) := by
  have hlt := toNat_lt bs
  rw [toInt, pow_length, Int.bmod_def, twosComplement]
  have hmod : Int.ofNat (toNat bs) % ((2 ^ (8 * bs.length) : Nat) : Int) = (toNat bs : Int) :=
    Int.emod_eq_of_lt (Int.natCast_nonneg _) (Int.ofNat_lt.2 hlt)
  rw [hmod]
  cases bs with
  | nil => rfl
  | cons b bs =>
    have hpow : 2 ^ (8 * (b :: bs).length) = 2 * 2 ^ (8 * (b :: bs).length - 1) := by
      rw [← Nat.pow_succ']
      rfl
    rw [two_pow_cast, hpow]
    split <;> split <;> omega

/-! ## The field of a number -/

/-- The first `size` bytes of a number, least significant byte first. -/
def ofNat : (size : Nat) → Nat → List UInt8
  | 0, _ => []
  | size + 1, n => UInt8.ofNat n :: ofNat size (n / 256)

/-- The field of `size` bytes that a number has in two's complement. -/
def ofInt (size : Nat) (v : Int) : List UInt8 :=
  ofNat size (v % Int.ofNat (256 ^ size)).toNat

theorem length_ofNat (size : Nat) : ∀ n, (ofNat size n).length = size := by
  induction size with
  | zero => exact fun n => rfl
  | succ size ih => exact fun n => congrArg (· + 1) (ih (n / 256))

theorem length_ofInt (size : Nat) (v : Int) : (ofInt size v).length = size :=
  length_ofNat size _

theorem toNat_ofNat (size : Nat) : ∀ n, toNat (ofNat size n) = n % 256 ^ size := by
  induction size with
  | zero =>
    intro n
    rw [Nat.pow_zero, Nat.mod_one]
    rfl
  | succ size ih =>
    intro n
    have hbyte : (UInt8.ofNat n).toNat = n % 256 := UInt8.toNat_ofNat'
    rw [ofNat, toNat, ih, hbyte, Nat.pow_succ', Nat.mod_mul]

/-- **A number reads back** from its field if the field has room for it. -/
theorem toInt_ofInt {size : Nat} (hsize : 0 < size) {v : Int} (hlow : -2 ^ (8 * size - 1) ≤ v)
    (hhigh : v < 2 ^ (8 * size - 1)) : toInt .signed (ofInt size v) = v := by
  have hpos : (0 : Int) < Int.ofNat (256 ^ size) := Int.ofNat_lt.2 (Nat.pow_pos (by decide))
  have hvalue : Int.ofNat (toNat (ofInt size v)) = v % Int.ofNat (256 ^ size) := by
    have hnonneg := Int.emod_nonneg v (Int.ne_of_gt hpos)
    have hless : (v % Int.ofNat (256 ^ size)).toNat < 256 ^ size :=
      (Int.toNat_lt hnonneg).2 (Int.emod_lt_of_pos v hpos)
    rw [ofInt, toNat_ofNat, Nat.mod_eq_of_lt hless]
    exact Int.toNat_of_nonneg hnonneg
  have hhalves : 256 ^ size = 2 * 2 ^ (8 * size - 1) := by
    rw [← Nat.pow_succ', Nat.succ_eq_add_one, Nat.sub_add_cancel (by omega), Nat.pow_mul]
  rw [two_pow_cast] at hlow hhigh
  show Int.bmod (Int.ofNat (toNat (ofInt size v))) (256 ^ (ofInt size v).length) = v
  rw [hvalue, length_ofInt]
  show Int.bmod (v % ((256 ^ size : Nat) : Int)) (256 ^ size) = v
  rw [Int.emod_bmod, hhalves]
  exact Int.bmod_eq_of_le (by omega) (by omega)

end LittleEndian

/-! ## Constants -/

theorem Width.contents_eq (w : Width) : w.contents = 2 ^ w.bits := by
  cases w <;> rfl

namespace Constant

/-- The field, which is as long as the constant is wide, holds the value under the signedness. -/
structure HeldBy (c : Constant) (field : List UInt8) : Prop where
  length : field.length = c.width.size
  value : c.value = LittleEndian.toInt c.signedness field

/-- The value that the encoded bits stand for. -/
def reading (c : Constant) : Int :=
  match c.signedness with
  | .signed => twosComplement c.width.bits c.bits
  | .unsigned => c.bits

variable {c : Constant} {field : List UInt8}

/-- **The bits of a constant** are those of its field, whatever the signedness. -/
theorem HeldBy.bits_eq (h : c.HeldBy field) : c.bits = LittleEndian.toNat field := by
  have hlt := LittleEndian.toNat_lt field
  have hcontents : 2 ^ (8 * field.length) = c.width.contents := by
    rw [h.length, Width.contents_eq]
    rfl
  rw [hcontents] at hlt
  have hplain : (LittleEndian.toNat field : Int) % (c.width.contents : Int) = (LittleEndian.toNat field : Int) :=
    Int.emod_eq_of_lt (Int.natCast_nonneg _) (Int.ofNat_lt.2 hlt)
  have hmod : c.value % (c.width.contents : Int) = (LittleEndian.toNat field : Int) := by
    rw [h.value]
    cases c.signedness with
    | unsigned => exact hplain
    | signed =>
      rw [LittleEndian.toInt, LittleEndian.pow_length, hcontents, Int.bmod_emod]
      exact hplain
  show (c.value % (c.width.contents : Int)).toNat = _
  rw [hmod]
  exact Int.toNat_natCast _

/-- The value is what the bits stand for. -/
theorem HeldBy.value_eq (h : c.HeldBy field) : c.value = c.reading := by
  rw [reading, h.bits_eq, h.value]
  cases c.signedness with
  | unsigned => rfl
  | signed =>
    show LittleEndian.toInt .signed field = twosComplement (8 * c.width.size) (LittleEndian.toNat field)
    rw [LittleEndian.toInt_signed, h.length]

/-- The value lies in the range of its width and signedness. -/
theorem HeldBy.value_bounds (h : c.HeldBy field) :
    (c.signedness = .signed → -2 ^ (c.width.bits - 1) ≤ c.value ∧ c.value < 2 ^ (c.width.bits - 1)) ∧
    (c.signedness = .unsigned → 0 ≤ c.value ∧ c.value < 2 ^ c.width.bits) := by
  have hbits : c.bits < 2 ^ c.width.bits := by
    have hlt := LittleEndian.toNat_lt field
    rw [h.length] at hlt
    rw [h.bits_eq]
    exact hlt
  have hpos : 0 < c.width.bits := by cases c.width <;> decide
  rw [h.value_eq]
  constructor
  · intro hsigned
    rw [reading, hsigned]
    exact twosComplement_bounds hpos hbits
  · intro hunsigned
    rw [reading, hunsigned, two_pow_cast]
    exact ⟨Int.natCast_nonneg _, Int.ofNat_lt.2 hbits⟩

end Constant

end CodeAtlas
