/-!
# Legacy prefixes

Up to four prefix bytes can stand before an opcode.  Four kinds are recognised: the operand-size override,
which makes word operands of dword ones, and the lock and repeat prefixes, which are recorded only.
-/

namespace CodeAtlas

/-- A kind of prefix byte. -/
inductive LegacyPrefix where
  | operandSize
  | lock
  | repne
  | rep
deriving DecidableEq, Inhabited

namespace LegacyPrefix

/-- Every kind, in the order of the flag bits. -/
def all : List LegacyPrefix :=
  [operandSize, lock, repne, rep]

/-- The byte that stands for the kind. -/
def byte : LegacyPrefix → UInt8
  | operandSize => 0x66
  | lock => 0xF0
  | repne => 0xF2
  | rep => 0xF3

/-- The kind that a byte stands for, if it is a prefix byte at all. -/
def ofByte? (b : UInt8) : Option LegacyPrefix :=
  if b = 0x66 then some operandSize
  else if b = 0xF0 then some lock
  else if b = 0xF2 then some repne
  else if b = 0xF3 then some rep
  else none

/-- The bit of the kind in a set of flags. -/
def flag : LegacyPrefix → Nat
  | operandSize => 1
  | lock => 2
  | repne => 4
  | rep => 8

/-- The name of the flag. -/
def flagName : LegacyPrefix → String
  | operandSize => "OPERAND_SIZE"
  | lock => "LOCK"
  | repne => "REPNE"
  | rep => "REP"

/-- Reading the byte of a kind gives the kind. -/
@[simp] theorem ofByte?_byte (k : LegacyPrefix) : ofByte? k.byte = some k := by
  cases k <;> rfl

end LegacyPrefix

/-- The prefixes recorded before one opcode, in the order of their bytes; there are at most four. -/
structure Prefixes where
  kinds : List LegacyPrefix
  length_le : kinds.length ≤ 4
deriving DecidableEq

namespace Prefixes

/-- How many prefix bytes one instruction can have. -/
def limit : Nat := 4

/-- No prefix. -/
def empty : Prefixes :=
  ⟨[], by decide⟩

instance : Inhabited Prefixes := ⟨empty⟩

/-- Number of prefix bytes. -/
def count (p : Prefixes) : Nat :=
  p.kinds.length

/-- Whether no further prefix can be recorded. -/
def isFull (p : Prefixes) : Bool :=
  p.count == limit

/-- Records one more prefix byte; nothing is recorded if the byte is no prefix or there is no room. -/
def push? (p : Prefixes) (b : UInt8) : Option Prefixes :=
  match LegacyPrefix.ofByte? b with
  | none => none
  | some k =>
    if h : p.kinds.length < 4 then
      some ⟨p.kinds ++ [k], by rw [List.length_append]; exact h⟩
    else none

/-- The prefix bytes, in order. -/
def bytes (p : Prefixes) : List UInt8 :=
  p.kinds.map LegacyPrefix.byte

/-- Whether a kind of prefix is recorded. -/
def has (p : Prefixes) (k : LegacyPrefix) : Bool :=
  p.kinds.contains k

/-- Whether a byte is among the prefix bytes. -/
def hasByte (p : Prefixes) (b : UInt8) : Bool :=
  p.bytes.contains b

/-- The kinds recorded, as a set of flag bits: the bit of each is set as it is recorded. -/
def flags (p : Prefixes) : Nat :=
  p.kinds.foldl (fun bits k => bits ||| k.flag) 0

/-- Whether the bit of a kind is set. -/
def isFlagged (p : Prefixes) (k : LegacyPrefix) : Bool :=
  p.flags &&& k.flag != 0

/-- The kinds whose bits are set, in the order of the bits. -/
def present (p : Prefixes) : List LegacyPrefix :=
  LegacyPrefix.all.filter p.isFlagged

end Prefixes

end CodeAtlas
