/-!
# Bit fields of a byte

The encoding cuts a byte into two, three and three bits.  Opcodes, ModRM bytes and SIB bytes all keep
register numbers in these places.
-/

namespace CodeAtlas

-- A numeral for a field carries a proof that the field has values; with these it is one proof everywhere.
instance neZero_four : @NeZero Nat Zero.ofOfNat0 4 :=
  ⟨by decide⟩

instance neZero_eight : @NeZero Nat Zero.ofOfNat0 8 :=
  ⟨by decide⟩

/-- The top two bits of a byte. -/
def topField (b : UInt8) : Fin 4 :=
  ⟨b.toNat / 64, Nat.div_lt_of_lt_mul b.toNat_lt⟩

/-- Bits three to five of a byte. -/
def middleField (b : UInt8) : Fin 8 :=
  ⟨b.toNat / 8 % 8, Nat.mod_lt _ (by decide)⟩

/-- The low three bits of a byte. -/
def bottomField (b : UInt8) : Fin 8 :=
  ⟨b.toNat % 8, Nat.mod_lt _ (by decide)⟩

end CodeAtlas
