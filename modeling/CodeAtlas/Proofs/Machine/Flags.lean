import CodeAtlas.Machine.Prefixes
import Mathlib.Data.List.Induction

/-!
# Flags of the recorded prefixes

Recording a prefix byte does two things: the byte is appended to those before it, and the bit of its kind is set
among the flags.  The operand size is taken from the flags, the repeat prefix of a pause from the bytes, so the two
records have to agree.

* `Prefixes.of_push?` — what recording a byte does to both records;
* `Prefixes.push?_induction` — what holds without prefixes and is kept by recording a byte holds of all prefixes;
* `Prefixes.isFlagged_eq_has`, `Prefixes.flags_lt` — the bit of a kind is set exactly if the kind was recorded, and
  no other bit is.
-/

namespace CodeAtlas

theorem LegacyPrefix.flag_lt (k : LegacyPrefix) : k.flag < 16 := by
  cases k <;> decide

/-- No two kinds share a bit. -/
theorem LegacyPrefix.flag_and_flag {j k : LegacyPrefix} : j.flag &&& k.flag ≠ 0 ↔ k = j := by
  cases j <;> cases k <;> decide

namespace Prefixes

variable {p q : Prefixes} {b : UInt8}

/-- **Recording a byte** appends its kind to those recorded, and sets its bit beside those that are set. -/
theorem of_push? (h : p.push? b = some q) :
    ∃ k, LegacyPrefix.ofByte? b = some k ∧ q.kinds = p.kinds ++ [k] ∧ q.flags = p.flags ||| k.flag := by
  unfold push? at h
  split at h
  · cases h
  · next k hk =>
    split at h
    · cases h
      refine ⟨k, hk, rfl, ?_⟩
      rw [flags, flags, List.foldl_append]
      rfl
    · cases h

/-- All prefixes come about by recording one byte after the other. -/
theorem push?_induction {motive : Prefixes → Prop} (empty : motive .empty)
    (push : ∀ {p q : Prefixes} {b : UInt8}, motive p → p.push? b = some q → motive q) (p : Prefixes) :
    motive p := by
  obtain ⟨kinds, hle⟩ := p
  induction kinds using List.reverseRecOn with
  | nil => exact empty
  | append_singleton kinds k ih =>
    have hroom : kinds.length < 4 := by
      rw [List.length_append] at hle
      exact hle
    refine push (b := k.byte) (ih (Nat.le_of_lt hroom)) ?_
    rw [push?, LegacyPrefix.ofByte?_byte]
    exact dif_pos hroom

/-! ## The two records agree -/

theorem isFlagged_iff {k : LegacyPrefix} : p.isFlagged k = true ↔ p.flags &&& k.flag ≠ 0 := by
  rw [isFlagged, bne_iff_ne]

/-- With the bit of one kind set beside the others, this kind is flagged and the others are as they were. -/
theorem isFlagged_of_flags {j : LegacyPrefix} (h : q.flags = p.flags ||| j.flag) (k : LegacyPrefix) :
    q.isFlagged k = true ↔ p.isFlagged k = true ∨ k = j := by
  rw [isFlagged_iff, isFlagged_iff, h, Nat.and_or_distrib_right, ← LegacyPrefix.flag_and_flag]
  simp only [ne_eq, Nat.or_eq_zero_iff, not_and_or]

theorem has_of_kinds {j : LegacyPrefix} (h : q.kinds = p.kinds ++ [j]) (k : LegacyPrefix) :
    q.has k = true ↔ p.has k = true ∨ k = j := by
  rw [has, has, h, List.contains_iff_mem, List.contains_iff_mem, List.mem_append, List.mem_singleton]

/-- **The bit of a kind is set exactly if the kind was recorded.** -/
theorem isFlagged_eq_has (p : Prefixes) (k : LegacyPrefix) : p.isFlagged k = p.has k := by
  induction p using push?_induction with
  | empty => cases k <;> rfl
  | push hp hpush =>
    obtain ⟨j, -, hkinds, hflags⟩ := of_push? hpush
    rw [Bool.eq_iff_iff, isFlagged_of_flags hflags, has_of_kinds hkinds, hp]

theorem isFlagged_congr {k : LegacyPrefix} (h : p.has k = q.has k) : p.isFlagged k = q.isFlagged k := by
  rw [isFlagged_eq_has, isFlagged_eq_has, h]

/-- No bits are set but those of the four kinds. -/
theorem flags_lt (p : Prefixes) : p.flags < 16 := by
  induction p using push?_induction with
  | empty => decide
  | push hp hpush =>
    obtain ⟨k, -, -, hflags⟩ := of_push? hpush
    rw [hflags]
    exact Nat.or_lt_two_pow (n := 4) hp k.flag_lt

end Prefixes

end CodeAtlas
